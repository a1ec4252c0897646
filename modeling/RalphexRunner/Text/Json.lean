import RalphexRunner.Text.Utf8

/-!
# The JSON of texts and of objects, and its size

A text is quoted with the escapes JSON asks for: two characters for a quote, a backslash and the
control characters that have a letter, six for every other control character, and every other
character as it is.  An object holds its members in the order they are given in.

The size of what is written is the sum of what its texts take, so a bound on it is one on them.
-/

namespace RalphexRunner.Json

/-- A character inside a string. -/
def escape (character : Char) : Text :=
  if character = '\x22' then ['\x5c', '\x22']
  else if character = '\x5c' then ['\x5c', '\x5c']
  else if character = '\x08' then ['\x5c', 'b']
  else if character = '\x0c' then ['\x5c', 'f']
  else if character = '\n' then ['\x5c', 'n']
  else if character = '\r' then ['\x5c', 'r']
  else if character = '\t' then ['\x5c', 't']
  else if character.toNat < 0x20 then
    ['\x5c', 'u', '0', '0', (character.toNat / 16).digitChar, (character.toNat % 16).digitChar]
  else [character]

def quote (text : Text) : Text := '\x22' :: (text.flatMap escape ++ ['\x22'])

/-- The members of an object, each a name and the JSON of its value. -/
def members : List (Text × Text) → Text
  | [] => []
  | [(name, value)] => quote name ++ ':' :: value
  | (name, value) :: rest => quote name ++ ':' :: value ++ ',' :: members rest

def object (fields : List (Text × Text)) : Text := '\x7b' :: (members fields ++ ['\x7d'])

/-- The bytes a text takes inside a string. -/
def width (text : Text) : ℕ := Utf8.size (text.flatMap escape)

@[simp] theorem width_nil : width [] = 0 := rfl

@[simp] theorem width_cons (character : Char) (text : Text) :
    width (character :: text) = Utf8.size (escape character) + width text := by
  rw [width, List.flatMap_cons, Utf8.size_append, width]

@[simp] theorem width_append (first second : Text) :
    width (first ++ second) = width first + width second := by
  rw [width, List.flatMap_append, Utf8.size_append, width, width]

/-- An escape takes six bytes at most for each byte of its character. -/
theorem size_escape_le (character : Char) :
    Utf8.size (escape character) ≤ 6 * character.utf8Size := by
  have hpos : 0 < character.utf8Size := character.utf8Size_pos
  have hdigit : ∀ digit : Fin 16, digit.val.digitChar.utf8Size = 1 := by decide
  have hopening : Utf8.size ['\x5c', 'u', '0', '0'] = 4 := rfl
  have htwo (letter : Char) (hletter : letter.utf8Size = 1) : Utf8.size ['\x5c', letter] = 2 := by
    simp only [Utf8.size_cons, Utf8.size_nil, hletter]
    rfl
  unfold escape
  split_ifs
  all_goals try (rw [htwo _ rfl]; omega)
  · rename_i hcontrol
    have hhigh := hdigit ⟨character.toNat / 16, by omega⟩
    have hlow := hdigit ⟨character.toNat % 16, by omega⟩
    change Utf8.size (['\x5c', 'u', '0', '0'] ++ [_, _]) ≤ _
    simp only [Utf8.size_append, hopening, Utf8.size_cons, Utf8.size_nil] at hhigh hlow ⊢
    omega
  · simp only [Utf8.size_cons, Utf8.size_nil]
    omega

/-- Escaping expands a text sixfold at most. -/
theorem width_le (text : Text) : width text ≤ 6 * Utf8.size text := by
  induction text with
  | nil => exact Nat.le_refl 0
  | cons character text ih =>
      have hfirst := size_escape_le character
      rw [width_cons, Utf8.size_cons]
      omega

theorem width_replicate {character : Char} (hsame : escape character = [character])
    (hone : character.utf8Size = 1) (count : ℕ) :
    width (List.replicate count character) = count := by
  induction count with
  | zero => rfl
  | succ count ih =>
      rw [List.replicate_succ, width_cons, ih, hsame, Utf8.size_cons, Utf8.size_nil, hone]
      omega

theorem size_quote (text : Text) : Utf8.size (quote text) = width text + 2 := by
  rw [quote, Utf8.size_cons, Utf8.size_append, ← width]
  change 1 + (width text + 1) = _
  omega

theorem size_members_singleton (name value : Text) :
    Utf8.size (members [(name, value)]) = width name + 3 + Utf8.size value := by
  rw [members, Utf8.size_append, Utf8.size_cons, size_quote]
  change width name + 2 + (1 + Utf8.size value) = _
  omega

theorem size_members_cons (name value : Text) (next : Text × Text) (rest : List (Text × Text)) :
    Utf8.size (members ((name, value) :: next :: rest)) =
      width name + 4 + Utf8.size value + Utf8.size (members (next :: rest)) := by
  rw [members, Utf8.size_append, Utf8.size_append, Utf8.size_cons, Utf8.size_cons, size_quote]
  · change width name + 2 + (1 + Utf8.size value) + (1 + _) = _
    omega
  · exact nofun

theorem size_object (fields : List (Text × Text)) :
    Utf8.size (object fields) = Utf8.size (members fields) + 2 := by
  rw [object, Utf8.size_cons, Utf8.size_append]
  change 1 + (Utf8.size (members fields) + 1) = _
  omega

example : quote ['a', '\x22', '\n', '\x01'] =
    "\x22a\\\x22\\n\\u0001\x22".toList := by decide

end RalphexRunner.Json
