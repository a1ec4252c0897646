import Mathlib.Data.List.TakeWhile
import RalphexRunner.Text.Chars

/-!
# Substrings and numbers of a text

`splitOnce` finds the first occurrence of a pattern, `parseU64` reads a decimal number of 64 bits.
An occurrence is found behind a text in which none can begin: `avoids` says so of the text alone,
whatever follows it, and is checked by evaluating it.
-/

namespace RalphexRunner

/-- What stands before and after the first occurrence of a pattern. -/
def splitOnce (pattern : Text) : Text → Option (Text × Text)
  | [] => if pattern.isEmpty then some ([], []) else none
  | character :: rest =>
      if pattern.isPrefixOf (character :: rest) then
        some ([], (character :: rest).drop pattern.length)
      else (splitOnce pattern rest).map fun split ↦ (character :: split.1, split.2)

def decimal (digits : Text) : ℕ :=
  digits.foldl (fun number digit ↦ 10 * number + (digit.toNat - '0'.toNat)) 0

/-- A number that 64 bits hold, one plus sign in front of it allowed. -/
def parseU64 (text : Text) : Option (Fin (2 ^ 64)) :=
  let digits := (stripPrefix text ['+']).getD text
  if digits.isEmpty || !digits.all isDigit then none
  else if h : decimal digits < 2 ^ 64 then some ⟨decimal digits, h⟩ else none

example : splitOnce "ab".toList "xaabb".toList = some ("xa".toList, "b".toList) := by decide

theorem toList_append_eq {first second : String} {text more : Text} (h : first.toList = text)
    (hmore : second.toList = more) : (first ++ second).toList = text ++ more := by
  rw [String.toList_append, h, hmore]

/-- Neither of two texts is a prefix of the other. -/
def clashes (first second : Text) : Bool :=
  !first.isPrefixOf second && !second.isPrefixOf first

/-- No occurrence of the pattern begins in the text, whatever follows it. -/
def avoids (pattern : Text) : Text → Bool
  | [] => true
  | character :: rest => clashes pattern (character :: rest) && avoids pattern rest

/-- A pattern that clashes with a text is no prefix of it with more behind it. -/
theorem not_isPrefixOf_of_clashes {pattern text : Text} (h : clashes pattern text = true)
    (more : Text) : ¬ pattern.isPrefixOf (text ++ more) = true := by
  rw [clashes, Bool.and_eq_true, Bool.not_eq_true', Bool.not_eq_true'] at h
  rw [List.isPrefixOf_iff_prefix]
  intro hoccurs
  rcases List.prefix_or_prefix_of_prefix hoccurs (List.prefix_append text more) with hin | hin
  · rw [← List.isPrefixOf_iff_prefix, h.1] at hin
    cases hin
  · rw [← List.isPrefixOf_iff_prefix, h.2] at hin
    cases hin

/-- The first occurrence is behind a text in which none begins. -/
theorem splitOnce_of_avoids {pattern text : Text} (h : avoids pattern text = true) (more : Text) :
    splitOnce pattern (text ++ more) =
      (splitOnce pattern more).map fun split ↦ (text ++ split.1, split.2) := by
  induction text with
  | nil => exact Option.map_id.symm ▸ rfl
  | cons character rest ih =>
      rw [avoids, Bool.and_eq_true] at h
      have hno := not_isPrefixOf_of_clashes h.1 more
      rw [List.cons_append] at hno ⊢
      rw [splitOnce, if_neg hno, ih h.2, Option.map_map]
      rfl

/-- A text is what its split says. -/
theorem eq_of_splitOnce {pattern text before after : Text}
    (h : splitOnce pattern text = some (before, after)) : text = before ++ (pattern ++ after) := by
  induction text generalizing before with
  | nil =>
      rw [splitOnce] at h
      split at h
      · rename_i hempty
        obtain ⟨rfl, rfl⟩ := Prod.mk.inj (Option.some.inj h)
        rw [List.isEmpty_iff.mp hempty]
        rfl
      · cases h
  | cons character rest ih =>
      rw [splitOnce] at h
      split at h
      · rename_i hhere
        obtain ⟨rfl, rfl⟩ := Prod.mk.inj (Option.some.inj h)
        exact (List.prefix_iff_eq_append.mp (List.isPrefixOf_iff_prefix.mp hhere)).symm
      · obtain ⟨split, hsplit, hboth⟩ := Option.map_eq_some_iff.mp h
        obtain ⟨rfl, rfl⟩ := Prod.mk.inj hboth
        rw [ih hsplit, List.cons_append]

/-- What follows a text does not move its first occurrence. -/
theorem splitOnce_append {pattern text before after : Text}
    (h : splitOnce pattern text = some (before, after)) (more : Text) :
    splitOnce pattern (text ++ more) = some (before, after ++ more) := by
  induction text generalizing before with
  | nil =>
      rw [splitOnce] at h
      split at h
      · rename_i hempty
        obtain ⟨rfl, rfl⟩ := Prod.mk.inj (Option.some.inj h)
        rw [List.isEmpty_iff.mp hempty]
        cases more <;> rfl
      · cases h
  | cons character rest ih =>
      rw [splitOnce] at h
      rw [List.cons_append, splitOnce]
      split at h
      · rename_i hhere
        obtain ⟨rfl, rfl⟩ := Prod.mk.inj (Option.some.inj h)
        have hstarts := List.isPrefixOf_iff_prefix.mp hhere
        have hmore : pattern.isPrefixOf (character :: (rest ++ more)) = true :=
          List.isPrefixOf_iff_prefix.mpr (hstarts.trans (List.prefix_append _ more))
        rw [if_pos hmore, ← List.cons_append, List.drop_append_of_le_length hstarts.length_le]
      · rename_i hno
        obtain ⟨split, hsplit, hboth⟩ := Option.map_eq_some_iff.mp h
        obtain ⟨rfl, rfl⟩ := Prod.mk.inj hboth
        rw [ih hsplit, Option.map_some, if_neg]
        -- the pattern fits the rest, so an occurrence here would fit the text as well
        have hlength : pattern.length ≤ (character :: rest).length := by
          have hrest := congrArg List.length (eq_of_splitOnce hsplit)
          simp only [List.length_append, List.length_cons] at hrest ⊢
          omega
        intro hhere
        have hshort := List.prefix_of_prefix_length_le (List.isPrefixOf_iff_prefix.mp hhere)
          (List.prefix_append (character :: rest) more) hlength
        exact hno (List.isPrefixOf_iff_prefix.mpr hshort)

/-- No occurrence begins in a text without the first character of the pattern. -/
theorem avoids_of_notMem {first : Char} {pattern text : Text}
    (hpattern : pattern.head? = some first) (h : first ∉ text) : avoids pattern text = true := by
  obtain ⟨more, rfl⟩ := List.head?_eq_some_iff.mp hpattern
  induction text with
  | nil => rfl
  | cons character rest ih =>
      obtain ⟨hfirst, hrest⟩ := not_or.mp (List.mem_cons.not.mp h)
      have hclash : clashes (first :: more) (character :: rest) = true := by
        rw [clashes, List.isPrefixOf_cons_cons, List.isPrefixOf_cons_cons,
          beq_false_of_ne (Ne.symm hfirst), beq_false_of_ne hfirst]
        rfl
      rw [avoids, hclash, ih hrest]
      rfl

theorem decimal_toDigits (number : ℕ) : decimal (Nat.toDigits 10 number) = number := by
  rw [decimal, ← Nat.ofDigitChars_eq_foldl]
  exact Nat.ofDigitChars_ten_toDigits

theorem isDigit_of_mem_toDigits {number : ℕ} {digit : Char} (h : digit ∈ Nat.toDigits 10 number) :
    isDigit digit = true := by
  have hdigit := Nat.isDigit_of_mem_toDigits (by decide) (by decide) h
  rw [Char.isDigit, Bool.and_eq_true, decide_eq_true_iff, decide_eq_true_iff] at hdigit
  exact decide_eq_true hdigit

theorem toNat_of_isDigit {character : Char} (h : isDigit character = true) :
    48 ≤ character.toNat ∧ character.toNat ≤ 57 := by
  have hdigit := of_decide_eq_true h
  rw [Char.le_def, Char.le_def, UInt32.le_iff_toNat_le, UInt32.le_iff_toNat_le] at hdigit
  exact hdigit

/-- A number of 64 bits takes twenty bytes at most. -/
theorem size_numeral_le {number : ℕ} (h : number < 2 ^ 64) : Utf8.size (numeral number) ≤ 20 := by
  have hdigit (digit : Char) (hmem : digit ∈ Nat.toDigits 10 number) : digit.utf8Size = 1 := by
    have htoNat := (toNat_of_isDigit (isDigit_of_mem_toDigits hmem)).2
    rw [Char.utf8Size_eq_one_iff, UInt32.le_iff_toNat_le]
    exact Nat.le_trans htoNat (by decide)
  have hlength := (Nat.length_toDigits_le_iff (by decide) (by decide)).mpr
    (show number < 10 ^ 20 by omega)
  rwa [numeral_eq, Utf8.size_eq_length hdigit]

theorem isWhitespace_of_isDigit {character : Char} (h : isDigit character = true) :
    isWhitespace character = false := by
  obtain ⟨hlow, hhigh⟩ := toNat_of_isDigit h
  rw [isWhitespace, decide_eq_false_iff_not]
  omega

/-- A text without white space is trimmed already. -/
theorem trim_eq_self {text : Text} (h : ∀ character ∈ text, isWhitespace character = false) :
    trim text = text := by
  have hstart (text : Text) (h : ∀ character ∈ text, isWhitespace character = false) :
      text.dropWhile isWhitespace = text :=
    List.dropWhile_eq_self_iff.mpr fun _ ↦ by simp [h]
  rw [trim, trimStart, trimEnd, hstart text h, hstart text.reverse fun character hmem ↦
    h character (List.mem_reverse.mp hmem), List.reverse_reverse]

/-- Digits begin with no sign. -/
theorem stripPrefix_plus {digits : Text} (h : digits.all isDigit = true) :
    stripPrefix digits ['+'] = none := by
  rw [stripPrefix, if_neg]
  rw [List.isPrefixOf_iff_prefix]
  intro hstarts
  have hdigit := List.all_eq_true.mp h '+' (hstarts.subset (List.mem_singleton_self _))
  exact absurd hdigit (by decide)

theorem parseU64_toDigits {number : ℕ} (h : number < 2 ^ 64) :
    parseU64 (Nat.toDigits 10 number) = some ⟨number, h⟩ := by
  have hall : (Nat.toDigits 10 number).all isDigit = true :=
    List.all_eq_true.mpr fun digit hdigit ↦ isDigit_of_mem_toDigits hdigit
  rw [parseU64, stripPrefix_plus hall, Option.getD_none, hall,
    if_neg (by simp [Nat.toDigits_ne_nil])]
  simp only [decimal_toDigits, h, dif_pos]

/-- A number read from digits is the one they stand for. -/
theorem val_of_parseU64 {digits : Text} {number : Fin (2 ^ 64)} (hall : digits.all isDigit = true)
    (h : parseU64 digits = some number) : number.val = decimal digits := by
  rw [parseU64, stripPrefix_plus hall, Option.getD_none] at h
  split at h
  · cases h
  · split at h
    · exact (congrArg Fin.val (Option.some.inj h)).symm
    · cases h

end RalphexRunner
