import Mathlib.Data.Option.NAry
import RalphexRunner.Text.Encoding
import RalphexRunner.Text.Json
import RalphexRunner.Text.Percent
import RalphexRunner.Text.Search

/-!
# JSON values, written and read

A value is written without white space; it is read with white space wherever the standard allows
it and with every escape a string may hold.  A number is kept as it is written, with the fact that
it is written as the standard asks.

The reader goes over bytes and asks for nothing but the grammar.  What a string stands for is found
once it is whole: half a surrogate pair and bytes that are no UTF-8 make it unreadable, and so they
make an object that has it for a name.  Whoever skips such a value is not troubled by it.  A value
that is read for its own sake is `sound` as well: all of it can be read, nothing is nested too
deeply, and no number is beyond the largest double.

What is written is read back: `readBytes_write`, whatever the value.
-/

namespace RalphexRunner.Json

def isSign (character : Char) : Bool := character = '-' || character = '+'

/-- The characters a number is written with. -/
def isNumeric (character : Char) : Bool :=
  isDigit character || isSign character || character = '.' || character = 'e' || character = 'E'

def isDigits (text : Text) : Bool := !text.isEmpty && text.all isDigit

/-- The exponent of a number, which may be left out. -/
def isExponent : Text → Bool
  | [] => true
  | letter :: rest =>
      (letter = 'e' || letter = 'E') &&
        isDigits (if rest.head?.any isSign then rest.drop 1 else rest)

/-- The fraction and the exponent of a number, which may be left out. -/
def isFraction (text : Text) : Bool :=
  match text with
  | '.' :: rest =>
      !(rest.takeWhile isDigit).isEmpty && isExponent (rest.dropWhile isDigit)
  | _ => isExponent text

/-- A number: a sign, digits without a leading zero, a fraction and an exponent. -/
def isNumber (text : Text) : Bool :=
  let body := if text.head? = some '-' then text.drop 1 else text
  let digits := body.takeWhile isDigit
  !digits.isEmpty && (digits.head? ≠ some '0' || digits.length = 1) &&
    isFraction (body.dropWhile isDigit)

/-- A number as it is written. -/
structure Number where
  text : Text
  wellFormed : isNumber text = true

/-- The first digit of a number is a zero in zero alone. -/
theorem head?_toDigits {number : ℕ} (h : 0 < number) :
    (Nat.toDigits 10 number).head? ≠ some '0' := by
  induction number using Nat.strongRecOn with
  | ind number ih =>
  by_cases hsmall : number < 10
  · have hall : ∀ digit : Fin 10, 0 < digit.val → digit.val.digitChar ≠ '0' := by decide
    rw [Nat.toDigits_of_lt_base hsmall, List.head?_cons, Ne, Option.some.injEq]
    exact hall ⟨number, hsmall⟩ h
  · have hrest := ih (number / 10) (by omega) (by omega)
    obtain ⟨first, rest, hdigits⟩ :=
      List.exists_cons_of_ne_nil (@Nat.toDigits_ne_nil (number / 10) 10)
    rw [hdigits, List.head?_cons] at hrest
    rwa [Nat.toDigits_of_base_le (by decide) (by omega), hdigits, List.cons_append,
      List.head?_cons]

theorem isNumber_numeral (number : ℕ) : isNumber (numeral number) = true := by
  have hall : ∀ digit ∈ Nat.toDigits 10 number, isDigit digit = true :=
    fun _ hdigit ↦ isDigit_of_mem_toDigits hdigit
  have hne : Nat.toDigits 10 number ≠ [] := Nat.toDigits_ne_nil
  have hunsigned : (Nat.toDigits 10 number).head? ≠ some '-' := fun hhead ↦
    absurd (hall '-' (List.mem_of_mem_head? hhead)) (by decide)
  have hleading : (Nat.toDigits 10 number).head? ≠ some '0' ∨
      (Nat.toDigits 10 number).length = 1 := by
    rcases Nat.eq_zero_or_pos number with rfl | hpos
    · exact .inr rfl
    · exact .inl (head?_toDigits hpos)
  rw [numeral_eq, isNumber, if_neg hunsigned, List.takeWhile_eq_self_iff.mpr hall,
    List.dropWhile_eq_nil_iff.mpr hall]
  simp [hne, hleading, isFraction, isExponent]

def Number.ofNat (number : ℕ) : Number := ⟨numeral number, isNumber_numeral number⟩

/-- The natural number a number is, where it is written as one. -/
def Number.toNat? (number : Number) : Option ℕ :=
  if number.text.all isDigit then some (decimal number.text) else none

theorem Number.toNat?_ofNat (number : ℕ) : (Number.ofNat number).toNat? = some number := by
  have htext : (Number.ofNat number).text = Nat.toDigits 10 number := numeral_eq number
  have hall : (Number.ofNat number).text.all isDigit = true := by
    rw [htext, List.all_eq_true]
    exact fun _ hdigit ↦ isDigit_of_mem_toDigits hdigit
  rw [toNat?, if_pos hall, htext, decimal_toDigits]

/-- The nearest number of 53 bits and zeros behind them, an even one where two are as near. -/
def toDouble (number : ℕ) : ℕ :=
  let unit := 2 ^ (number.log2 - 52)
  let quotient := number / unit
  let rest := number % unit
  if unit < 2 * rest ∨ unit = 2 * rest ∧ quotient % 2 = 1 then (quotient + 1) * unit
  else quotient * unit

/-- What digits make of a significand as long as 64 bits hold it, and how many of them do. -/
def significand : ℕ → Text → ℕ × ℕ
  | value, [] => (value, 0)
  | value, digit :: rest =>
      let longer := value * 10 + (digit.toNat - '0'.toNat)
      if longer < 2 ^ 64 then (significand longer rest).map id (· + 1) else (value, 0)

/-- The number behind the letter of an exponent. -/
def exponent : Text → ℤ
  | [] => 0
  | _ :: rest =>
      if rest.head? = some '-' then -(decimal (rest.drop 1) : ℤ)
      else decimal (if rest.head? = some '+' then rest.drop 1 else rest)

/-- A number is not beyond the largest double, as the parser reckons it: from 64 bits of its digits
and a power of ten. -/
def Number.inRange (number : Number) : Bool :=
  let body := if number.text.head? = some '-' then number.text.drop 1 else number.text
  let digits := body.takeWhile isDigit
  let rest := body.dropWhile isDigit
  let fraction := if rest.head? = some '.' then (rest.drop 1).takeWhile isDigit else []
  let behind := if rest.head? = some '.' then (rest.drop 1).dropWhile isDigit else rest
  let whole := significand 0 digits
  let all := significand whole.1 fraction
  let scale := (digits.length - whole.2 : ℤ) - all.2 + exponent behind
  all.1 = 0 || scale < 0 ||
    (scale ≤ 308 && toDouble all.1 * toDouble (10 ^ scale.toNat) < 2 ^ 1024 - 2 ^ 970)

/-- A JSON value.  A string that stands for no text is unreadable, and so is an object with such a
name. -/
inductive Value where
  | null
  | bool (value : Bool)
  | number (value : Number)
  | string (text : Text)
  | array (items : List Value)
  | object (fields : List (Text × Value))
  | unreadable

/-- Texts with a comma between them. -/
def separated : List Text → Text
  | [] => []
  | [item] => item
  | item :: rest => item ++ ',' :: separated rest

mutual

def write : Value → Text
  | .null => "null".toList
  | .bool true => "true".toList
  | .bool false => "false".toList
  | .number value => value.text
  | .string text => quote text
  | .array items => '[' :: (separated (writeItems items) ++ [']'])
  | .object fields => object (writeFields fields)
  | .unreadable => ['\x22', '\x5c', 'u', 'd', '8', '0', '0', '\x22']

def writeItems : List Value → List Text
  | [] => []
  | item :: rest => write item :: writeItems rest

def writeFields : List (Text × Value) → List (Text × Text)
  | [] => []
  | (name, value) :: rest => (name, write value) :: writeFields rest

end

mutual

/-- How deep arrays and objects are nested in a value. -/
def nesting : Value → ℕ
  | .array items => nestingItems items + 1
  | .object fields => nestingFields fields + 1
  | _ => 0

def nestingItems : List Value → ℕ
  | [] => 0
  | item :: rest => max (nesting item) (nestingItems rest)

def nestingFields : List (Text × Value) → ℕ
  | [] => 0
  | (_, value) :: rest => max (nesting value) (nestingFields rest)

end

mutual

/-- All of a value can be read, and its numbers are doubles. -/
def readable : Value → Bool
  | .number value => value.inRange
  | .array items => readableItems items
  | .object fields => readableFields fields
  | .unreadable => false
  | _ => true

def readableItems : List Value → Bool
  | [] => true
  | item :: rest => readable item && readableItems rest

def readableFields : List (Text × Value) → Bool
  | [] => true
  | (_, value) :: rest => readable value && readableFields rest

end

/-- How deep a value may nest its arrays and objects where all of it is read. -/
def depthLimit : ℕ := 127

/-- The whole of a value can be read. -/
def sound (value : Value) : Bool := nesting value ≤ depthLimit && readable value

/-! ## Reading -/

/-- Bytes as the characters of the same numbers, which is what the reader goes over. -/
def latin (bytes : List UInt8) : Text := bytes.map fun byte ↦ Char.ofNat byte.toNat

def isBlank (character : Char) : Bool :=
  character = ' ' || character = '\n' || character = '\t' || character = '\r'

def skipBlanks (text : Text) : Text := text.dropWhile isBlank

/-- Four hexadecimal digits. -/
def readHex : Text → Option (ℕ × Text)
  | first :: second :: third :: fourth :: rest =>
      (Percent.hexValue first).bind fun one ↦ (Percent.hexValue second).bind fun two ↦
        (Percent.hexValue third).bind fun three ↦ (Percent.hexValue fourth).map fun four ↦
          (((one * 16 + two) * 16 + three) * 16 + four, rest)
  | _ => none

/-- The code unit at the front that belongs to a high surrogate. -/
def readLow (text : Text) : Option (ℕ × Text) :=
  if text.take 2 = ['\x5c', 'u'] then
    (readHex (text.drop 2)).filter fun low ↦ 0xDC00 ≤ low.1 ∧ low.1 < 0xE000
  else none

/-- What stands behind a backslash and a "u": a code unit, two that belong together, or one that
stands for nothing alone. -/
def readUnicode (text : Text) : Option (Option Char × Text) :=
  (readHex text).map fun high ↦
    if high.1 < 0xD800 ∨ 0xE000 ≤ high.1 then (some (Char.ofNat high.1), high.2)
    else if 0xDC00 ≤ high.1 then (none, high.2)
    else
      match readLow high.2 with
      | some low =>
          (some (Char.ofNat (0x10000 + (high.1 - 0xD800) * 0x400 + (low.1 - 0xDC00))), low.2)
      | none => (none, high.2)

/-- What stands behind a backslash. -/
def readEscape : Text → Option (Option Char × Text)
  | [] => none
  | letter :: rest =>
      if letter = '\x22' ∨ letter = '\x5c' ∨ letter = '/' then some (some letter, rest)
      else if letter = 'b' then some (some '\x08', rest)
      else if letter = 'f' then some (some '\x0c', rest)
      else if letter = 'n' then some (some '\n', rest)
      else if letter = 'r' then some (some '\r', rest)
      else if letter = 't' then some (some '\t', rest)
      else if letter = 'u' then readUnicode rest
      else none

/-- The bytes of the rest of a string, up to the quote that closes it; control characters must be
escaped. -/
def readString : ℕ → Text → Option (Option (List UInt8) × Text)
  | 0, _ => none
  | _ + 1, [] => none
  | fuel + 1, character :: rest =>
      if character = '\x22' then some (some [], rest)
      else if character = '\x5c' then
        (readEscape rest).bind fun escaped ↦
          let bytes := escaped.1.map fun character ↦ Utf8.encode [character]
          (readString fuel escaped.2).map (Prod.map (Option.map₂ (· ++ ·) bytes) id)
      else if character.toNat < 0x20 then none
      else (readString fuel rest).map (Prod.map (Option.map (UInt8.ofNat character.toNat :: ·)) id)

def textOf (bytes : List UInt8) : Option Text :=
  match Utf8.check bytes with
  | .ok () => some (Utf8.lossy bytes)
  | .error _ => none

/-- A string behind its opening quote. -/
def readText (text : Text) : Option (Option Text × Text) :=
  (readString (text.length + 1) text).map (Prod.map (·.bind textOf) id)

/-- One character, behind white space. -/
def expect (character : Char) (text : Text) : Option Text :=
  match skipBlanks text with
  | [] => none
  | first :: rest => if first = character then some rest else none

/-- A string with both its quotes. -/
def readName (text : Text) : Option (Option Text × Text) := (expect '\x22' text).bind readText

def readWord (text : Text) : Option (Value × Text) :=
  match stripPrefix text "null".toList, stripPrefix text "true".toList,
      stripPrefix text "false".toList with
  | some rest, _, _ => some (.null, rest)
  | none, some rest, _ => some (.bool true, rest)
  | none, none, some rest => some (.bool false, rest)
  | none, none, none => none

def readNumber (text : Text) : Option (Value × Text) :=
  if h : isNumber (text.takeWhile isNumeric) then
    some (.number ⟨text.takeWhile isNumeric, h⟩, text.dropWhile isNumeric)
  else none

/-- A value that is no array and no object. -/
def readScalar (text : Text) : Option (Value × Text) :=
  match skipBlanks text with
  | [] => none
  | first :: rest =>
      if first = '\x22' then (readText rest).map (Prod.map (·.elim .unreadable .string) id)
      else (readWord (first :: rest)).or (readNumber (first :: rest))

section

variable (item : Text → Option (Value × Text))

/-- The items of an array up to the bracket that closes it. -/
def readItems : ℕ → Text → Option (List Value × Text)
  | 0, _ => none
  | fuel + 1, text =>
      (item text).bind fun value ↦
        match expect ',' value.2 with
        | some rest => (readItems fuel rest).map (Prod.map (value.1 :: ·) id)
        | none => (expect ']' value.2).map ([value.1], ·)

/-- The members of an object up to the brace that closes it. -/
def readFields : ℕ → Text → Option (Option (List (Text × Value)) × Text)
  | 0, _ => none
  | fuel + 1, text =>
      (readName text).bind fun name ↦ (expect ':' name.2).bind fun rest ↦
        (item rest).bind fun value ↦
          let field := name.1.map (·, value.1)
          match expect ',' value.2 with
          | some rest => (readFields fuel rest).map (Prod.map (Option.map₂ List.cons field) id)
          | none => (expect '\x7d' value.2).map (field.map ([·]), ·)

/-- What stands behind an opening bracket. -/
def readArray (text : Text) : Option (Value × Text) :=
  match expect ']' text with
  | some rest => some (.array [], rest)
  | none => (readItems item (text.length + 1) text).map (Prod.map .array id)

/-- What stands behind an opening brace. -/
def readObject (text : Text) : Option (Value × Text) :=
  match expect '\x7d' text with
  | some rest => some (.object [], rest)
  | none =>
      (readFields item (text.length + 1) text).map (Prod.map (·.elim .unreadable .object) id)

end

/-- A value, down to a depth. -/
def readValue : ℕ → Text → Option (Value × Text)
  | 0, text => readScalar text
  | depth + 1, text =>
      match skipBlanks text with
      | [] => none
      | first :: rest =>
          if first = '[' then readArray (readValue depth) rest
          else if first = '\x7b' then readObject (readValue depth) rest
          else readScalar (first :: rest)

/-- The value a text is, with white space around it; nothing is nested deeper than it is long. -/
def read (text : Text) : Option Value :=
  (readValue text.length text).bind fun value ↦
    if skipBlanks value.2 = [] then some value.1 else none

def readBytes (bytes : List UInt8) : Option Value := read (latin bytes)

example : (readBytes (Utf8.encode ("[1, -2.5e3, \x7b\x22a\x22 : \x22\\ud83d\\ude00é\x22, " ++
      "\x22b\x22: \x22\\ud83d\x22\x7d]").toList)).map write =
    some "[1,-2.5e3,\x7b\x22a\x22:\x22😀é\x22,\x22b\x22:\x22\\ud800\x22\x7d]".toList := by
  decide +kernel

/-- The bytes of a text, as the reader goes over them. -/
def raw (text : Text) : Text := latin (Utf8.encode text)

theorem latin_append (first second : List UInt8) :
    latin (first ++ second) = latin first ++ latin second := List.map_append

theorem raw_append (first second : Text) : raw (first ++ second) = raw first ++ raw second := by
  rw [raw, Utf8.encode_append, latin_append, raw, raw]

theorem raw_singleton {character : Char} (h : character.toNat < 0x80) :
    raw [character] = [character] := by
  have hencode : String.utf8EncodeChar character = [UInt8.ofNat character.toNat] := by
    rw [String.utf8EncodeChar]
    exact if_pos (Nat.le_of_lt_succ h)
  rw [raw, Utf8.encode_cons, hencode]
  change [Char.ofNat (UInt8.ofNat character.toNat).toNat] = [character]
  rw [Utf8.toNat_ofNat_of_lt (Nat.lt_trans h (by decide)), Char.ofNat_toNat]

theorem raw_cons {character : Char} (h : character.toNat < 0x80) (text : Text) :
    raw (character :: text) = character :: raw text := by
  rw [← List.singleton_append, raw_append, raw_singleton h, List.singleton_append]

theorem raw_of_ascii {text : Text} (h : ∀ character ∈ text, character.toNat < 0x80) :
    raw text = text := by
  induction text with
  | nil => rfl
  | cons character text ih =>
      rw [raw_cons (h character List.mem_cons_self),
        ih fun other hother ↦ h other (List.mem_cons_of_mem character hother)]

theorem toNat_ofNat (byte : UInt8) : (Char.ofNat byte.toNat).toNat = byte.toNat := by
  have hvalid : byte.toNat.isValidChar := .inl (Nat.lt_trans byte.toNat_lt (by decide))
  rw [Char.ofNat, dif_pos hvalid]
  rfl

theorem ofNat_latin (bytes : List UInt8) :
    (latin bytes).map (fun character ↦ UInt8.ofNat character.toNat) = bytes := by
  rw [latin, List.map_map]
  apply List.map_id''
  intro byte
  rw [Function.comp_apply, toNat_ofNat, UInt8.ofNat_toNat]

theorem readHex_control {code : ℕ} (h : code < 0x20) (rest : Text) :
    readHex ('0' :: '0' :: (code / 16).digitChar :: (code % 16).digitChar :: rest) =
      some (code, rest) := by
  have hall : ∀ digit : Fin 16, Percent.hexValue digit.val.digitChar = some digit.val := by decide
  have hzero : Percent.hexValue '0' = some 0 := by decide
  have hhigh := hall ⟨code / 16, by omega⟩
  have hlow := hall ⟨code % 16, by omega⟩
  dsimp only at hhigh hlow
  rw [readHex, hzero, hhigh, hlow]
  simp only [Option.bind_some, Option.map_some, Option.some.injEq, Prod.mk.injEq, and_true]
  omega

/-- A byte that needs no escape stands for itself. -/
def IsPlain (character : Char) : Prop :=
  character ≠ '\x22' ∧ character ≠ '\x5c' ∧ 0x20 ≤ character.toNat

theorem readString_plain {front : Text} (h : ∀ character ∈ front, IsPlain character) (fuel : ℕ)
    (rest : Text) : readString (fuel + front.length) (front ++ rest) =
      (readString fuel rest).map (Prod.map
        (Option.map (front.map (fun character ↦ UInt8.ofNat character.toNat) ++ ·)) id) := by
  induction front with
  | nil => simp
  | cons character front ih =>
      obtain ⟨hquote, hbackslash, hcontrol⟩ := h character List.mem_cons_self
      have hrest := ih fun other hother ↦ h other (List.mem_cons_of_mem character hother)
      rw [List.length_cons, ← Nat.add_assoc, List.cons_append, readString, if_neg hquote,
        if_neg hbackslash, if_neg (Nat.not_lt.mpr hcontrol), hrest, Option.map_map]
      congr 1
      funext result
      simp [Prod.map, Option.map_map, Function.comp_def]

/-- The bytes of a character that needs no escape need none. -/
theorem isPlain_raw {character : Char} (h : IsPlain character) :
    ∀ byte ∈ raw [character], IsPlain byte := by
  intro byte hbyte
  rw [raw, Utf8.encode_cons, show Utf8.encode [] = [] from rfl, List.append_nil] at hbyte
  obtain ⟨octet, hoctet, rfl⟩ := List.mem_map.mp hbyte
  by_cases hascii : octet.toNat < 0x80
  · rwa [Utf8.ascii_of_mem_encodeChar hascii hoctet]
  · have hcode := toNat_ofNat octet
    refine ⟨?_, ?_, by omega⟩
    · intro hquote
      rw [hquote] at hcode
      exact hascii (hcode ▸ by decide)
    · intro hbackslash
      rw [hbackslash] at hcode
      exact hascii (hcode ▸ by decide)

/-- A character that is escaped is read back from its escape. -/
theorem readEscape_escape {character : Char} (h : ¬ IsPlain character) (rest : Text) :
    ∃ more, raw (escape character) = '\x5c' :: more ∧
      readEscape (more ++ rest) = some (some character, rest) := by
  unfold escape
  split_ifs with hquote hbackslash hback hfeed hline hreturn htab hcontrol
  · exact ⟨['\x22'], rfl, by rw [hquote]; rfl⟩
  · exact ⟨['\x5c'], rfl, by rw [hbackslash]; rfl⟩
  · exact ⟨['b'], rfl, by rw [hback]; rfl⟩
  · exact ⟨['f'], rfl, by rw [hfeed]; rfl⟩
  · exact ⟨['n'], rfl, by rw [hline]; rfl⟩
  · exact ⟨['r'], rfl, by rw [hreturn]; rfl⟩
  · exact ⟨['t'], rfl, by rw [htab]; rfl⟩
  · refine ⟨['u', '0', '0', (character.toNat / 16).digitChar, (character.toNat % 16).digitChar],
      ?_, ?_⟩
    · have hall : ∀ digit : Fin 16, digit.val.digitChar.toNat < 0x80 := by decide
      have hhigh := hall ⟨character.toNat / 16, by omega⟩
      have hlow := hall ⟨character.toNat % 16, by omega⟩
      apply raw_of_ascii
      simp only [List.forall_mem_cons, List.not_mem_nil, false_implies, implies_true, and_true]
      exact ⟨by decide, by decide, by decide, by decide, hhigh, hlow⟩
    · change readUnicode ('0' :: '0' :: _ :: _ :: rest) = _
      rw [readUnicode, readHex_control hcontrol, Option.map_some,
        if_pos (.inl (by dsimp only; omega)), Char.ofNat_toNat]
  · exact absurd ⟨hquote, hbackslash, Nat.le_of_not_lt hcontrol⟩ h

theorem escape_of_isPlain {character : Char} (h : IsPlain character) :
    escape character = [character] := by
  obtain ⟨hquote, hbackslash, hcontrol⟩ := h
  have hne {code : ℕ} (hcode : code < 0x20) : character ≠ Char.ofNat code := by
    rintro rfl
    have hall : ∀ code : Fin 0x20, (Char.ofNat code).toNat = code := by decide
    have hsame := hall ⟨code, hcode⟩
    dsimp only at hsame
    omega
  rw [escape, if_neg hquote, if_neg hbackslash, if_neg (hne (by decide : 0x08 < 0x20)),
    if_neg (hne (by decide : 0x0c < 0x20)), if_neg (hne (by decide : 0x0a < 0x20)),
    if_neg (hne (by decide : 0x0d < 0x20)), if_neg (hne (by decide : 0x09 < 0x20)),
    if_neg (Nat.not_lt.mpr hcontrol)]

/-- A quoted text is read back byte by byte. -/
theorem readString_raw {fuel : ℕ} {text : Text} (h : (raw (text.flatMap escape)).length < fuel)
    (rest : Text) : readString fuel (raw (text.flatMap escape) ++ '\x22' :: rest) =
      some (some (Utf8.encode text), rest) := by
  induction text generalizing fuel with
  | nil =>
      obtain ⟨fuel, rfl⟩ := Nat.exists_eq_succ_of_ne_zero (Nat.ne_zero_of_lt h)
      rfl
  | cons character text ih =>
      rw [List.flatMap_cons, raw_append, List.length_append] at h
      rw [List.flatMap_cons, raw_append, List.append_assoc]
      by_cases hplain : IsPlain character
      · rw [escape_of_isPlain hplain] at h ⊢
        obtain ⟨fuel, rfl⟩ := Nat.exists_eq_add_of_le' (Nat.le_of_lt (Nat.lt_of_add_right_lt h))
        rw [readString_plain (isPlain_raw hplain), ih (by omega), raw, ofNat_latin]
        change some (some (Utf8.encode [character] ++ Utf8.encode text), rest) = _
        rw [← Utf8.encode_append, List.singleton_append]
      · obtain ⟨more, hescape, hread⟩ := readEscape_escape hplain
          (raw (text.flatMap escape) ++ '\x22' :: rest)
        obtain ⟨fuel, rfl⟩ := Nat.exists_eq_succ_of_ne_zero (Nat.ne_zero_of_lt h)
        rw [hescape, List.length_cons] at h
        rw [hescape, List.cons_append, readString, if_neg (by decide), if_pos rfl, hread,
          Option.bind_some]
        dsimp only
        rw [ih (by omega)]
        change some (some (Utf8.encode [character] ++ Utf8.encode text), rest) = _
        rw [← Utf8.encode_append, List.singleton_append]

theorem textOf_encode (text : Text) : textOf (Utf8.encode text) = some text := by
  have hcheck := Utf8.checkFrom_encode text 0 []
  rw [List.append_nil] at hcheck
  have hvalid : Utf8.check (Utf8.encode text) = .ok () := hcheck
  rw [textOf, hvalid]
  simp only [Utf8.lossy_encode]

theorem readText_raw (text rest : Text) :
    readText (raw (text.flatMap escape) ++ '\x22' :: rest) = some (some text, rest) := by
  rw [readText, readString_raw (by rw [List.length_append]; omega), Option.map_some]
  change some ((some (Utf8.encode text)).bind textOf, rest) = _
  rw [Option.bind_some, textOf_encode]

theorem raw_quote (text : Text) :
    raw (quote text) = '\x22' :: (raw (text.flatMap escape) ++ ['\x22']) := by
  rw [quote, raw_cons (by decide), raw_append, raw_singleton (by decide)]

theorem expect_cons {character : Char} (h : isBlank character = false) (rest : Text) :
    expect character (character :: rest) = some rest := by
  simp only [expect, skipBlanks, List.dropWhile_cons, h, Bool.false_eq_true, if_false, if_true]

theorem expect_of_ne {character first : Char} (hblank : isBlank first = false)
    (hne : first ≠ character) (rest : Text) : expect character (first :: rest) = none := by
  simp only [expect, skipBlanks, List.dropWhile_cons, hblank, Bool.false_eq_true, if_false,
    if_neg hne]

theorem readName_quote (text rest : Text) :
    readName (raw (quote text) ++ rest) = some (some text, rest) := by
  rw [raw_quote, List.cons_append, List.append_assoc, readName, expect_cons (by decide),
    Option.bind_some, List.singleton_append, readText_raw]

/-- No number goes on here. -/
def Delimited (rest : Text) : Prop := ∀ first ∈ rest.head?, isNumeric first = false

theorem isNumeric_of_isDigit {character : Char} (h : isDigit character = true) :
    isNumeric character = true := by
  simp [isNumeric, h]

theorem isNumeric_of_isDigits {text : Text} (h : isDigits text = true) :
    ∀ character ∈ text, isNumeric character = true := by
  rw [isDigits, Bool.and_eq_true, List.all_eq_true] at h
  exact fun character hmem ↦ isNumeric_of_isDigit (h.2 character hmem)

/-- An exponent is written in the characters of numbers. -/
theorem isNumeric_of_isExponent {text : Text} (h : isExponent text = true) :
    ∀ character ∈ text, isNumeric character = true := by
  cases text with
  | nil => simp
  | cons letter rest =>
      rw [isExponent, Bool.and_eq_true] at h
      have hletter : isNumeric letter = true := by
        rcases (by simpa using h.1) with rfl | rfl <;> rfl
      have hrest : ∀ character ∈ rest, isNumeric character = true := by
        have hdigits := isNumeric_of_isDigits h.2
        split at hdigits
        · rename_i hsign
          cases rest with
          | nil => simp
          | cons sign digits =>
              have hnumeric : isNumeric sign = true := by
                have hsign : isSign sign = true := hsign
                simp [isNumeric, hsign]
              exact List.forall_mem_cons.mpr ⟨hnumeric, hdigits⟩
        · exact hdigits
      exact List.forall_mem_cons.mpr ⟨hletter, hrest⟩

/-- Digits and what is numeric behind them are numeric. -/
theorem isNumeric_of_digits {text : Text}
    (h : ∀ character ∈ text.dropWhile isDigit, isNumeric character = true) :
    ∀ character ∈ text, isNumeric character = true := by
  intro character hmem
  rw [← @List.takeWhile_append_dropWhile _ isDigit text, List.mem_append] at hmem
  rcases hmem with hdigit | hrest
  · exact isNumeric_of_isDigit (List.mem_takeWhile_imp hdigit)
  · exact h character hrest

theorem isNumeric_of_isFraction {text : Text} (h : isFraction text = true) :
    ∀ character ∈ text, isNumeric character = true := by
  unfold isFraction at h
  split at h
  · rw [Bool.and_eq_true] at h
    exact List.forall_mem_cons.mpr ⟨rfl, isNumeric_of_digits (isNumeric_of_isExponent h.2)⟩
  · exact isNumeric_of_isExponent h

/-- A number is not empty, and written with numeric characters only. -/
theorem isNumeric_of_isNumber {text : Text} (h : isNumber text = true) :
    text ≠ [] ∧ ∀ character ∈ text, isNumeric character = true := by
  rw [isNumber, Bool.and_eq_true, Bool.and_eq_true] at h
  obtain ⟨⟨hdigits, -⟩, hfraction⟩ := h
  have hbody := isNumeric_of_digits (isNumeric_of_isFraction hfraction)
  cases text with
  | nil => cases hdigits
  | cons first rest =>
      refine ⟨List.cons_ne_nil first rest, ?_⟩
      split at hbody
      · rename_i hsign
        cases hsign
        exact List.forall_mem_cons.mpr ⟨rfl, hbody⟩
      · exact hbody

theorem ascii_of_isNumeric {character : Char} (h : isNumeric character = true) :
    character.toNat < 0x80 := by
  simp only [isNumeric, isSign, isDigit, Bool.or_eq_true, decide_eq_true_eq] at h
  rcases h with (((⟨-, hle⟩ | (rfl | rfl)) | rfl) | rfl) | rfl
  · exact Nat.lt_of_le_of_lt (Char.le_def.mp hle) (by decide)
  all_goals decide

theorem raw_number (number : Number) : raw number.text = number.text :=
  raw_of_ascii fun character hmem ↦
    ascii_of_isNumeric ((isNumeric_of_isNumber number.wellFormed).2 character hmem)

theorem raw_object (fields : List (Text × Text)) :
    raw (object fields) = '\x7b' :: (raw (members fields) ++ ['\x7d']) := by
  rw [object, raw_cons (by decide), raw_append, @raw_singleton '\x7d' (by decide)]

theorem raw_array (items : List Value) :
    raw (write (.array items)) = '[' :: (raw (separated (writeItems items)) ++ [']']) := by
  rw [write, raw_cons (by decide), raw_append, @raw_singleton ']' (by decide)]

/-- A value starts with a byte that is not white space. -/
theorem head_raw (value : Value) : ∃ first rest, raw (write value) = first :: rest ∧
    isBlank first = false := by
  have hnumeric {character : Char} (h : isNumeric character = true) :
      isBlank character = false := by
    cases hblank : isBlank character with
    | false => rfl
    | true =>
        simp only [isBlank, Bool.or_eq_true, decide_eq_true_eq] at hblank
        rcases hblank with ((rfl | rfl) | rfl) | rfl <;> cases h
  cases value with
  | null => exact ⟨_, _, rfl, rfl⟩
  | bool value => cases value <;> exact ⟨_, _, rfl, rfl⟩
  | number value =>
      obtain ⟨hne, hall⟩ := isNumeric_of_isNumber value.wellFormed
      obtain ⟨first, rest, htext⟩ := List.exists_cons_of_ne_nil hne
      rw [htext] at hall
      exact ⟨first, rest, (raw_number value).trans htext,
        hnumeric (hall first List.mem_cons_self)⟩
  | string text => exact ⟨_, _, raw_quote text, rfl⟩
  | array items => exact ⟨_, _, raw_array items, rfl⟩
  | object fields => exact ⟨_, _, raw_object (writeFields fields), rfl⟩
  | unreadable => exact ⟨_, _, rfl, rfl⟩

/-- A number is read as far as it goes. -/
theorem readNumber_text (number : Number) {rest : Text} (h : Delimited rest) :
    readNumber (number.text ++ rest) = some (.number number, rest) := by
  obtain ⟨-, hall⟩ := isNumeric_of_isNumber number.wellFormed
  have hrest : rest.takeWhile isNumeric = [] ∧ rest.dropWhile isNumeric = rest := by
    cases rest with
    | nil => exact ⟨rfl, rfl⟩
    | cons first rest =>
        have hfirst := h first rfl
        simp [hfirst]
  have htake : (number.text ++ rest).takeWhile isNumeric = number.text := by
    rw [List.takeWhile_append_of_pos hall, hrest.1, List.append_nil]
  have hdrop : (number.text ++ rest).dropWhile isNumeric = rest := by
    rw [List.dropWhile_append_of_pos hall, hrest.2]
  have hnumber : isNumber ((number.text ++ rest).takeWhile isNumeric) = true := by
    rw [htake]
    exact number.wellFormed
  rw [readNumber, dif_pos hnumber, hdrop]
  simp only [htake]

/-! ## What is written is read back -/

theorem skipBlanks_of_head {text : Text} {first : Char} {rest : Text} (htext : text = first :: rest)
    (h : isBlank first = false) (more : Text) : skipBlanks (text ++ more) = text ++ more := by
  rw [htext, List.cons_append, skipBlanks, List.dropWhile_cons, h]
  rfl

theorem readWord_of_isNumeric {first : Char} (h : isNumeric first = true) (rest : Text) :
    readWord (first :: rest) = none := by
  have hne : first ≠ 'n' ∧ first ≠ 't' ∧ first ≠ 'f' := by
    refine ⟨?_, ?_, ?_⟩ <;> (rintro rfl; cases h)
  have hnone (word : Text) (letter : Char) (hletter : word.head? = some letter)
      (hother : first ≠ letter) : stripPrefix (first :: rest) word = none := by
    cases word with
    | nil => cases hletter
    | cons other word =>
        cases hletter
        rw [stripPrefix, List.isPrefixOf_cons_cons, beq_false_of_ne (Ne.symm hother)]
        rfl
  rw [readWord, hnone "null".toList 'n' rfl hne.1, hnone "true".toList 't' rfl hne.2.1,
    hnone "false".toList 'f' rfl hne.2.2]

/-- A number is read as none of the other kinds. -/
theorem readScalar_number (number : Number) {rest : Text} (h : Delimited rest) :
    readScalar (number.text ++ rest) = some (.number number, rest) := by
  obtain ⟨hne, hall⟩ := isNumeric_of_isNumber number.wellFormed
  obtain ⟨first, more, htext⟩ := List.exists_cons_of_ne_nil hne
  have hfirst : isNumeric first = true := by
    rw [htext] at hall
    exact hall first List.mem_cons_self
  have hquote : first ≠ '\x22' := by
    rintro rfl
    cases hfirst
  have hread := readNumber_text number h
  obtain ⟨other, others, hhead, hblank⟩ := head_raw (.number number)
  have hskip := skipBlanks_of_head ((raw_number number).symm.trans hhead) hblank rest
  rw [htext, List.cons_append] at hread hskip ⊢
  rw [readScalar, hskip]
  simp only [if_neg hquote, readWord_of_isNumeric hfirst, Option.none_or, hread]

theorem readScalar_quote (text rest : Text) :
    readScalar (raw (quote text) ++ rest) = some (.string text, rest) := by
  have hread : readScalar ('\x22' :: (raw (text.flatMap escape) ++ '\x22' :: rest)) =
      (readText (raw (text.flatMap escape) ++ '\x22' :: rest)).map
        (Prod.map (·.elim .unreadable .string) id) := rfl
  rw [raw_quote, List.cons_append, List.append_assoc, List.singleton_append, hread, readText_raw]
  rfl

/-- Where no bracket or brace opens, the depth does not matter. -/
theorem readValue_scalar {text : Text} {first : Char} {more : Text} (htext : text = first :: more)
    (hblank : isBlank first = false) (hbracket : first ≠ '[') (hbrace : first ≠ '\x7b')
    (depth : ℕ) : readValue depth text = readScalar text := by
  cases depth with
  | zero => rfl
  | succ depth =>
      have hskip := skipBlanks_of_head htext hblank []
      rw [List.append_nil] at hskip
      rw [readValue, hskip, htext]
      simp only [if_neg hbracket, if_neg hbrace]

theorem readValue_number (depth : ℕ) (number : Number) {rest : Text} (h : Delimited rest) :
    readValue depth (number.text ++ rest) = some (.number number, rest) := by
  obtain ⟨hne, hall⟩ := isNumeric_of_isNumber number.wellFormed
  obtain ⟨other, others, hraw, hblank⟩ := head_raw (.number number)
  have hhead : number.text = other :: others := (raw_number number).symm.trans hraw
  have hother (character : Char) (hcharacter : isNumeric character = false) :
      other ≠ character := by
    rintro rfl
    rw [hhead] at hall
    rw [hall other List.mem_cons_self] at hcharacter
    cases hcharacter
  have htext : number.text ++ rest = other :: (others ++ rest) := by rw [hhead, List.cons_append]
  rw [readValue_scalar htext hblank (hother '[' rfl) (hother '\x7b' rfl),
    readScalar_number number h]

theorem readValue_quote (depth : ℕ) (text rest : Text) :
    readValue depth (raw (quote text) ++ rest) = some (.string text, rest) := by
  have htext : raw (quote text) ++ rest =
      '\x22' :: (raw (text.flatMap escape) ++ ['\x22'] ++ rest) := by
    rw [raw_quote, List.cons_append]
  rw [readValue_scalar htext rfl (by decide) (by decide), readScalar_quote]

/-- A word is read as the value it is. -/
theorem readValue_word (depth : ℕ) (value : Bool) (rest : Text) :
    readValue depth (raw (write (.bool value)) ++ rest) = some (.bool value, rest) := by
  have hword : raw (write (.bool value)) = write (.bool value) := by
    cases value <;> rfl
  rw [hword]
  cases depth <;> (cases value <;> rfl)

theorem delimited_comma (rest : Text) : Delimited (',' :: rest) := by
  rintro first ⟨⟩
  rfl

theorem delimited_bracket (rest : Text) : Delimited (']' :: rest) := by
  rintro first ⟨⟩
  rfl

theorem delimited_brace (rest : Text) : Delimited ('\x7d' :: rest) := by
  rintro first ⟨⟩
  rfl

section

variable {item : Text → Option (Value × Text)} {fuel : ℕ} {name text rest : Text} {value : Value}

/-- Behind an item stands the comma before the next one, or the bracket. -/
theorem readItems_more (h : item text = some (value, ',' :: rest)) :
    readItems item (fuel + 1) text =
      (readItems item fuel rest).map (Prod.map (value :: ·) id) := by
  rw [readItems, h, Option.bind_some]
  simp only [expect_cons (show isBlank ',' = false from rfl)]

theorem readItems_last (h : item text = some (value, ']' :: rest)) :
    readItems item (fuel + 1) text = some ([value], rest) := by
  rw [readItems, h, Option.bind_some]
  simp only [expect_of_ne (show isBlank ']' = false from rfl) (show ']' ≠ ',' by decide),
    expect_cons (show isBlank ']' = false from rfl), Option.map_some]

theorem readFields_more (h : item text = some (value, ',' :: rest)) :
    readFields item (fuel + 1) (raw (quote name) ++ ':' :: text) =
      (readFields item fuel rest).map
        (Prod.map (Option.map₂ List.cons (some (name, value))) id) := by
  rw [readFields, readName_quote, Option.bind_some, expect_cons (show isBlank ':' = false from rfl),
    Option.bind_some, h, Option.bind_some]
  simp only [expect_cons (show isBlank ',' = false from rfl), Option.map_some]

theorem readFields_last (h : item text = some (value, '\x7d' :: rest)) :
    readFields item (fuel + 1) (raw (quote name) ++ ':' :: text) =
      some (some [(name, value)], rest) := by
  rw [readFields, readName_quote, Option.bind_some, expect_cons (show isBlank ':' = false from rfl),
    Option.bind_some, h, Option.bind_some]
  simp only [expect_of_ne (show isBlank '\x7d' = false from rfl) (show '\x7d' ≠ ',' by decide),
    expect_cons (show isBlank '\x7d' = false from rfl), Option.map_some]

/-- An array that is not empty is read by its items. -/
theorem readArray_eq {first : Char} {more : Text} (htext : text = first :: more)
    (hblank : isBlank first = false) (hne : first ≠ ']') :
    readArray item text = (readItems item (text.length + 1) text).map (Prod.map .array id) := by
  rw [readArray, htext, expect_of_ne hblank hne]

/-- So is an object by its members. -/
theorem readObject_eq {first : Char} {more : Text} (htext : text = first :: more)
    (hblank : isBlank first = false) (hne : first ≠ '\x7d') :
    readObject item text = (readFields item (text.length + 1) text).map
      (Prod.map (·.elim .unreadable .object) id) := by
  rw [readObject, htext, expect_of_ne hblank hne]

end

/-- The items of an array start with no bracket that closes it. -/
theorem head_items (item : Value) (items : List Value) : ∃ first more,
    raw (separated (writeItems (item :: items))) = first :: more ∧ isBlank first = false ∧
      first ≠ ']' := by
  obtain ⟨first, more, hwrite, hblank⟩ := head_raw item
  have hne : first ≠ ']' := by
    cases item with
    | bool value => cases value <;> (rintro rfl; cases hwrite)
    | number value =>
        rintro rfl
        obtain ⟨-, hall⟩ := isNumeric_of_isNumber value.wellFormed
        have hhead := (raw_number value).symm.trans hwrite
        exact absurd (hall ']' (by rw [hhead]; exact List.mem_cons_self)) (by decide)
    | string text =>
        rintro rfl
        cases (raw_quote text).symm.trans hwrite
    | array items =>
        rintro rfl
        cases (raw_array items).symm.trans hwrite
    | object fields =>
        rintro rfl
        cases (raw_object (writeFields fields)).symm.trans hwrite
    | null | unreadable => rintro rfl; cases hwrite
  cases items with
  | nil => exact ⟨first, more, hwrite, hblank, hne⟩
  | cons next items =>
      refine ⟨first, more ++ ',' :: raw (separated (writeItems (next :: items))), ?_, hblank, hne⟩
      rw [writeItems, writeItems, separated, raw_append, hwrite, raw_cons (by decide),
        List.cons_append]
      exact List.cons_ne_nil _ _

theorem head_members (name : Text) (value : Value) (fields : List (Text × Value)) : ∃ more,
    raw (members (writeFields ((name, value) :: fields))) = '\x22' :: more := by
  cases fields with
  | nil => exact ⟨_, raw_cons (by decide) _⟩
  | cons next fields => exact ⟨_, raw_cons (by decide) _⟩

mutual

/-- A value is nested no deeper than it is long. -/
theorem nesting_le_write : ∀ value : Value, nesting value ≤ (write value).length
  | .array items => by
      have hitems := nestingItems_le items
      simp only [nesting, write, List.length_cons, List.length_append]
      omega
  | .object fields => by
      have hfields := nestingFields_le fields
      simp only [nesting, write, object, List.length_cons, List.length_append]
      omega
  | .null | .bool _ | .number _ | .string _ | .unreadable => Nat.zero_le _

theorem nestingItems_le : ∀ items : List Value,
    nestingItems items ≤ (separated (writeItems items)).length
  | [] => Nat.zero_le _
  | [item] => by
      have hitem := nesting_le_write item
      simp only [nestingItems, writeItems, separated]
      omega
  | item :: next :: rest => by
      have hitem := nesting_le_write item
      have hrest := nestingItems_le (next :: rest)
      simp only [writeItems] at hrest
      simp only [nestingItems, writeItems, separated, List.length_append,
        List.length_cons] at hrest ⊢
      omega

theorem nestingFields_le : ∀ fields : List (Text × Value),
    nestingFields fields ≤ (members (writeFields fields)).length
  | [] => Nat.zero_le _
  | [(name, value)] => by
      have hvalue := nesting_le_write value
      simp only [nestingFields, writeFields, members, List.length_append, List.length_cons]
      omega
  | (name, value) :: next :: rest => by
      have hvalue := nesting_le_write value
      have hrest := nestingFields_le (next :: rest)
      simp only [writeFields] at hrest
      simp only [nestingFields, writeFields, members, List.length_append,
        List.length_cons] at hrest ⊢
      omega

end

theorem nesting_le_of_mem_items {items : List Value} {depth : ℕ} (h : nestingItems items ≤ depth)
    {value : Value} (hmem : value ∈ items) : nesting value ≤ depth := by
  induction items with
  | nil => cases hmem
  | cons item items ih =>
      obtain ⟨hitem, hitems⟩ := Nat.max_le.mp h
      rcases List.mem_cons.mp hmem with rfl | hrest
      · exact hitem
      · exact ih hitems hrest

theorem nesting_le_of_mem_fields {fields : List (Text × Value)} {depth : ℕ}
    (h : nestingFields fields ≤ depth) {field : Text × Value} (hmem : field ∈ fields) :
    nesting field.2 ≤ depth := by
  induction fields with
  | nil => cases hmem
  | cons other fields ih =>
      obtain ⟨hother, hfields⟩ := Nat.max_le.mp h
      rcases List.mem_cons.mp hmem with rfl | hrest
      · exact hother
      · exact ih hfields hrest

/-- The reader gives a value back from what it is written as, whatever follows that no number goes
on in. -/
def ReadsBack (item : Text → Option (Value × Text)) (value : Value) : Prop :=
  ∀ rest, Delimited rest → item (raw (write value) ++ rest) = some (value, rest)

/-- The items of an array are read back in order. -/
theorem readItems_write {item : Text → Option (Value × Text)} {first : Value} {items : List Value}
    (h : ∀ value ∈ first :: items, ReadsBack item value) {fuel : ℕ} (rest : Text)
    (hfuel : (raw (separated (writeItems (first :: items)))).length < fuel) :
    readItems item fuel (raw (separated (writeItems (first :: items))) ++ ']' :: rest) =
      some (first :: items, rest) := by
  induction items generalizing first fuel with
  | nil =>
      obtain ⟨fuel, rfl⟩ := Nat.exists_eq_succ_of_ne_zero (Nat.ne_zero_of_lt hfuel)
      exact readItems_last (h first List.mem_cons_self _ (delimited_bracket rest))
  | cons next items ih =>
      obtain ⟨fuel, rfl⟩ := Nat.exists_eq_succ_of_ne_zero (Nat.ne_zero_of_lt hfuel)
      have hsplit : raw (separated (writeItems (first :: next :: items))) =
          raw (write first) ++ ',' :: raw (separated (writeItems (next :: items))) := by
        simp only [writeItems, separated, raw_append,
          raw_cons (show (',' : Char).toNat < 0x80 by decide)]
      rw [hsplit, List.length_append, List.length_cons] at hfuel
      have hread := h first List.mem_cons_self _
        (delimited_comma (raw (separated (writeItems (next :: items))) ++ ']' :: rest))
      have hitems := @ih next (fun value hvalue ↦ h value (List.mem_cons_of_mem first hvalue)) fuel
        (by omega)
      rw [hsplit, List.append_assoc, List.cons_append, readItems_more hread, hitems]
      rfl

/-- The members of an object are read back in order. -/
theorem readFields_write {item : Text → Option (Value × Text)} {first : Text × Value}
    {fields : List (Text × Value)} (h : ∀ field ∈ first :: fields, ReadsBack item field.2)
    {fuel : ℕ} (rest : Text)
    (hfuel : (raw (members (writeFields (first :: fields)))).length < fuel) :
    readFields item fuel (raw (members (writeFields (first :: fields))) ++ '\x7d' :: rest) =
      some (some (first :: fields), rest) := by
  have hcolon := raw_cons (show (':' : Char).toNat < 0x80 by decide)
  induction fields generalizing first fuel with
  | nil =>
      obtain ⟨fuel, rfl⟩ := Nat.exists_eq_succ_of_ne_zero (Nat.ne_zero_of_lt hfuel)
      have hsplit : raw (members (writeFields [first])) =
          raw (quote first.1) ++ ':' :: raw (write first.2) := by
        simp only [writeFields, members, raw_append, hcolon]
      rw [hsplit, List.append_assoc, List.cons_append]
      exact readFields_last (h first List.mem_cons_self _ (delimited_brace rest))
  | cons next fields ih =>
      obtain ⟨fuel, rfl⟩ := Nat.exists_eq_succ_of_ne_zero (Nat.ne_zero_of_lt hfuel)
      have hsplit : raw (members (writeFields (first :: next :: fields))) =
          raw (quote first.1) ++ ':' ::
            (raw (write first.2) ++ ',' :: raw (members (writeFields (next :: fields)))) := by
        simp only [writeFields, members, List.append_assoc, List.cons_append, raw_append, hcolon,
          raw_cons (show (',' : Char).toNat < 0x80 by decide)]
      rw [hsplit, List.length_append, List.length_cons, List.length_append, List.length_cons]
        at hfuel
      have hread := h first List.mem_cons_self _
        (delimited_comma (raw (members (writeFields (next :: fields))) ++ '\x7d' :: rest))
      have hfields := @ih next (fun field hfield ↦ h field (List.mem_cons_of_mem first hfield)) fuel
        (by omega)
      rw [hsplit, List.append_assoc, List.cons_append, List.append_assoc, List.cons_append,
        readFields_more hread, hfields]
      rfl

/-- A value is read back down to the depth it is nested to. -/
theorem readsBack_of_nesting {value : Value} {depth : ℕ} (h : nesting value ≤ depth) :
    ReadsBack (readValue depth) value := by
  induction depth generalizing value with
  | zero =>
      intro rest hrest
      cases value with
      | null => rfl
      | bool value => exact readValue_word _ value rest
      | number number =>
          rw [write, raw_number]
          exact readValue_number 0 number hrest
      | string text => exact readValue_quote 0 text rest
      | array items => cases h
      | object fields => cases h
      | unreadable => rfl
  | succ depth ih =>
      intro rest hrest
      cases value with
      | null => rfl
      | bool value => exact readValue_word _ value rest
      | number number =>
          rw [write, raw_number]
          exact readValue_number _ number hrest
      | string text => exact readValue_quote _ text rest
      | unreadable => rfl
      | array items =>
          cases items with
          | nil => rfl
          | cons first items =>
              obtain ⟨character, more, hhead, hblank, hne⟩ := head_items first items
              have htext : raw (separated (writeItems (first :: items))) ++ ']' :: rest =
                  character :: (more ++ ']' :: rest) := by rw [hhead, List.cons_append]
              have hopen : readValue (depth + 1) (raw (write (.array (first :: items))) ++ rest) =
                  readArray (readValue depth)
                    (raw (separated (writeItems (first :: items))) ++ ']' :: rest) := by
                rw [raw_array, List.cons_append, List.append_assoc, List.singleton_append]
                rfl
              have hitems : ∀ value ∈ first :: items, ReadsBack (readValue depth) value :=
                fun value hmem ↦ ih (nesting_le_of_mem_items (Nat.le_of_succ_le_succ h) hmem)
              rw [hopen, readArray_eq htext hblank hne, readItems_write hitems rest
                (by rw [List.length_append]; omega)]
              rfl
      | object fields =>
          cases fields with
          | nil => rfl
          | cons first fields =>
              obtain ⟨more, hhead⟩ := head_members first.1 first.2 fields
              have htext : raw (members (writeFields (first :: fields))) ++ '\x7d' :: rest =
                  '\x22' :: (more ++ '\x7d' :: rest) := by rw [hhead, List.cons_append]
              have hopen : readValue (depth + 1) (raw (write (.object (first :: fields))) ++ rest) =
                  readObject (readValue depth)
                    (raw (members (writeFields (first :: fields))) ++ '\x7d' :: rest) := by
                rw [write, raw_object, List.cons_append, List.append_assoc, List.singleton_append]
                rfl
              have hfields : ∀ field ∈ first :: fields, ReadsBack (readValue depth) field.2 :=
                fun field hmem ↦ ih (nesting_le_of_mem_fields (Nat.le_of_succ_le_succ h) hmem)
              rw [hopen, readObject_eq htext rfl (by decide), readFields_write hfields rest
                (by rw [List.length_append]; omega)]
              rfl

/-- **What is written is read back**, whatever the value. -/
theorem readBytes_write (value : Value) : readBytes (Utf8.encode (write value)) = some value := by
  have hdeep : nesting value ≤ (raw (write value)).length := by
    rw [raw, latin, List.length_map, Utf8.length_encode]
    exact Nat.le_trans (nesting_le_write value) (Utf8.length_le_size _)
  have hread := readsBack_of_nesting hdeep [] (by rintro first ⟨⟩)
  rw [List.append_nil] at hread
  change read (raw (write value)) = some value
  rw [read, hread]
  rfl

end RalphexRunner.Json
