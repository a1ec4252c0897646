import RalphexRunner.Text.Utf8

/-!
# White space, lines and affixes of a text

The operations of the string library the daemon relies on: white space as Unicode classifies it,
trimming, the lines of a text, and texts enclosed between two affixes.
-/

namespace RalphexRunner

/-- The characters with the Unicode property White_Space. -/
def isWhitespace (character : Char) : Bool :=
  let code := character.toNat
  (0x09 ≤ code ∧ code ≤ 0x0D) ∨ code = 0x20 ∨ code = 0x85 ∨ code = 0xA0 ∨ code = 0x1680 ∨
    (0x2000 ≤ code ∧ code ≤ 0x200A) ∨ code = 0x2028 ∨ code = 0x2029 ∨ code = 0x202F ∨
    code = 0x205F ∨ code = 0x3000

def trimStart (text : Text) : Text := text.dropWhile isWhitespace

def trimEnd (text : Text) : Text := (text.reverse.dropWhile isWhitespace).reverse

def trim (text : Text) : Text := trimEnd (trimStart text)

/-- A text without a prefix, where it has it. -/
def stripPrefix (text opening : Text) : Option Text :=
  if opening.isPrefixOf text then some (text.drop opening.length) else none

/-- A text without a suffix, where it has it. -/
def stripSuffix (text closing : Text) : Option Text :=
  if closing.isSuffixOf text then some (text.take (text.length - closing.length)) else none

/-- What stands between a prefix and a suffix that do not overlap. -/
def enclosed (opening closing text : Text) : Option Text :=
  (stripPrefix text opening).bind fun rest ↦ stripSuffix rest closing

/-- A line without the carriage return that ends it. -/
def dropCarriageReturn (line : Text) : Text :=
  if line.getLast? = some '\r' then line.dropLast else line

/-- The lines of a text from a line under way: split at newlines, a carriage return before the
newline removed, and nothing after a final newline. -/
def linesFrom (line : Text) : Text → List Text
  | [] => if line.isEmpty then [] else [line]
  | character :: rest =>
      if character = '\n' then dropCarriageReturn line :: linesFrom [] rest
      else linesFrom (line ++ [character]) rest

def lines (text : Text) : List Text := linesFrom [] text

def isDigit (character : Char) : Bool := '0' ≤ character ∧ character ≤ '9'

/-- A number as it is printed. -/
def numeral (number : ℕ) : Text := (toString number).toList

theorem numeral_eq (number : ℕ) : numeral number = Nat.toDigits 10 number := by
  rw [numeral, Nat.toString_eq_repr, Nat.toList_repr]

example : lines "a\r\n\nb".toList = ["a".toList, [], "b".toList] := by decide

end RalphexRunner
