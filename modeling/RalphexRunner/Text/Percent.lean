import RalphexRunner.Text.Encoding

/-!
# Percent-encoding

Bytes written as a text in which a byte that may not stand for itself is a percent sign and two
hexadecimal digits.  Whatever bytes stand for themselves, as long as each is a character of its own
and none is the percent sign, reading the text gives the bytes back.
-/

namespace RalphexRunner.Percent

/-- A hexadecimal digit, upper case as it is written. -/
def hexDigit (value : ℕ) : Char := Char.ofNat (if value < 10 then 0x30 + value else 0x37 + value)

/-- The value of a hexadecimal digit of either case. -/
def hexValue (digit : Char) : Option ℕ :=
  let code := digit.toNat
  if 0x30 ≤ code ∧ code ≤ 0x39 then some (code - 0x30)
  else if 0x41 ≤ code ∧ code ≤ 0x46 then some (code - 0x37)
  else if 0x61 ≤ code ∧ code ≤ 0x66 then some (code - 0x57)
  else none

/-- The byte two digits spell. -/
def octet (high low : Char) : Option UInt8 :=
  (hexValue high).bind fun upper ↦ (hexValue low).map fun lower ↦ UInt8.ofNat (upper * 16 + lower)

def escape (byte : UInt8) : Text :=
  ['%', hexDigit (byte.toNat / 16), hexDigit (byte.toNat % 16)]

/-- Bytes as a text, each as a character of its own where `keeps` allows it. -/
def encode (keeps : UInt8 → Bool) (bytes : List UInt8) : Text :=
  bytes.flatMap fun byte ↦ if keeps byte then [Char.ofNat byte.toNat] else escape byte

/-- The bytes of a text, each escape in it the byte it stands for; a percent sign no two digits
follow stands for itself. -/
def decode : Text → List UInt8
  | [] => []
  | '%' :: high :: low :: rest =>
      match octet high low with
      | some byte => byte :: decode rest
      | none => Utf8.encode ['%'] ++ decode (high :: low :: rest)
  | character :: rest => Utf8.encode [character] ++ decode rest

/-- What the bytes that stand for themselves must be. -/
def Faithful (keeps : UInt8 → Bool) : Prop :=
  ∀ byte, keeps byte = true → byte.toNat < 0x80 ∧ byte.toNat ≠ 0x25

theorem hexValue_hexDigit {value : ℕ} (h : value < 16) :
    hexValue (hexDigit value) = some value := by
  have hall : ∀ digit : Fin 16, hexValue (hexDigit digit) = some digit.val := by decide
  exact hall ⟨value, h⟩

theorem octet_hexDigit (byte : UInt8) :
    octet (hexDigit (byte.toNat / 16)) (hexDigit (byte.toNat % 16)) = some byte := by
  have hbyte : byte.toNat < 256 := byte.toNat_lt
  rw [octet, hexValue_hexDigit (by omega), hexValue_hexDigit (by omega), Option.bind_some,
    Option.map_some, show byte.toNat / 16 * 16 + byte.toNat % 16 = byte.toNat by omega,
    UInt8.ofNat_toNat]

theorem decode_escape (byte : UInt8) (rest : Text) :
    decode (escape byte ++ rest) = byte :: decode rest := by
  change decode ('%' :: hexDigit _ :: hexDigit _ :: rest) = _
  rw [decode, octet_hexDigit]

theorem decode_cons {character : Char} (h : character ≠ '%') (rest : Text) :
    decode (character :: rest) = Utf8.encode [character] ++ decode rest := by
  rw [decode]
  intro high low more heq
  exact absurd heq h

/-- An ASCII byte is the whole of its character. -/
theorem encode_ascii {byte : UInt8} (h : byte.toNat < 0x80) :
    Utf8.encode [Char.ofNat byte.toNat] = [byte] := by
  have hall : ∀ code : Fin 0x80, Utf8.encode [Char.ofNat code] = [UInt8.ofNat code] := by decide
  refine (hall ⟨byte.toNat, h⟩).trans ?_
  rw [UInt8.ofNat_toNat]

theorem ofNat_ne_percent {byte : UInt8} (h : byte.toNat < 0x80) (hother : byte.toNat ≠ 0x25) :
    Char.ofNat byte.toNat ≠ '%' := by
  have hall : ∀ code : Fin 0x80, code.val ≠ 0x25 → Char.ofNat code ≠ '%' := by decide
  exact hall ⟨byte.toNat, h⟩ hother

theorem encode_cons (keeps : UInt8 → Bool) (byte : UInt8) (bytes : List UInt8) :
    encode keeps (byte :: bytes) =
      (if keeps byte then [Char.ofNat byte.toNat] else escape byte) ++ encode keeps bytes :=
  List.flatMap_cons

/-- Reading undoes writing. -/
theorem decode_encode {keeps : UInt8 → Bool} (h : Faithful keeps) (bytes : List UInt8) :
    decode (encode keeps bytes) = bytes := by
  induction bytes with
  | nil => rfl
  | cons byte bytes ih =>
      rw [encode_cons]
      split
      · rename_i hkept
        obtain ⟨hascii, hother⟩ := h byte hkept
        rw [List.singleton_append, decode_cons (ofNat_ne_percent hascii hother),
          encode_ascii hascii, ih, List.singleton_append]
      · rw [decode_escape, ih]

/-- The characters a text is written with: those of the escapes and those of the bytes that stand
for themselves. -/
theorem mem_encode {keeps : UInt8 → Bool} {bytes : List UInt8} {character : Char}
    (h : character ∈ encode keeps bytes) :
    character = '%' ∨ (∃ value < 16, character = hexDigit value) ∨
      ∃ byte, keeps byte = true ∧ character = Char.ofNat byte.toNat := by
  obtain ⟨byte, -, hmem⟩ := List.mem_flatMap.mp h
  have hbyte : byte.toNat < 256 := byte.toNat_lt
  split at hmem
  · rename_i hkept
    exact .inr (.inr ⟨byte, hkept, List.mem_singleton.mp hmem⟩)
  · simp only [escape, List.mem_cons, List.not_mem_nil, or_false] at hmem
    rcases hmem with rfl | rfl | rfl
    · exact .inl rfl
    · exact .inr (.inl ⟨byte.toNat / 16, by omega, rfl⟩)
    · exact .inr (.inl ⟨byte.toNat % 16, by omega, rfl⟩)

example : encode (· == 0x61) [0x61, 0x2F, 0xC3] = "a%2F%C3".toList := by decide

end RalphexRunner.Percent
