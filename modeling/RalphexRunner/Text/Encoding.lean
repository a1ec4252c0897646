import RalphexRunner.Text.Utf8

/-!
# Decoding undoes encoding

The bytes a character is written in take the automaton from between characters through sequences
under way to that character, and no front of them gets there earlier.  So a text is decoded back
from its bytes, and bytes cut off a text at any length are characters of it and at most one
sequence that could still be completed.
-/

namespace RalphexRunner.Utf8

/-- The bytes spell a character from a state on: every byte but the last leaves a sequence under
way. -/
inductive Spells : Option Partial → List UInt8 → Char → Prop
  | ascii {byte : UInt8} {character : Char} (h : lead byte = some (.scalar character)) :
      Spells none [byte] character
  | starts {byte : UInt8} {pending : Partial} {rest : List UInt8} {character : Char}
      (h : lead byte = some (.more pending)) (hrest : Spells (some pending) rest character) :
      Spells none (byte :: rest) character
  | ends {byte : UInt8} {pending : Partial} {character : Char}
      (h : pending.feed byte = some (.scalar character)) :
      Spells (some pending) [byte] character
  | continues {byte : UInt8} {pending longer : Partial} {rest : List UInt8} {character : Char}
      (h : pending.feed byte = some (.more longer))
      (hrest : Spells (some longer) rest character) :
      Spells (some pending) (byte :: rest) character

section Spells

variable {state : Option Partial} {bytes : List UInt8} {character : Char}

/-- The bytes of a character are checked as one. -/
theorem Spells.checkFrom (h : Spells state bytes character) (valid : ℕ) (rest : List UInt8) :
    checkFrom state valid (bytes ++ rest) =
      checkFrom none (valid + seenOf state + bytes.length) rest := by
  induction h with
  | ascii h =>
      rw [List.singleton_append, Utf8.checkFrom, h]
      rfl
  | starts h hrest ih =>
      rw [List.cons_append, Utf8.checkFrom, h]
      refine ih.trans ?_
      rw [seenOf, seenOf, seen_of_lead h, List.length_cons]
      congr 1
      omega
  | ends h =>
      rw [List.singleton_append, Utf8.checkFrom, h]
      rfl
  | continues h hrest ih =>
      rw [List.cons_append, Utf8.checkFrom, h]
      refine ih.trans ?_
      rw [seenOf, seenOf, Partial.seen_of_feed h, List.length_cons]
      congr 1
      omega

theorem Spells.lossyFrom (h : Spells state bytes character) (rest : List UInt8) :
    lossyFrom state (bytes ++ rest) = character :: lossyFrom none rest := by
  induction h with
  | ascii h => rw [List.singleton_append, Utf8.lossyFrom, h]
  | starts h hrest ih => rw [List.cons_append, Utf8.lossyFrom, h]; exact ih
  | ends h => rw [List.singleton_append, Utf8.lossyFrom, h]
  | continues h hrest ih => rw [List.cons_append, Utf8.lossyFrom, h]; exact ih

/-- A front of the bytes inside a sequence could still be completed. -/
theorem Spells.truncated {pending : Partial} (h : Spells (some pending) bytes character)
    {front : List UInt8} (hfront : front <+: bytes) (hproper : front ≠ bytes) (valid : ℕ) :
    Utf8.checkFrom (some pending) valid front = .error ⟨valid, none⟩ := by
  induction front generalizing pending bytes with
  | nil => rfl
  | cons byte front ih =>
      cases h with
      | ends hfeed =>
          obtain ⟨hsame, hnone⟩ := List.cons_prefix_cons.mp hfront
          rw [hsame, List.prefix_nil.mp hnone] at hproper
          exact absurd rfl hproper
      | continues hfeed hrest =>
          obtain ⟨rfl, hbehind⟩ := List.cons_prefix_cons.mp hfront
          rw [Utf8.checkFrom, hfeed]
          exact ih hrest hbehind fun heq ↦ hproper (congrArg _ heq)

/-- A front of a character is empty or could still be completed. -/
theorem Spells.check_front (h : Spells none bytes character) {front : List UInt8}
    (hfront : front <+: bytes) (hproper : front ≠ bytes) (valid : ℕ) :
    (front = [] ∧ Utf8.checkFrom none valid front = .ok ()) ∨
      Utf8.checkFrom none valid front = .error ⟨valid, none⟩ := by
  cases front with
  | nil => exact .inl ⟨rfl, rfl⟩
  | cons byte front =>
      cases h with
      | ascii hlead =>
          obtain ⟨hsame, hnone⟩ := List.cons_prefix_cons.mp hfront
          rw [hsame, List.prefix_nil.mp hnone] at hproper
          exact absurd rfl hproper
      | starts hlead hrest =>
          obtain ⟨rfl, hbehind⟩ := List.cons_prefix_cons.mp hfront
          rw [Utf8.checkFrom, hlead]
          exact .inr (hrest.truncated hbehind (fun heq ↦ hproper (congrArg _ heq)) valid)

end Spells

theorem toNat_ofNat_of_lt {code : ℕ} (h : code < 256) : (UInt8.ofNat code).toNat = code := by
  rw [UInt8.toNat_ofNat']
  exact Nat.mod_eq_of_lt h

/-- A byte in the range a sequence asks for is read. -/
theorem Partial.feed_eq (pending : Partial) {byte : ℕ} (hbyte : byte < 256)
    (hlow : pending.low ≤ byte) (hhigh : byte ≤ pending.high) :
    pending.feed (UInt8.ofNat byte) =
      if h : pending.owed = 1 then
        some (.scalar (Char.ofNat (pending.code * 64 + (byte - 0x80))))
      else some (.more ⟨pending.code * 64 + (byte - 0x80), pending.seen + 1, pending.owed - 1,
        0x80, 0xBF, by have := pending.bounded; omega⟩) := by
  unfold feed
  rw [toNat_ofNat_of_lt hbyte, if_pos ⟨hlow, hhigh⟩]

theorem Partial.feed_last (pending : Partial) {byte : ℕ} (hbyte : byte < 256)
    (hlow : pending.low ≤ byte) (hhigh : byte ≤ pending.high) (howed : pending.owed = 1) :
    pending.feed (UInt8.ofNat byte) =
      some (.scalar (Char.ofNat (pending.code * 64 + (byte - 0x80)))) := by
  rw [pending.feed_eq hbyte hlow hhigh, dif_pos howed]

/-- What is left of a sequence once a byte in its range has been read. -/
theorem Partial.feed_more (pending : Partial) {byte : ℕ} (hbyte : byte < 256)
    (hlow : pending.low ≤ byte) (hhigh : byte ≤ pending.high) (howed : pending.owed ≠ 1) :
    ∃ longer : Partial, pending.feed (UInt8.ofNat byte) = some (.more longer) ∧
      longer.code = pending.code * 64 + (byte - 0x80) ∧ longer.owed = pending.owed - 1 ∧
        longer.low = 0x80 ∧ longer.high = 0xBF := by
  rw [pending.feed_eq hbyte hlow hhigh, dif_neg howed]
  exact ⟨_, rfl, rfl, rfl, rfl, rfl⟩

theorem lead_ascii {code : ℕ} (h : code ≤ 0x7F) :
    lead (UInt8.ofNat code) = some (.scalar (Char.ofNat code)) := by
  have hbyte : (UInt8.ofNat code).toNat = code := toNat_ofNat_of_lt (by omega)
  unfold lead
  rw [hbyte, if_pos h]

theorem lead_two (code : ℕ) (h : 2 ≤ code ∧ code < 32) :
    ∃ pending : Partial, lead (UInt8.ofNat (code + 0xC0)) = some (.more pending) ∧
      pending.code = code ∧ pending.owed = 1 ∧ pending.low = 0x80 ∧ pending.high = 0xBF := by
  have hbyte : (UInt8.ofNat (code + 0xC0)).toNat = code + 0xC0 := toNat_ofNat_of_lt (by omega)
  unfold lead
  rw [hbyte, if_neg (by omega), if_pos (by omega)]
  exact ⟨_, rfl, Nat.add_sub_cancel .., rfl, rfl, rfl⟩

/-- The first byte of three, with the range it leaves to the second. -/
theorem lead_three (code : ℕ) (h : code < 16) :
    ∃ pending : Partial, lead (UInt8.ofNat (code + 0xE0)) = some (.more pending) ∧
      pending.code = code ∧ pending.owed = 2 ∧
        pending.low = (if code = 0 then 0xA0 else 0x80) ∧
        pending.high = if code = 0xD then 0x9F else 0xBF := by
  have hbyte : (UInt8.ofNat (code + 0xE0)).toNat = code + 0xE0 := toNat_ofNat_of_lt (by omega)
  unfold lead
  rw [hbyte, if_neg (by omega), if_neg (by omega)]
  split
  · rename_i hzero
    obtain rfl : code = 0 := by omega
    exact ⟨_, rfl, rfl, rfl, rfl, rfl⟩
  · rename_i hzero
    split
    · rename_i hsurrogate
      obtain rfl : code = 0xD := by omega
      exact ⟨_, rfl, rfl, rfl, rfl, rfl⟩
    · rename_i hsurrogate
      rw [if_pos (by omega)]
      refine ⟨_, rfl, Nat.add_sub_cancel .., rfl, ?_, ?_⟩
      · rw [if_neg (by omega)]
      · rw [if_neg (by omega)]

/-- The first byte of four, with the range it leaves to the second. -/
theorem lead_four (code : ℕ) (h : code ≤ 4) :
    ∃ pending : Partial, lead (UInt8.ofNat (code + 0xF0)) = some (.more pending) ∧
      pending.code = code ∧ pending.owed = 3 ∧
        pending.low = (if code = 0 then 0x90 else 0x80) ∧
        pending.high = if code = 4 then 0x8F else 0xBF := by
  have hbyte : (UInt8.ofNat (code + 0xF0)).toNat = code + 0xF0 := toNat_ofNat_of_lt (by omega)
  unfold lead
  rw [hbyte, if_neg (by omega), if_neg (by omega), if_neg (by omega), if_neg (by omega),
    if_neg (by omega)]
  split
  · rename_i hzero
    obtain rfl : code = 0 := by omega
    exact ⟨_, rfl, rfl, rfl, rfl, rfl⟩
  · split
    · rename_i hzero hmiddle
      refine ⟨_, rfl, Nat.add_sub_cancel .., rfl, ?_, ?_⟩
      · rw [if_neg (by omega)]
      · rw [if_neg (by omega)]
    · rename_i hzero hmiddle
      obtain rfl : code = 4 := by omega
      exact ⟨_, rfl, rfl, rfl, rfl, rfl⟩

/-- Every character is spelled by its encoding. -/
theorem spells_encodeChar (character : Char) :
    Spells none (String.utf8EncodeChar character) character := by
  have hcode : Char.ofNat character.val.toNat = character := Char.ofNat_toNat character
  have hvalid : character.val.toNat < 0xD800 ∨
      0xDFFF < character.val.toNat ∧ character.val.toNat < 0x110000 := character.valid
  unfold String.utf8EncodeChar
  simp only
  generalize character.val.toNat = code at hcode hvalid ⊢
  split
  · rename_i hascii
    rw [← hcode]
    exact .ascii (lead_ascii hascii)
  · split
    · rename_i hascii htwo
      obtain ⟨first, hlead, hfirst, howed, hlow, hhigh⟩ :=
        lead_two (code / 64 % 0x20) (by omega)
      have hlast := first.feed_last (show code % 0x40 + 0x80 < 256 by omega) (by omega) (by omega)
        howed
      have hwhole : first.code * 64 + (code % 0x40 + 0x80 - 0x80) = code := by omega
      rw [hwhole, hcode] at hlast
      exact .starts hlead (.ends hlast)
    · split
      · rename_i hascii htwo hthree
        obtain ⟨first, hlead, hfirst, howed, hlow, hhigh⟩ :=
          lead_three (code / 4096 % 0x10) (by omega)
        have hsecondLow : first.low ≤ code / 64 % 0x40 + 0x80 := by
          rw [hlow]
          split <;> omega
        have hsecondHigh : code / 64 % 0x40 + 0x80 ≤ first.high := by
          rw [hhigh]
          split <;> omega
        obtain ⟨second, hsecond, hcodes, howes, hlower, hupper⟩ :=
          first.feed_more (by omega) hsecondLow hsecondHigh (by omega)
        have hlast := second.feed_last (show code % 0x40 + 0x80 < 256 by omega) (by omega)
          (by omega) (by omega)
        have hwhole : second.code * 64 + (code % 0x40 + 0x80 - 0x80) = code := by omega
        rw [hwhole, hcode] at hlast
        exact .starts hlead (.continues hsecond (.ends hlast))
      · rename_i hascii htwo hthree
        obtain ⟨first, hlead, hfirst, howed, hlow, hhigh⟩ :=
          lead_four (code / 262144 % 0x08) (by omega)
        have hsecondLow : first.low ≤ code / 4096 % 0x40 + 0x80 := by
          rw [hlow]
          split <;> omega
        have hsecondHigh : code / 4096 % 0x40 + 0x80 ≤ first.high := by
          rw [hhigh]
          split <;> omega
        obtain ⟨second, hsecond, hcodes, howes, hlower, hupper⟩ :=
          first.feed_more (by omega) hsecondLow hsecondHigh (by omega)
        obtain ⟨third, hthird, hcodes', howes', hlower', hupper'⟩ :=
          second.feed_more (show code / 64 % 0x40 + 0x80 < 256 by omega) (by omega) (by omega)
            (by omega)
        have hlast := third.feed_last (show code % 0x40 + 0x80 < 256 by omega) (by omega)
          (by omega) (by omega)
        have hwhole : third.code * 64 + (code % 0x40 + 0x80 - 0x80) = code := by omega
        rw [hwhole, hcode] at hlast
        exact .starts hlead (.continues hsecond (.continues hthird (.ends hlast)))

theorem encode_cons (character : Char) (text : Text) :
    encode (character :: text) = String.utf8EncodeChar character ++ encode text := rfl

theorem encode_append (first second : Text) :
    encode (first ++ second) = encode first ++ encode second :=
  List.flatMap_append

theorem checkFrom_encode (text : Text) (valid : ℕ) (rest : List UInt8) :
    checkFrom none valid (encode text ++ rest) = checkFrom none (valid + size text) rest := by
  induction text generalizing valid with
  | nil => rfl
  | cons character text ih =>
      rw [encode_cons, List.append_assoc, (spells_encodeChar character).checkFrom, ih, size_cons,
        String.length_utf8EncodeChar, seenOf, Nat.add_zero, Nat.add_assoc]

theorem lossy_encode (text : Text) : lossy (encode text) = text := by
  unfold lossy
  induction text with
  | nil => rfl
  | cons character text ih => rw [encode_cons, (spells_encodeChar character).lossyFrom, ih]

/-- Bytes cut off a text are characters of it and a front of the next one. -/
theorem take_encode (text : Text) (count : ℕ) : ∃ front back tail, text = front ++ back ∧
    (encode text).take count = encode front ++ tail ∧
      (tail = [] ∨ ∃ character, tail <+: String.utf8EncodeChar character ∧
        tail ≠ String.utf8EncodeChar character) := by
  induction text generalizing count with
  | nil => exact ⟨[], [], [], rfl, List.take_nil, .inl rfl⟩
  | cons character text ih =>
      by_cases hwhole : character.utf8Size ≤ count
      · obtain ⟨front, back, tail, htext, htake, htail⟩ := ih (count - character.utf8Size)
        refine ⟨character :: front, back, tail, by rw [htext, List.cons_append], ?_, htail⟩
        rw [encode_cons, List.take_append, String.length_utf8EncodeChar, htake, encode_cons,
          List.append_assoc, List.take_of_length_le (by rwa [String.length_utf8EncodeChar])]
      · refine ⟨[], character :: text, (encode (character :: text)).take count, rfl, rfl,
          .inr ⟨character, ?_, ?_⟩⟩
        · rw [encode_cons, List.take_append_of_le_length
            (by rw [String.length_utf8EncodeChar]; omega)]
          exact List.take_prefix _ _
        · intro heq
          have hlength := congrArg List.length heq
          rw [List.length_take, String.length_utf8EncodeChar] at hlength
          omega

/-- Validation of bytes cut off a text stops behind a character of the text, if at all. -/
theorem check_take_encode (text : Text) (count : ℕ) : ∃ front back, text = front ++ back ∧
    ((check ((encode text).take count) = .ok () ∧ (encode text).take count = encode front) ∨
      check ((encode text).take count) = .error ⟨size front, none⟩) := by
  obtain ⟨front, back, tail, htext, htake, htail⟩ := take_encode text count
  refine ⟨front, back, htext, ?_⟩
  rw [htake, check, checkFrom_encode, Nat.zero_add]
  rcases htail with rfl | ⟨character, hfront, hproper⟩
  · exact .inl ⟨rfl, List.append_nil _⟩
  · rcases (spells_encodeChar character).check_front hfront hproper (size front) with
      ⟨rfl, hok⟩ | herror
    · exact .inl ⟨hok, List.append_nil _⟩
    · exact .inr herror

end RalphexRunner.Utf8
