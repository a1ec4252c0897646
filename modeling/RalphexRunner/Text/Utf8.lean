import Mathlib.Algebra.Ring.Nat
import Mathlib.Data.List.Basic
import Mathlib.Tactic.Common

/-!
# UTF-8 validation and lossy decoding, byte by byte

`lead` and `Partial.feed` are the two halves of the well-formedness table: what a first byte
announces, and which byte may follow a sequence that is under way.  `check` is the strict
validation; its error carries the length of the valid prefix and, unless the text merely stops
inside a sequence, the length of the maximal invalid part.  `lossy` decodes the same bytes and puts
one replacement character for each maximal invalid part.

A text is a list of Unicode scalar values.
-/

namespace RalphexRunner

/-- A string, as its Unicode scalar values. -/
abbrev Text := List Char

namespace Utf8

/-- The bytes a text is written in. -/
def encode (text : Text) : List UInt8 := text.flatMap String.utf8EncodeChar

/-- The number of bytes a text is written in. -/
def size (text : Text) : ℕ := (text.map Char.utf8Size).sum

@[simp] theorem size_nil : size [] = 0 := rfl

@[simp] theorem size_cons (character : Char) (text : Text) :
    size (character :: text) = character.utf8Size + size text := rfl

@[simp] theorem size_append (first second : Text) :
    size (first ++ second) = size first + size second := by
  simp [size]

theorem size_le_of_sublist {first second : Text} (h : List.Sublist first second) :
    size first ≤ size second := by
  induction h with
  | slnil => exact Nat.le_refl _
  | cons character _ ih => exact Nat.le_trans ih (Nat.le_add_left _ _)
  | cons_cons character _ ih => exact Nat.add_le_add_left ih _

/-- Where every character is one byte, a text has as many bytes as characters. -/
theorem size_eq_length {text : Text} (h : ∀ character ∈ text, character.utf8Size = 1) :
    size text = text.length := by
  induction text with
  | nil => rfl
  | cons character text ih =>
      rw [size_cons, h character List.mem_cons_self,
        ih fun other hother ↦ h other (List.mem_cons_of_mem character hother), List.length_cons,
        Nat.add_comm]

theorem length_le_size (text : Text) : text.length ≤ size text := by
  induction text with
  | nil => exact Nat.le_refl 0
  | cons character text ih =>
      have hpos := character.utf8Size_pos
      rw [List.length_cons, size_cons]
      omega

theorem length_encode (text : Text) : (encode text).length = size text := by
  simp [encode, size, List.length_flatMap]

/-- An ASCII byte stands in the encoding of no character but its own. -/
theorem ascii_of_mem_encodeChar {character : Char} {byte : UInt8} (hbyte : byte.toNat < 0x80)
    (h : byte ∈ String.utf8EncodeChar character) : Char.ofNat byte.toNat = character := by
  have hlong (code offset : ℕ) (hoffset : 0x80 ≤ offset) (hcode : code + offset < 0x100) :
      byte ≠ UInt8.ofNat (code + offset) := by
    rintro rfl
    rw [UInt8.toNat_ofNat'] at hbyte
    omega
  simp only [String.utf8EncodeChar] at h
  split at h
  · have hsame : (UInt8.ofNat character.val.toNat).toNat = character.toNat := by
      change character.val.toNat % 256 = character.val.toNat
      omega
    rw [List.mem_singleton.mp h, hsame, Char.ofNat_toNat]
  -- every byte of a longer encoding has its high bit set
  · exfalso
    split at h
    · simp only [List.mem_cons, List.not_mem_nil, or_false] at h
      rcases h with h | h <;> exact hlong _ _ (by omega) (by omega) h
    · split at h <;> simp only [List.mem_cons, List.not_mem_nil, or_false] at h
      · rcases h with h | h | h <;> exact hlong _ _ (by omega) (by omega) h
      · rcases h with h | h | h | h <;> exact hlong _ _ (by omega) (by omega) h

theorem ascii_of_mem_encode {text : Text} {byte : UInt8} (hbyte : byte.toNat < 0x80)
    (h : byte ∈ encode text) : Char.ofNat byte.toNat ∈ text := by
  obtain ⟨character, hmem, hencoded⟩ := List.mem_flatMap.mp h
  rw [ascii_of_mem_encodeChar hbyte hencoded]
  exact hmem

/-- The character U+FFFD that stands for bytes that are not UTF-8. -/
def replacement : Char := '\uFFFD'

/-- A sequence under way: the code point bits read, the bytes read and owed, and the range the next
byte has to lie in. -/
structure Partial where
  code : ℕ
  seen : ℕ
  owed : ℕ
  low : ℕ
  high : ℕ
  bounded : 0 < seen ∧ 0 < owed ∧ seen + owed ≤ 4
  deriving DecidableEq

/-- What one byte does: it completes a character or leaves a sequence under way. -/
inductive Reading where
  | scalar (character : Char)
  | more (pending : Partial)
  deriving DecidableEq

/-- What a byte announces between characters; `none` where no character starts with it. -/
def lead (byte : UInt8) : Option Reading :=
  let b := byte.toNat
  if b ≤ 0x7F then some (.scalar (Char.ofNat b))
  else if 0xC2 ≤ b ∧ b ≤ 0xDF then some (.more ⟨b - 0xC0, 1, 1, 0x80, 0xBF, by decide⟩)
  else if b = 0xE0 then some (.more ⟨b - 0xE0, 1, 2, 0xA0, 0xBF, by decide⟩)
  else if b = 0xED then some (.more ⟨b - 0xE0, 1, 2, 0x80, 0x9F, by decide⟩)
  else if 0xE1 ≤ b ∧ b ≤ 0xEF then some (.more ⟨b - 0xE0, 1, 2, 0x80, 0xBF, by decide⟩)
  else if b = 0xF0 then some (.more ⟨b - 0xF0, 1, 3, 0x90, 0xBF, by decide⟩)
  else if 0xF1 ≤ b ∧ b ≤ 0xF3 then some (.more ⟨b - 0xF0, 1, 3, 0x80, 0xBF, by decide⟩)
  else if b = 0xF4 then some (.more ⟨b - 0xF0, 1, 3, 0x80, 0x8F, by decide⟩)
  else none

/-- What a byte does to a sequence under way; `none` where it cannot continue it. -/
def Partial.feed (pending : Partial) (byte : UInt8) : Option Reading :=
  let b := byte.toNat
  let code := pending.code * 64 + (b - 0x80)
  if pending.low ≤ b ∧ b ≤ pending.high then
    if h : pending.owed = 1 then some (.scalar (Char.ofNat code))
    else some (.more ⟨code, pending.seen + 1, pending.owed - 1, 0x80, 0xBF, by
      have := pending.bounded; omega⟩)
  else none

/-- Where validation stopped: the bytes that are valid, and the invalid bytes after them unless the
text ends inside a sequence that could still be completed. -/
structure Utf8Error where
  validUpTo : ℕ
  errorLen : Option ℕ
  deriving DecidableEq

/-- Validation from between characters or inside a sequence, `valid` bytes having been accepted. -/
def checkFrom : Option Partial → ℕ → List UInt8 → Except Utf8Error Unit
  | none, _, [] => .ok ()
  | some _, valid, [] => .error ⟨valid, none⟩
  | none, valid, byte :: rest =>
      match lead byte with
      | none => .error ⟨valid, some 1⟩
      | some (.scalar _) => checkFrom none (valid + 1) rest
      | some (.more pending) => checkFrom (some pending) valid rest
  | some pending, valid, byte :: rest =>
      match pending.feed byte with
      | none => .error ⟨valid, some pending.seen⟩
      | some (.scalar _) => checkFrom none (valid + pending.seen + 1) rest
      | some (.more longer) => checkFrom (some longer) valid rest

/-- Strict validation of a byte sequence. -/
def check (bytes : List UInt8) : Except Utf8Error Unit := checkFrom none 0 bytes

/-- Lossy decoding from between characters or inside a sequence. -/
def lossyFrom : Option Partial → List UInt8 → Text
  | none, [] => []
  | some _, [] => [replacement]
  | none, byte :: rest =>
      match lead byte with
      | none => replacement :: lossyFrom none rest
      | some (.scalar character) => character :: lossyFrom none rest
      | some (.more pending) => lossyFrom (some pending) rest
  | some pending, byte :: rest =>
      match pending.feed byte with
      | some (.scalar character) => character :: lossyFrom none rest
      | some (.more longer) => lossyFrom (some longer) rest
      | none =>
          match lead byte with
          | none => replacement :: replacement :: lossyFrom none rest
          | some (.scalar character) => replacement :: character :: lossyFrom none rest
          | some (.more fresh) => replacement :: lossyFrom (some fresh) rest

/-- Decode bytes, one replacement character for each maximal part that is not UTF-8. -/
def lossy (bytes : List UInt8) : Text := lossyFrom none bytes

/-- The number of bytes already read of the sequence under way. -/
def seenOf : Option Partial → ℕ
  | none => 0
  | some pending => pending.seen

theorem Partial.seen_of_feed {pending longer : Partial} {byte : UInt8}
    (h : pending.feed byte = some (.more longer)) : longer.seen = pending.seen + 1 := by
  simp only [Partial.feed] at h
  split at h
  · split at h
    · simp at h
    · simp only [Option.some.injEq, Reading.more.injEq] at h
      rw [← h]
  · simp at h

theorem seen_of_lead {byte : UInt8} {pending : Partial}
    (h : lead byte = some (.more pending)) : pending.seen = 1 := by
  simp only [lead] at h
  repeat' split at h
  all_goals
    simp only [Option.some.injEq, Reading.more.injEq, reduceCtorEq] at h
  all_goals rw [← h]

theorem utf8Size_of_lead {byte : UInt8} {character : Char}
    (h : lead byte = some (.scalar character)) : character.utf8Size = 1 := by
  have hall : ∀ code : Fin 128, (Char.ofNat code).utf8Size = 1 := by decide
  simp only [lead] at h
  repeat' split at h
  all_goals
    simp only [Option.some.injEq, Reading.scalar.injEq, reduceCtorEq] at h
  rename_i hascii
  rw [← h]
  exact hall ⟨byte.toNat, by omega⟩

/-- A byte decodes to three at most, those of a replacement character. -/
theorem size_lossyFrom_le (pending : Option Partial) (bytes : List UInt8) :
    size (lossyFrom pending bytes) ≤ 3 * (seenOf pending + bytes.length) := by
  have hreplacement : replacement.utf8Size = 3 := rfl
  fun_induction lossyFrom pending bytes with
  | case1 => exact Nat.le_refl 0
  | case2 pending =>
      have hbounded := pending.bounded
      simp only [size_cons, size_nil, seenOf, hreplacement]
      omega
  | case3 byte rest hlead ih =>
      simp only [size_cons, seenOf, List.length_cons, hreplacement] at ih ⊢
      omega
  | case4 byte rest character hlead ih =>
      have hone := utf8Size_of_lead hlead
      simp only [size_cons, seenOf, List.length_cons] at ih ⊢
      omega
  | case5 byte rest pending hlead ih =>
      have hseen := seen_of_lead hlead
      simp only [seenOf, List.length_cons] at ih ⊢
      omega
  | case6 pending byte rest character hfeed ih =>
      have hfour := character.utf8Size_le_four
      have hbounded := pending.bounded
      simp only [size_cons, seenOf, List.length_cons] at ih ⊢
      omega
  | case7 pending byte rest longer hfeed ih =>
      have hseen := Partial.seen_of_feed hfeed
      simp only [seenOf, List.length_cons] at ih ⊢
      omega
  | case8 pending byte rest hfeed hlead ih =>
      have hbounded := pending.bounded
      simp only [size_cons, seenOf, List.length_cons, hreplacement] at ih ⊢
      omega
  | case9 pending byte rest hfeed character hlead ih =>
      have hone := utf8Size_of_lead hlead
      have hbounded := pending.bounded
      simp only [size_cons, seenOf, List.length_cons, hreplacement] at ih ⊢
      omega
  | case10 pending byte rest hfeed fresh hlead ih =>
      have hseen := seen_of_lead hlead
      have hbounded := pending.bounded
      simp only [size_cons, seenOf, List.length_cons, hreplacement] at ih ⊢
      omega

theorem size_lossy_le (bytes : List UInt8) : size (lossy bytes) ≤ 3 * bytes.length := by
  have h := size_lossyFrom_le none bytes
  rwa [seenOf, Nat.zero_add] at h

/-- A text that stops inside a sequence leaves at most three bytes after its valid prefix. -/
theorem checkFrom_truncated {pending : Option Partial} {valid : ℕ} {bytes : List UInt8} {upTo : ℕ}
    (h : checkFrom pending valid bytes = .error ⟨upTo, none⟩) :
    upTo ≤ valid + seenOf pending + bytes.length ∧
      valid + seenOf pending + bytes.length ≤ upTo + 3 := by
  fun_induction checkFrom pending valid bytes with
  | case1 => simp at h
  | case2 pending valid =>
      have hbounded := pending.bounded
      simp only [Except.error.injEq, Utf8Error.mk.injEq, and_true] at h
      simp only [seenOf, List.length_nil]
      omega
  | case3 => simp at h
  | case4 valid byte rest character hlead ih =>
      have := ih h
      simp only [seenOf, List.length_cons] at this ⊢
      omega
  | case5 valid byte rest pending hlead ih =>
      have := ih h
      have hseen := seen_of_lead hlead
      simp only [seenOf, List.length_cons] at this ⊢
      omega
  | case6 => simp at h
  | case7 pending valid byte rest character hfeed ih =>
      have := ih h
      simp only [seenOf, List.length_cons] at this ⊢
      omega
  | case8 pending valid byte rest longer hfeed ih =>
      have := ih h
      have hseen := Partial.seen_of_feed hfeed
      simp only [seenOf, List.length_cons] at this ⊢
      omega

theorem check_truncated {bytes : List UInt8} {upTo : ℕ}
    (h : check bytes = .error ⟨upTo, none⟩) :
    upTo ≤ bytes.length ∧ bytes.length ≤ upTo + 3 := by
  have := checkFrom_truncated h
  simpa [seenOf] using this

example : lossy [0x61, 0xE2, 0x82, 0x41] = ['a', replacement, 'A'] := by decide

end Utf8

end RalphexRunner
