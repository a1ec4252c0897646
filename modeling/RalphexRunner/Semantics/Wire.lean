import Mathlib.Algebra.Ring.Nat
import Mathlib.Data.List.Basic
import Mathlib.Tactic.Common

/-!
# Bytes on a wire

Numbers in little-endian bytes, and both ends of a byte stream.  A `Reader` hands its bytes over in
chunks, however they happened to arrive, until the stream ends; `readExact` asks for a number of
bytes and goes on reading until it has them.  What it reads depends on the bytes alone, never on
the chunks.  A `Writer` takes bytes until it refuses them.
-/

namespace RalphexRunner

/-- A number in the given count of bytes, the lowest first. -/
def leBytes : ℕ → ℕ → List UInt8
  | 0, _ => []
  | width + 1, number => UInt8.ofNat (number % 256) :: leBytes width (number / 256)

/-- The number some bytes stand for, the lowest first. -/
def leNumber : List UInt8 → ℕ
  | [] => 0
  | byte :: rest => byte.toNat + 256 * leNumber rest

@[simp] theorem length_leBytes (width number : ℕ) : (leBytes width number).length = width := by
  induction width generalizing number with
  | zero => rfl
  | succ width ih => rw [leBytes, List.length_cons, ih]

theorem leNumber_leBytes {width number : ℕ} (h : number < 256 ^ width) :
    leNumber (leBytes width number) = number := by
  induction width generalizing number with
  | zero =>
      rw [Nat.pow_zero, Nat.lt_one_iff] at h
      rw [h]
      rfl
  | succ width ih =>
      have hrest : number / 256 < 256 ^ width :=
        Nat.div_lt_of_lt_mul (by rwa [Nat.mul_comm, ← Nat.pow_succ])
      have hbyte : (UInt8.ofNat (number % 256)).toNat = number % 256 := by
        rw [UInt8.toNat_ofNat']
        omega
      rw [leBytes, leNumber, ih hrest, hbyte, Nat.mod_add_div]

theorem leBytes_leNumber (bytes : List UInt8) : leBytes bytes.length (leNumber bytes) = bytes := by
  induction bytes with
  | nil => rfl
  | cons byte rest ih =>
      have hbyte : byte.toNat < 256 := byte.toNat_lt
      have hlow : (byte.toNat + 256 * leNumber rest) % 256 = byte.toNat := by omega
      have hhigh : (byte.toNat + 256 * leNumber rest) / 256 = leNumber rest := by omega
      rw [List.length_cons, leBytes, leNumber, hlow, hhigh, ih, UInt8.ofNat_toNat]

/-- How a stream ends. -/
inductive Ending where
  | eof
  | reset
  | failed (message : List Char)
  deriving DecidableEq

/-- What one read delivers; a read that delivers nothing is the end of the stream. -/
abbrev Chunk := { bytes : List UInt8 // bytes ≠ [] }

/-- The chunks a stream still delivers, and its end. -/
structure Reader where
  chunks : List Chunk
  ending : Ending

namespace Reader

def bytes (reader : Reader) : List UInt8 := reader.chunks.flatMap Subtype.val

/-- Read chunk after chunk until `count` bytes are there. -/
def fill (ending : Ending) : ℕ → List Chunk → Except Ending (List UInt8) × List Chunk
  | 0, chunks => (.ok [], chunks)
  | _ + 1, [] => (.error ending, [])
  | count + 1, chunk :: rest =>
      if h : count + 1 < chunk.val.length then
        (.ok (chunk.val.take (count + 1)),
          ⟨chunk.val.drop (count + 1), by simpa using h⟩ :: rest)
      else
        let filled := fill ending (count + 1 - chunk.val.length) rest
        (filled.1.map (chunk.val ++ ·), filled.2)

/-- Read exactly `count` bytes. -/
def readExact (reader : Reader) (count : ℕ) : Except Ending (List UInt8) × Reader :=
  let filled := fill reader.ending count reader.chunks
  (filled.1, { reader with chunks := filled.2 })

/-- Where enough arrives, exactly that much is read. -/
theorem fill_enough (ending : Ending) {count : ℕ} {chunks : List Chunk}
    (h : count ≤ (chunks.flatMap Subtype.val).length) :
    (fill ending count chunks).1 = .ok ((chunks.flatMap Subtype.val).take count) ∧
      (fill ending count chunks).2.flatMap Subtype.val =
        (chunks.flatMap Subtype.val).drop count := by
  induction chunks generalizing count with
  | nil =>
      obtain rfl : count = 0 := Nat.le_zero.mp h
      exact ⟨rfl, rfl⟩
  | cons chunk rest ih =>
      cases count with
      | zero => exact ⟨rfl, rfl⟩
      | succ count =>
          rw [List.flatMap_cons] at h ⊢
          rw [fill]
          split
          · rename_i hinside
            rw [List.take_append_of_le_length (Nat.le_of_lt hinside),
              List.drop_append_of_le_length (Nat.le_of_lt hinside)]
            exact ⟨rfl, rfl⟩
          · rename_i hbeyond
            rw [List.length_append] at h
            obtain ⟨hfilled, hleft⟩ := ih (show count + 1 - chunk.val.length ≤ _ by omega)
            rw [List.take_append, List.drop_append, List.take_of_length_le (by omega),
              List.drop_of_length_le (by omega)]
            refine ⟨?_, hleft⟩
            dsimp only
            rw [hfilled]
            rfl

/-- Where too little arrives, reading ends as the stream does. -/
theorem fill_short (ending : Ending) {count : ℕ} {chunks : List Chunk}
    (h : (chunks.flatMap Subtype.val).length < count) :
    (fill ending count chunks).1 = .error ending ∧ (fill ending count chunks).2 = [] := by
  induction chunks generalizing count with
  | nil =>
      cases count with
      | zero => cases h
      | succ count => exact ⟨rfl, rfl⟩
  | cons chunk rest ih =>
      cases count with
      | zero => cases h
      | succ count =>
          rw [List.flatMap_cons, List.length_append] at h
          obtain ⟨hfilled, hleft⟩ := ih (show _ < count + 1 - chunk.val.length by omega)
          rw [fill, dif_neg (by omega)]
          refine ⟨?_, hleft⟩
          dsimp only
          rw [hfilled]
          rfl

variable {reader : Reader} {count : ℕ}

/-- Where enough bytes are to come, a read has the first of them and leaves the others. -/
theorem readExact_enough (h : count ≤ reader.bytes.length) :
    ∃ after, reader.readExact count = (.ok (reader.bytes.take count), after) ∧
      after.bytes = reader.bytes.drop count ∧ after.ending = reader.ending := by
  obtain ⟨hread, hleft⟩ := fill_enough reader.ending h
  exact ⟨_, Prod.ext hread rfl, hleft, rfl⟩

/-- Where too few are to come, it meets the end of the stream. -/
theorem readExact_short (h : reader.bytes.length < count) :
    ∃ after, reader.readExact count = (.error reader.ending, after) ∧
      after.bytes = [] ∧ after.ending = reader.ending := by
  obtain ⟨hread, hleft⟩ := fill_short reader.ending h
  refine ⟨⟨[], reader.ending⟩, Prod.ext hread ?_, rfl, rfl⟩
  exact congrArg (Reader.mk · reader.ending) hleft

end Reader

/-- The bytes written, how many more are taken before the stream refuses them, and what a flush of
them comes to. -/
structure Writer where
  written : List UInt8
  room : Option ℕ
  refusal : List Char
  flush : Except (List Char) Unit

namespace Writer

/-- A stream that takes everything, with nothing written yet. -/
def empty : Writer := ⟨[], none, [], .ok ()⟩

def writeAll (writer : Writer) (bytes : List UInt8) : Except (List Char) Unit × Writer :=
  match writer.room with
  | none => (.ok (), { writer with written := writer.written ++ bytes })
  | some room =>
      if bytes.length ≤ room then
        (.ok (), { writer with
          written := writer.written ++ bytes, room := some (room - bytes.length) })
      else
        (.error writer.refusal, { writer with
          written := writer.written ++ bytes.take room, room := some 0 })

end Writer

end RalphexRunner
