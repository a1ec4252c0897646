import RalphexRunner.LogStream.Stream

/-!
# The line assembler between the pseudo-terminal and the log stream

`LineAssembler` turns the bytes of a run, in whatever reads they arrive, into calls of the log
stream: one line for each newline, a forced cut where a line reaches the chunk cap, and a break for
a newline whose line was cut exactly at the cap.  Its two fields are tied by two facts that every
operation has to re-establish: the pending bytes stay below the cap, and the cut flag stands only
over an empty pending line.
-/

namespace RalphexRunner

namespace LineAssembler

def newline : UInt8 := 10

/-- What the assembler asks of the log stream. -/
inductive Call where
  | pushLine (piece : List UInt8) (terminator : Terminator)
  | pushBreak
  deriving DecidableEq

def Call.apply (stream : LogStream) : Call → LogStream
  | .pushLine piece terminator => stream.pushLine piece terminator
  | .pushBreak => stream.pushBreak

/-- The last position at or before the end of `bytes` that splits no character. -/
def floorBoundary (bytes : List UInt8) : ℕ :=
  match Utf8.check bytes with
  | .ok () => bytes.length
  | .error ⟨_, some _⟩ => bytes.length
  | .error ⟨validUpTo, none⟩ => validUpTo

theorem floorBoundary_le (bytes : List UInt8) : floorBoundary bytes ≤ bytes.length := by
  unfold floorBoundary
  split
  · exact Nat.le_refl _
  · exact Nat.le_refl _
  · rename_i validUpTo hcheck
    exact (Utf8.check_truncated hcheck).1

theorem length_le_floorBoundary (bytes : List UInt8) :
    bytes.length ≤ floorBoundary bytes + 3 := by
  unfold floorBoundary
  split
  · omega
  · omega
  · rename_i validUpTo hcheck
    exact (Utf8.check_truncated hcheck).2

end LineAssembler

open LineAssembler in
/-- The bytes of the line under way, and whether the last byte printed ended in a forced cut. -/
structure LineAssembler where
  pending : List UInt8
  cut : Bool
  below : pending.length < maxLogChunk
  empty_of_cut : cut = true → pending = []

namespace LineAssembler

def new : LineAssembler := ⟨[], false, by decide, by simp⟩

/-- Hand the pending bytes over as one line. -/
def emit (assembler : LineAssembler) (terminator : Terminator) : LineAssembler × List Call :=
  (⟨[], assembler.cut, by decide, fun _ ↦ rfl⟩, [.pushLine assembler.pending terminator])

/-- Cut a line that reached the cap; the bytes of a character the cap would split are carried. -/
def force (pending : List UInt8) : LineAssembler × List Call :=
  let boundary := floorBoundary pending
  let carried := pending.drop boundary
  (⟨carried, carried.isEmpty, by
      have hshort := length_le_floorBoundary pending
      have hcap' : maxLogChunk = 65536 := rfl
      simp only [carried, boundary, List.length_drop]
      omega, by simp⟩,
    [.pushLine (pending.take boundary) .cut])

def feedByte (assembler : LineAssembler) (byte : UInt8) : LineAssembler × List Call :=
  if byte = newline then
    if assembler.cut then
      (⟨assembler.pending, false, assembler.below, by simp⟩, [.pushBreak])
    else assembler.emit .newline
  else
    if h : (assembler.pending ++ [byte]).length ≥ maxLogChunk then
      force (assembler.pending ++ [byte])
    else (⟨assembler.pending ++ [byte], false, by omega, by simp⟩, [])

def feed (assembler : LineAssembler) : List UInt8 → LineAssembler × List Call
  | [] => (assembler, [])
  | byte :: rest =>
      let first := assembler.feedByte byte
      let others := feed first.1 rest
      (others.1, first.2 ++ others.2)

/-- The end of the output: what is pending is a line without a newline. -/
def finish (assembler : LineAssembler) : List Call :=
  if assembler.pending.isEmpty then [] else (assembler.emit .cut).2

/-- The reads in order, from a given state. -/
def feedAll (assembler : LineAssembler) : List (List UInt8) → LineAssembler × List Call
  | [] => (assembler, [])
  | read :: rest =>
      let first := assembler.feed read
      let others := feedAll first.1 rest
      (others.1, first.2 ++ others.2)

/-- Everything the task draining the terminal asks of the log stream for one run. -/
def pump (reads : List (List UInt8)) : List Call :=
  let fed := new.feedAll reads
  fed.2 ++ fed.1.finish

def Call.printed : Call → List UInt8
  | .pushLine piece .newline => piece ++ [newline]
  | .pushLine piece .cut => piece
  | .pushBreak => [newline]

def emptyPieces (calls : List Call) : ℕ :=
  calls.countP fun call ↦ match call with
    | .pushLine [] _ => true
    | _ => false

/-- The lines of an output: the complete ones, and the bytes after the last newline. -/
def printedLines : List UInt8 → List (List UInt8) × List UInt8
  | [] => ([], [])
  | byte :: rest =>
      let (lines, last) := printedLines rest
      if byte = newline then ([] :: lines, last)
      else match lines with
        | [] => ([], byte :: last)
        | line :: more => ((byte :: line) :: more, last)

def lineCalls (line : List UInt8) : List Call := (new.feed (line ++ [newline])).2

/-- The calls the bytes after the last newline yield. -/
def lastCalls (last : List UInt8) : List Call :=
  let fed := new.feed last
  fed.2 ++ fed.1.finish

@[simp] theorem feed_nil (assembler : LineAssembler) : assembler.feed [] = (assembler, []) := rfl

theorem feed_cons (assembler : LineAssembler) (byte : UInt8) (rest : List UInt8) :
    assembler.feed (byte :: rest) =
      (((assembler.feedByte byte).1.feed rest).1,
        (assembler.feedByte byte).2 ++ ((assembler.feedByte byte).1.feed rest).2) := rfl

theorem feed_append (assembler : LineAssembler) (first second : List UInt8) :
    assembler.feed (first ++ second) =
      (((assembler.feed first).1.feed second).1,
        (assembler.feed first).2 ++ ((assembler.feed first).1.feed second).2) := by
  induction first generalizing assembler with
  | nil => simp
  | cons byte rest ih => simp only [List.cons_append, feed_cons, ih, List.append_assoc]

theorem feedAll_eq_feed_flatten (assembler : LineAssembler) (reads : List (List UInt8)) :
    assembler.feedAll reads = assembler.feed reads.flatten := by
  induction reads generalizing assembler with
  | nil => rfl
  | cons read rest ih =>
      simp only [feedAll, List.flatten_cons, feed_append, ih]

theorem pump_eq_lastCalls (reads : List (List UInt8)) : pump reads = lastCalls reads.flatten := by
  simp only [pump, lastCalls, feedAll_eq_feed_flatten]

theorem ext_fields {first second : LineAssembler} (hpending : first.pending = second.pending)
    (hcut : first.cut = second.cut) : first = second := by
  cases first
  cases second
  simp_all

/-- A newline leaves nothing behind, whatever came before it. -/
theorem feedByte_newline (assembler : LineAssembler) :
    (assembler.feedByte newline).1 = new := by
  apply ext_fields
  · unfold feedByte
    split
    · split
      · rename_i hcut
        exact assembler.empty_of_cut hcut
      · rfl
    · contradiction
  · unfold feedByte
    split
    · split
      · rfl
      · rename_i hcut
        simpa [emit, new] using hcut
    · contradiction

theorem floorBoundary_pos {pending : List UInt8} (h : maxLogChunk ≤ pending.length) :
    0 < floorBoundary pending := by
  have hshort := length_le_floorBoundary pending
  have hcap : maxLogChunk = 65536 := rfl
  omega

/-- Every byte is either still pending or in a call, in order. -/
theorem feedByte_printed (assembler : LineAssembler) (byte : UInt8) :
    (assembler.feedByte byte).2.flatMap Call.printed ++ (assembler.feedByte byte).1.pending =
      assembler.pending ++ [byte] := by
  unfold feedByte
  split
  · rename_i hbyte
    subst hbyte
    split
    · rename_i hcut
      simp [Call.printed, assembler.empty_of_cut hcut]
    · simp [emit, Call.printed]
  · split
    · simp [force, Call.printed, List.take_append_drop]
    · simp

/-- No piece is longer than the cap. -/
theorem feedByte_piece_le {assembler : LineAssembler} {byte : UInt8} {piece : List UInt8}
    {terminator : Terminator} (h : .pushLine piece terminator ∈ (assembler.feedByte byte).2) :
    piece.length ≤ maxLogChunk := by
  have hbelow := assembler.below
  unfold feedByte at h
  split at h
  · split at h
    · simp at h
    · simp only [emit, List.mem_singleton, Call.pushLine.injEq] at h
      rw [h.1]
      omega
  · split at h
    · simp only [force, List.mem_singleton, Call.pushLine.injEq] at h
      rw [h.1, List.length_take, List.length_append, List.length_singleton]
      omega
    · simp at h

/-- A line that holds a byte leaves bytes pending or the flag that they were all cut. -/
def Started (assembler : LineAssembler) : Prop :=
  assembler.pending ≠ [] ∨ assembler.cut = true

theorem feedByte_started (assembler : LineAssembler) {byte : UInt8} (h : byte ≠ newline) :
    (assembler.feedByte byte).1.Started := by
  unfold feedByte
  rw [if_neg h]
  split
  · by_cases hcarried : (assembler.pending ++ [byte]).drop
        (floorBoundary (assembler.pending ++ [byte])) = []
    · right
      simp [force, hcarried]
    · left
      exact hcarried
  · left
    simp

@[simp] theorem emptyPieces_append (first second : List Call) :
    emptyPieces (first ++ second) = emptyPieces first + emptyPieces second := by
  simp [emptyPieces, List.countP_append]

theorem emptyPieces_pushLine {piece : List UInt8} (h : piece ≠ []) (terminator : Terminator) :
    emptyPieces [.pushLine piece terminator] = 0 := by
  cases piece with
  | nil => exact absurd rfl h
  | cons head rest => rfl

/-- A byte other than a newline never pushes an empty line: a forced cut moves at least one byte. -/
theorem feedByte_emptyPieces (assembler : LineAssembler) {byte : UInt8} (h : byte ≠ newline) :
    emptyPieces (assembler.feedByte byte).2 = 0 := by
  unfold feedByte
  rw [if_neg h]
  split
  · rename_i hcap
    apply emptyPieces_pushLine
    rw [Ne, List.take_eq_nil_iff, not_or]
    exact ⟨Nat.ne_of_gt (floorBoundary_pos hcap), by simp⟩
  · rfl

theorem feedByte_newline_emptyPieces {assembler : LineAssembler} (h : assembler.Started) :
    emptyPieces (assembler.feedByte newline).2 = 0 := by
  unfold feedByte
  rw [if_pos rfl]
  split
  · rfl
  · rename_i hcut
    rcases h with hpending | hcut'
    · exact emptyPieces_pushLine hpending _
    · exact absurd hcut' hcut

/-- The calls and what is pending are the bytes fed. -/
theorem feed_printed (assembler : LineAssembler) (bytes : List UInt8) :
    (assembler.feed bytes).2.flatMap Call.printed ++ (assembler.feed bytes).1.pending =
      assembler.pending ++ bytes := by
  induction bytes generalizing assembler with
  | nil => simp
  | cons byte rest ih =>
      calc
        (assembler.feed (byte :: rest)).2.flatMap Call.printed ++
            (assembler.feed (byte :: rest)).1.pending =
            (assembler.feedByte byte).2.flatMap Call.printed ++
              (((assembler.feedByte byte).1.feed rest).2.flatMap Call.printed ++
                ((assembler.feedByte byte).1.feed rest).1.pending) := by
          simp [feed_cons]
        _ = ((assembler.feedByte byte).2.flatMap Call.printed ++
              (assembler.feedByte byte).1.pending) ++ rest := by
          rw [ih, List.append_assoc]
        _ = assembler.pending ++ byte :: rest := by
          rw [feedByte_printed]
          simp

theorem feed_piece_le {assembler : LineAssembler} {bytes piece : List UInt8}
    {terminator : Terminator} (h : .pushLine piece terminator ∈ (assembler.feed bytes).2) :
    piece.length ≤ maxLogChunk := by
  induction bytes generalizing assembler with
  | nil => simp at h
  | cons byte rest ih =>
      rw [feed_cons, List.mem_append] at h
      rcases h with hfirst | hrest
      · exact feedByte_piece_le hfirst
      · exact ih hrest

theorem finish_printed (assembler : LineAssembler) :
    assembler.finish.flatMap Call.printed = assembler.pending := by
  unfold finish
  split
  · rename_i h
    simpa using (List.isEmpty_iff.mp h).symm
  · simp [emit, Call.printed]

theorem lastCalls_printed (bytes : List UInt8) :
    (lastCalls bytes).flatMap Call.printed = bytes := by
  simp only [lastCalls, List.flatMap_append, finish_printed, feed_printed]
  rfl

theorem lastCalls_piece_le {bytes piece : List UInt8} {terminator : Terminator}
    (h : .pushLine piece terminator ∈ lastCalls bytes) : piece.length ≤ maxLogChunk := by
  rw [lastCalls, List.mem_append] at h
  rcases h with hfed | hfinish
  · exact feed_piece_le hfed
  · have hbelow := (new.feed bytes).1.below
    unfold finish at hfinish
    split at hfinish
    · simp at hfinish
    · simp only [emit, List.mem_singleton, Call.pushLine.injEq] at hfinish
      rw [hfinish.1]
      omega

/-- After a complete line the assembler is new again, so the rest is read as if it came first. -/
theorem lastCalls_line (line rest : List UInt8) :
    lastCalls (line ++ newline :: rest) = lineCalls line ++ lastCalls rest := by
  have hnew : (new.feed (line ++ [newline])).1 = new := by
    rw [feed_append, feed_cons]
    exact feedByte_newline _
  have hsplit : line ++ newline :: rest = (line ++ [newline]) ++ rest := by simp
  rw [hsplit, lastCalls, feed_append _ (line ++ [newline]), hnew, lineCalls, lastCalls,
    List.append_assoc]

/-! ## Line by line -/

theorem printedLines_join (bytes : List UInt8) :
    (printedLines bytes).1.flatMap (· ++ [newline]) ++ (printedLines bytes).2 = bytes := by
  induction bytes with
  | nil => rfl
  | cons byte rest ih =>
      cases hrest : printedLines rest with
      | mk lines last =>
          rw [hrest] at ih
          by_cases hbyte : byte = newline
          · simpa [printedLines, hrest, hbyte] using ih
          · cases lines with
            | nil => simpa [printedLines, hrest, hbyte] using ih
            | cons line more => simpa [printedLines, hrest, hbyte] using ih

theorem printedLines_newline_free (bytes : List UInt8) :
    (∀ line ∈ (printedLines bytes).1, newline ∉ line) ∧ newline ∉ (printedLines bytes).2 := by
  induction bytes with
  | nil => simp [printedLines]
  | cons byte rest ih =>
      cases hrest : printedLines rest with
      | mk lines last =>
          rw [hrest] at ih
          by_cases hbyte : byte = newline
          · simpa [printedLines, hrest, hbyte] using ih
          · cases lines with
            | nil => simpa [printedLines, hrest, hbyte, Ne.symm hbyte] using ih
            | cons line more => simpa [printedLines, hrest, hbyte, Ne.symm hbyte] using ih

theorem lastCalls_lines (lines : List (List UInt8)) (last : List UInt8) :
    lastCalls (lines.flatMap (· ++ [newline]) ++ last) =
      lines.flatMap lineCalls ++ lastCalls last := by
  induction lines with
  | nil => rfl
  | cons line rest ih =>
      have hsplit : (line :: rest).flatMap (· ++ [newline]) ++ last =
          line ++ newline :: (rest.flatMap (· ++ [newline]) ++ last) := by simp
      rw [hsplit, lastCalls_line, ih, List.flatMap_cons, List.append_assoc]

/-- The calls of an output are the calls of its lines, one after the other. -/
theorem pump_eq_lines (reads : List (List UInt8)) :
    pump reads = (printedLines reads.flatten).1.flatMap lineCalls ++
      lastCalls (printedLines reads.flatten).2 := by
  rw [pump_eq_lastCalls, ← lastCalls_lines, printedLines_join]

theorem feed_emptyPieces (assembler : LineAssembler) {bytes : List UInt8}
    (h : newline ∉ bytes) : emptyPieces (assembler.feed bytes).2 = 0 := by
  induction bytes generalizing assembler with
  | nil => rfl
  | cons byte rest ih =>
      rw [List.mem_cons, not_or] at h
      rw [feed_cons, emptyPieces_append, feedByte_emptyPieces assembler (Ne.symm h.1), ih _ h.2]

theorem feed_started (assembler : LineAssembler) {bytes : List UInt8}
    (h : newline ∉ bytes) (hstarted : assembler.Started ∨ bytes ≠ []) :
    (assembler.feed bytes).1.Started := by
  induction bytes generalizing assembler with
  | nil => simpa using hstarted
  | cons byte rest ih =>
      rw [List.mem_cons, not_or] at h
      exact ih _ h.2 (.inl (feedByte_started assembler (Ne.symm h.1)))

/-- An empty line is one empty piece, and no other complete line yields one. -/
theorem lineCalls_emptyPieces {line : List UInt8} (h : newline ∉ line) :
    emptyPieces (lineCalls line) = if line = [] then 1 else 0 := by
  split
  · rename_i hline
    subst hline
    rfl
  · rename_i hline
    have hstarted := feed_started new h (.inr hline)
    rw [lineCalls, feed_append, emptyPieces_append, feed_emptyPieces new h, feed_cons, feed_nil,
      List.append_nil, feedByte_newline_emptyPieces hstarted]

theorem lastCalls_emptyPieces {last : List UInt8} (h : newline ∉ last) :
    emptyPieces (lastCalls last) = 0 := by
  rw [lastCalls, emptyPieces_append, feed_emptyPieces new h]
  unfold finish
  split
  · rfl
  · rename_i hpending
    rw [emit, emptyPieces_pushLine (by simpa using hpending)]

/-- **The assembler is lossless and does not see the reads.**  The calls depend on the bytes alone;
read back they are the bytes; no piece exceeds the cap and no read leaves that much pending; and an
empty piece is pushed exactly where the run printed an empty line. -/
theorem pump_lossless (reads : List (List UInt8)) :
    pump reads = pump [reads.flatten] ∧
      (pump reads).flatMap Call.printed = reads.flatten ∧
      (∀ piece terminator, .pushLine piece terminator ∈ pump reads →
        piece.length ≤ maxLogChunk) ∧
      (∀ count, (new.feedAll (reads.take count)).1.pending.length < maxLogChunk) ∧
      pump reads = (printedLines reads.flatten).1.flatMap lineCalls ++
        lastCalls (printedLines reads.flatten).2 ∧
      lineCalls [] = [.pushLine [] .newline] ∧
      (∀ line ∈ (printedLines reads.flatten).1,
        emptyPieces (lineCalls line) = if line = [] then 1 else 0) ∧
      emptyPieces (lastCalls (printedLines reads.flatten).2) = 0 := by
  have hfree := printedLines_newline_free reads.flatten
  refine ⟨?_, ?_, ?_, ?_, pump_eq_lines reads, rfl, ?_, lastCalls_emptyPieces hfree.2⟩
  · simp only [pump_eq_lastCalls, List.flatten_cons, List.flatten_nil, List.append_nil]
  · rw [pump_eq_lastCalls, lastCalls_printed]
  · intro piece terminator h
    rw [pump_eq_lastCalls] at h
    exact lastCalls_piece_le h
  · exact fun count ↦ (new.feedAll (reads.take count)).1.below
  · exact fun line hline ↦ lineCalls_emptyPieces (hfree.1 line hline)

end LineAssembler

end RalphexRunner
