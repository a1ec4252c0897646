import RalphexRunner.Job.LineAssembler

/-!
# The parts of a long line

Whatever state the assembler carries, a line is handed over in parts that are told from the line
alone: as long as `MAX_LOG_CHUNK` bytes are left, the next part ends at `floor_boundary` of that
many bytes.  What is left then is handed over at the newline; where nothing is left of a line that
was cut, the newline is a break.
-/

namespace RalphexRunner.LineAssembler

/-- The parts cut off a line at the cap, and what is left of it. -/
def cutOff (line : List UInt8) : List (List UInt8) × List UInt8 :=
  if maxLogChunk ≤ line.length then
    let boundary := floorBoundary (line.take maxLogChunk)
    let later := cutOff (line.drop boundary)
    (line.take boundary :: later.1, later.2)
  else ([], line)
termination_by line.length
decreasing_by
  rename_i hlong
  have hpositive : 0 < floorBoundary (line.take maxLogChunk) :=
    floorBoundary_pos (by rw [List.length_take, Nat.min_eq_left hlong])
  have hchunk : 0 < maxLogChunk := by decide
  rw [List.length_drop]
  omega

def parts (line : List UInt8) : List (List UInt8) :=
  (cutOff line).1 ++ if (cutOff line).2 = [] then [] else [(cutOff line).2]

theorem cutOff_long {line : List UInt8} (h : maxLogChunk ≤ line.length) :
    cutOff line =
      (line.take (floorBoundary (line.take maxLogChunk)) ::
          (cutOff (line.drop (floorBoundary (line.take maxLogChunk)))).1,
        (cutOff (line.drop (floorBoundary (line.take maxLogChunk)))).2) := by
  rw [cutOff, if_pos h]

theorem cutOff_short {line : List UInt8} (h : line.length < maxLogChunk) :
    cutOff line = ([], line) := by
  rw [cutOff, if_neg (Nat.not_le_of_lt h)]

@[simp] theorem cutOff_nil : cutOff [] = ([], []) := cutOff_short (by decide)

theorem parts_short {line : List UInt8} (h : line.length < maxLogChunk) (hsome : line ≠ []) :
    parts line = [line] := by
  rw [parts, cutOff_short h, if_neg hsome, List.nil_append]

theorem flatten_cutOff (line : List UInt8) :
    (cutOff line).1.flatten ++ (cutOff line).2 = line := by
  fun_induction cutOff line with
  | case1 line hlong boundary later ih =>
      rw [List.flatten_cons, List.append_assoc, ih, List.take_append_drop]
  | case2 => rfl

theorem flatten_parts (line : List UInt8) : (parts line).flatten = line := by
  rw [parts, List.flatten_append]
  split
  · rename_i hnone
    have hwhole := flatten_cutOff line
    rw [hnone] at hwhole
    exact hwhole
  · rw [List.flatten_singleton]
    exact flatten_cutOff line

/-- Cuts once made stay made as a line goes on. -/
theorem cutOff_append (front more : List UInt8) :
    cutOff (front ++ more) =
      ((cutOff front).1 ++ (cutOff ((cutOff front).2 ++ more)).1,
        (cutOff ((cutOff front).2 ++ more)).2) := by
  fun_induction cutOff front with
  | case1 front hlong boundary later ih =>
      have hboundary : boundary ≤ front.length :=
        Nat.le_trans (floorBoundary_le _) (List.length_take_le' _ _)
      have hwhole : maxLogChunk ≤ (front ++ more).length := by
        rw [List.length_append]
        omega
      rw [cutOff_long hwhole, List.take_append_of_le_length hlong,
        List.take_append_of_le_length hboundary, List.drop_append_of_le_length hboundary, ih]
      rfl
  | case2 => rfl

/-- A forced cut moves at least one byte. -/
theorem ne_nil_of_mem_cutOff {line part : List UInt8} (h : part ∈ (cutOff line).1) :
    part ≠ [] := by
  fun_induction cutOff line with
  | case1 line hlong boundary later ih =>
      rcases List.mem_cons.mp h with rfl | hlater
      · have hpositive : 0 < floorBoundary (line.take maxLogChunk) :=
          floorBoundary_pos (by rw [List.length_take, Nat.min_eq_left hlong])
        have hchunk : 0 < maxLogChunk := by decide
        rw [Ne, List.take_eq_nil_iff, not_or]
        refine ⟨Nat.ne_of_gt hpositive, ?_⟩
        rintro rfl
        rw [List.length_nil] at hlong
        omega
      · exact ih hlater
  | case2 => cases h

theorem ne_nil_of_mem_parts {line part : List UInt8} (h : part ∈ parts line) : part ≠ [] := by
  rcases List.mem_append.mp h with hcut | hrest
  · exact ne_nil_of_mem_cutOff hcut
  · split at hrest
    · cases hrest
    · rw [List.mem_singleton.mp hrest]
      assumption

theorem parts_ne_nil {line : List UInt8} (h : line ≠ []) : parts line ≠ [] := by
  intro hnone
  apply h
  rw [← flatten_parts line, hnone, List.flatten_nil]

/-- Pieces cut off a line at the cap. -/
def forcedCalls (pieces : List (List UInt8)) : List Call :=
  pieces.map fun piece ↦ .pushLine piece .cut

/-- The assembler cuts what it had and was given, and keeps what is left. -/
theorem feed_cutOff (assembler : LineAssembler) {bytes : List UInt8} (hfree : newline ∉ bytes) :
    (assembler.feed bytes).2 = forcedCalls (cutOff (assembler.pending ++ bytes)).1 ∧
      (assembler.feed bytes).1.pending = (cutOff (assembler.pending ++ bytes)).2 := by
  induction bytes generalizing assembler with
  | nil =>
      rw [List.append_nil, cutOff_short assembler.below]
      exact ⟨rfl, rfl⟩
  | cons byte rest ih =>
      obtain ⟨hbyte, hrest⟩ := not_or.mp (List.mem_cons.not.mp hfree)
      obtain ⟨hcalls, hpending⟩ := ih (assembler.feedByte byte).1 hrest
      rw [feed_cons, hcalls, hpending, List.append_cons]
      have hbelow := assembler.below
      rw [feedByte, if_neg (Ne.symm hbyte)]
      split
      · -- the pending bytes are as long as the cap, so the cut ends the first part
        rename_i hcap
        have hlength : (assembler.pending ++ [byte]).length = maxLogChunk := by
          rw [List.length_append, List.length_singleton] at hcap ⊢
          omega
        have hlong : maxLogChunk ≤ ((assembler.pending ++ [byte]) ++ rest).length := by
          rw [List.length_append, hlength]
          exact Nat.le_add_right _ _
        have hle := floorBoundary_le (assembler.pending ++ [byte])
        rw [cutOff_long hlong, List.take_left' hlength, List.take_append_of_le_length hle,
          List.drop_append_of_le_length hle]
        exact ⟨rfl, rfl⟩
      · exact ⟨rfl, rfl⟩

/-- The call a newline is behind what is left of its line. -/
def endingCall (line : List UInt8) : Call :=
  if (cutOff line).2 = [] ∧ line ≠ [] then .pushBreak else .pushLine (cutOff line).2 .newline

/-- The calls of a complete line: its cuts, then what is left at the newline. -/
theorem lineCalls_cutOff {line : List UInt8} (hfree : newline ∉ line) :
    lineCalls line = forcedCalls (cutOff line).1 ++ [endingCall line] := by
  obtain ⟨hcalls, hpending⟩ := feed_cutOff new hfree
  have hpending : (new.feed line).1.pending = (cutOff line).2 := hpending
  rw [lineCalls, feed_append, hcalls, feed_cons, feed_nil, List.append_nil, feedByte, if_pos rfl]
  refine congrArg (forcedCalls (cutOff line).1 ++ ·) ?_
  rw [endingCall, ← hpending]
  by_cases hcut : (new.feed line).1.cut = true
  · have hsome : line ≠ [] := by
      rintro rfl
      cases hcut
    rw [if_pos hcut, if_pos ⟨(new.feed line).1.empty_of_cut hcut, hsome⟩]
  · rw [if_neg hcut, if_neg]
    · rfl
    · rintro ⟨hnone, hsome⟩
      exact (feed_started new hfree (.inr hsome)).elim (fun h ↦ h hnone) hcut

/-- The calls of a line the output ends in. -/
theorem lastCalls_cutOff {last : List UInt8} (hfree : newline ∉ last) :
    lastCalls last = forcedCalls (parts last) := by
  obtain ⟨hcalls, hpending⟩ := feed_cutOff new hfree
  have hpending : (new.feed last).1.pending = (cutOff last).2 := hpending
  rw [lastCalls, hcalls, parts, forcedCalls, forcedCalls, List.map_append, finish]
  refine congrArg (forcedCalls (cutOff last).1 ++ ·) ?_
  rw [emit, ← hpending]
  by_cases hnone : (new.feed last).1.pending = []
  · rw [if_pos (by rw [hnone]; rfl), if_pos hnone]
    rfl
  · rw [if_neg (by simpa using hnone), if_neg hnone]
    rfl

end RalphexRunner.LineAssembler
