import RalphexRunner.Agent.Output
import RalphexRunner.Job.Cuts
import RalphexRunner.Job.Parts
import RalphexRunner.Text.Encoding

/-!
# The farm's copy of a run's output

The farm's copy of an output should be its lines, a carriage return before each newline removed.
The log stream removes the carriage return at the end of every piece it is handed, and a long line
comes in parts.  So the copy is right exactly where no part of a line but the last ends in a
carriage return: each one that does costs a byte.
-/

namespace RalphexRunner

namespace LineAssembler

theorem linesOf_newline (rest : List UInt8) : linesOf (newline :: rest) = [] :: linesOf rest := by
  simp only [linesOf, printedLines, if_true, List.cons_append]

theorem linesOf_cons {byte : UInt8} (h : byte ≠ newline) (rest : List UInt8) :
    linesOf (byte :: rest) = (linesOf rest).modifyHead (byte :: ·) := by
  unfold linesOf
  rw [printedLines]
  cases printedLines rest with
  | mk lines last =>
      simp only [if_neg h]
      cases lines <;> rfl

theorem linesOf_append {bytes : List UInt8} (h : newline ∉ bytes) (rest : List UInt8) :
    linesOf (bytes ++ rest) = (linesOf rest).modifyHead (bytes ++ ·) := by
  induction bytes with
  | nil => exact (congrFun List.modifyHead_id (linesOf rest)).symm
  | cons byte bytes ih =>
      obtain ⟨hbyte, hbytes⟩ := not_or.mp (List.mem_cons.not.mp h)
      rw [List.cons_append, linesOf_cons (Ne.symm hbyte), ih hbytes, List.modifyHead_modifyHead]
      rfl

theorem newline_notMem_encodeChar {character : Char} (h : character ≠ '\n') :
    newline ∉ String.utf8EncodeChar character :=
  fun hmem ↦ h (Utf8.ascii_of_mem_encodeChar (by decide) hmem).symm

/-- The lines of a text are texts of its characters. -/
theorem lines_encode (text : Text) :
    ∀ line ∈ linesOf (Utf8.encode text), ∃ piece ⊆ text, line = Utf8.encode piece := by
  induction text with
  | nil =>
      intro line hline
      exact ⟨[], List.nil_subset _, List.mem_singleton.mp hline⟩
  | cons character rest ih =>
      intro line hline
      have hmore {piece : Text} (h : piece ⊆ rest) : piece ⊆ character :: rest :=
        List.Subset.trans h (List.subset_cons_self character rest)
      rw [Utf8.encode_cons] at hline
      by_cases hnewline : character = '\n'
      · subst hnewline
        have hencoded : String.utf8EncodeChar '\n' = [newline] := rfl
        rw [hencoded, List.singleton_append, linesOf_newline] at hline
        rcases List.mem_cons.mp hline with rfl | hrest
        · exact ⟨[], List.nil_subset _, rfl⟩
        · obtain ⟨piece, hpiece, hsame⟩ := ih line hrest
          exact ⟨piece, hmore hpiece, hsame⟩
      · rw [linesOf_append (newline_notMem_encodeChar hnewline)] at hline
        cases hlines : linesOf (Utf8.encode rest) with
        | nil =>
            rw [hlines] at hline
            cases hline
        | cons first more =>
            rw [hlines, List.modifyHead_cons] at hline
            rcases List.mem_cons.mp hline with rfl | hbehind
            · obtain ⟨piece, hpiece, hfirst⟩ := ih first (by rw [hlines]; exact List.mem_cons_self)
              refine ⟨character :: piece, List.cons_subset_cons character hpiece, ?_⟩
              rw [hfirst, Utf8.encode_cons]
            · obtain ⟨piece, hpiece, hsame⟩ :=
                ih line (by rw [hlines]; exact List.mem_cons_of_mem _ hbehind)
              exact ⟨piece, hmore hpiece, hsame⟩

/-- In a text every cut falls between two characters. -/
theorem floorBoundary_encode (text : Text) (count : ℕ) : ∃ front back, text = front ++ back ∧
    floorBoundary ((Utf8.encode text).take count) = (Utf8.encode front).length := by
  obtain ⟨front, back, htext, ⟨hok, htake⟩ | herror⟩ := Utf8.check_take_encode text count
  · exact ⟨front, back, htext, by rw [floorBoundary, hok, htake]⟩
  · exact ⟨front, back, htext, by rw [floorBoundary, herror, Utf8.length_encode]⟩

/-- The parts of a text are texts of its characters. -/
theorem cutOff_encode (text : Text) :
    (∀ part ∈ (cutOff (Utf8.encode text)).1, ∃ piece ⊆ text, part = Utf8.encode piece) ∧
      ∃ piece ⊆ text, (cutOff (Utf8.encode text)).2 = Utf8.encode piece := by
  generalize hline : Utf8.encode text = line
  fun_induction cutOff line generalizing text with
  | case1 line hlong boundary later ih =>
      subst hline
      obtain ⟨front, back, rfl, hfloor⟩ := floorBoundary_encode text maxLogChunk
      have hback : Utf8.encode back = (Utf8.encode (front ++ back)).drop boundary := by
        rw [Utf8.encode_append, List.drop_left' hfloor.symm]
      have hfront : (Utf8.encode (front ++ back)).take boundary = Utf8.encode front := by
        rw [Utf8.encode_append, List.take_left' hfloor.symm]
      obtain ⟨hparts, piece, hpiece, hrest⟩ := ih back hback
      have hmore {piece : Text} (h : piece ⊆ back) : piece ⊆ front ++ back :=
        List.Subset.trans h (List.subset_append_right front back)
      refine ⟨fun part hpart ↦ ?_, piece, hmore hpiece, hrest⟩
      rcases List.mem_cons.mp hpart with rfl | hlater
      · exact ⟨front, List.subset_append_left _ _, hfront⟩
      · obtain ⟨piece, hpiece, hsame⟩ := hparts part hlater
        exact ⟨piece, hmore hpiece, hsame⟩
  | case2 line hshort => exact ⟨by simp, text, List.Subset.refl _, hline.symm⟩

theorem parts_encode (text : Text) :
    ∀ part ∈ parts (Utf8.encode text), ∃ piece ⊆ text, part = Utf8.encode piece := by
  obtain ⟨hcut, hrest⟩ := cutOff_encode text
  intro part hpart
  rcases List.mem_append.mp hpart with hpart | hpart
  · exact hcut part hpart
  · split at hpart
    · cases hpart
    · rw [List.mem_singleton.mp hpart]
      exact hrest

end LineAssembler

namespace LogStream

open LineAssembler (parts linesOf printedLines lineCalls lastCalls pump forcedCalls)

def carriageReturn : UInt8 := 13

/-- The bytes of a line without a carriage return that ends them. -/
def withoutReturn (line : List UInt8) : List UInt8 :=
  if line.getLast? = some carriageReturn then line.dropLast else line

/-- The copy of an output that knows of no cuts. -/
def copyOf (bytes : List UInt8) : List UInt8 :=
  (printedLines bytes).1.flatMap (fun line ↦ withoutReturn line ++ [newline]) ++
    withoutReturn (printedLines bytes).2

/-- No part of a line but the last ends in a carriage return. -/
def CutsNoReturn (line : List UInt8) : Prop :=
  ∀ part ∈ (parts line).dropLast, part.getLast? ≠ some carriageReturn

/-- The bytes of a text end in that of a carriage return exactly if the text ends in one. -/
theorem getLast?_encode (text : Text) (character : Char) :
    (Utf8.encode (text ++ [character])).getLast? = some carriageReturn ↔ character = '\r' := by
  rw [Utf8.encode_append, List.getLast?_append]
  constructor
  · intro hlast
    have hsome : (Utf8.encode [character]).getLast? = some carriageReturn := by
      cases hend : (Utf8.encode [character]).getLast? with
      | none =>
          have hlength := congrArg List.length (List.getLast?_eq_none_iff.mp hend)
          have hpositive := character.utf8Size_pos
          rw [Utf8.length_encode, Utf8.size_cons, List.length_nil] at hlength
          omega
      | some byte =>
          rw [hend] at hlast
          exact hlast
    have hmem : carriageReturn ∈ Utf8.encode [character] := List.mem_of_getLast? hsome
    exact (List.mem_singleton.mp (Utf8.ascii_of_mem_encode (by decide) hmem)).symm
  · rintro rfl
    rfl

theorem encode_dropCarriageReturn (text : Text) :
    Utf8.encode (dropCarriageReturn text) = withoutReturn (Utf8.encode text) := by
  induction text using List.reverseRecOn with
  | nil => rfl
  | append_singleton text character =>
      unfold dropCarriageReturn withoutReturn
      rw [List.getLast?_concat, List.dropLast_concat]
      by_cases hreturn : character = '\r'
      · rw [if_pos (by rw [hreturn]), if_pos ((getLast?_encode text character).mpr hreturn),
          Utf8.encode_append, hreturn]
        exact (List.dropLast_concat).symm
      · rw [if_neg (by simpa using hreturn),
          if_neg fun hlast ↦ hreturn ((getLast?_encode text character).mp hlast)]

theorem dropCarriageReturn_subset (text : Text) : dropCarriageReturn text ⊆ text := by
  unfold dropCarriageReturn
  split
  · exact List.dropLast_subset text
  · exact List.Subset.refl text

/-- What a piece of plain text adds to the farm's copy. -/
theorem lineBytes_encode {text : Text} (h : Ansi.esc ∉ text) :
    lineBytes (Utf8.encode text) .cut = withoutReturn (Utf8.encode text) := by
  have hclean : Ansi.esc ∉ dropCarriageReturn text := fun hmem ↦
    h (dropCarriageReturn_subset text hmem)
  rw [lineBytes, lineText, Utf8.lossy_encode, (Ansi.plain_of_esc_notMem hclean).1,
    encode_dropCarriageReturn, List.append_nil]

theorem lineBytes_newline (line : List UInt8) :
    lineBytes line .newline = lineBytes line .cut ++ [newline] := by
  rw [lineBytes, lineBytes, List.append_nil]

/-- The bytes a call adds to the outgoing buffer. -/
def callBytes (call : LineAssembler.Call) : List UInt8 := call.action.bytes

theorem flatMap_bytes {actions : List Action} (h : Unwritten actions) :
    actions.flatMap Action.bytes = (calls actions).flatMap callBytes := by
  induction actions with
  | nil => rfl
  | cons action rest ih =>
      have hrest : Unwritten rest := fun bytes hmem ↦ h bytes (List.mem_cons_of_mem _ hmem)
      rw [List.flatMap_cons, ih hrest]
      cases action with
      | write bytes => exact absurd List.mem_cons_self (h bytes)
      | pushLine line terminator | pushBreak => rfl
      | _ => rfl

theorem flatMap_forcedCalls (pieces : List (List UInt8)) :
    (forcedCalls pieces).flatMap callBytes = pieces.flatMap fun piece ↦ lineBytes piece .cut := by
  rw [forcedCalls, List.flatMap_map]
  rfl

/-- A complete line adds its parts and one newline. -/
theorem lineCalls_bytes {line : List UInt8} (hfree : LineAssembler.newline ∉ line) :
    (lineCalls line).flatMap callBytes =
      (parts line).flatMap (fun part ↦ lineBytes part .cut) ++ [newline] := by
  rw [LineAssembler.lineCalls_cutOff hfree, List.flatMap_append, flatMap_forcedCalls,
    List.flatMap_singleton, parts, List.flatMap_append, List.append_assoc]
  refine congrArg _ ?_
  rw [LineAssembler.endingCall]
  by_cases hnone : (LineAssembler.cutOff line).2 = []
  · rw [if_pos hnone]
    split
    · rfl
    · rw [hnone]
      rfl
  · rw [if_neg fun h ↦ hnone h.1, if_neg hnone, List.flatMap_singleton]
    exact lineBytes_newline _

theorem lastCalls_bytes {last : List UInt8} (hfree : LineAssembler.newline ∉ last) :
    (lastCalls last).flatMap callBytes = (parts last).flatMap fun part ↦ lineBytes part .cut := by
  rw [LineAssembler.lastCalls_cutOff hfree, flatMap_forcedCalls]

/-- How many carriage returns of a line the cuts take out of it. -/
def lostReturns (line : List UInt8) : ℕ :=
  (parts line).dropLast.countP fun part ↦ part.getLast? = some carriageReturn

theorem lostReturns_eq_zero_iff (line : List UInt8) : lostReturns line = 0 ↔ CutsNoReturn line := by
  rw [lostReturns, List.countP_eq_zero]
  simp [CutsNoReturn]

theorem withoutReturn_append (front : List UInt8) {last : List UInt8} (h : last ≠ []) :
    withoutReturn (front ++ last) = front ++ withoutReturn last := by
  have hlast : (front ++ last).getLast? = last.getLast? := by
    rw [List.getLast?_append]
    cases hend : last.getLast? with
    | none => exact absurd (List.getLast?_eq_none_iff.mp hend) h
    | some byte => rfl
  unfold withoutReturn
  rw [hlast]
  split
  · exact List.dropLast_append_of_ne_nil h
  · rfl

/-- Each part but the last that ends in a carriage return costs one byte, and nothing else is
lost. -/
theorem length_parts (pieces : List (List UInt8)) :
    (pieces.flatMap withoutReturn).length +
      pieces.countP (fun part ↦ part.getLast? = some carriageReturn) = pieces.flatten.length := by
  induction pieces with
  | nil => rfl
  | cons piece rest ih =>
      rw [List.flatMap_cons, List.flatten_cons, List.length_append, List.length_append,
        List.countP_cons, ← ih]
      unfold withoutReturn
      split
      · rename_i hreturn
        have hsome : piece ≠ [] := by
          rintro rfl
          cases hreturn
        have hpositive := List.length_pos_iff.mpr hsome
        rw [List.length_dropLast]
        simp only [hreturn, decide_true, if_true]
        omega
      · rename_i hreturn
        simp only [hreturn, decide_false, Bool.false_eq_true, if_false]
        omega

/-- The parts of a line before its last one, and the last. -/
theorem parts_split (line : List UInt8) : (line = [] ∧ parts line = []) ∨
    ∃ front last, parts line = front ++ [last] ∧ line = front.flatten ++ last ∧ last ≠ [] := by
  rcases List.eq_nil_or_concat' (parts line) with hnone | ⟨front, last, hparts⟩
  · left
    refine ⟨?_, hnone⟩
    by_contra hsome
    exact LineAssembler.parts_ne_nil hsome hnone
  · right
    refine ⟨front, last, hparts, ?_, ?_⟩
    · rw [← LineAssembler.flatten_parts line, hparts, List.flatten_append, List.flatten_singleton]
    · exact LineAssembler.ne_nil_of_mem_parts (hparts ▸ List.mem_append_right _
        (List.mem_singleton_self last))

theorem length_line (line : List UInt8) :
    ((parts line).flatMap withoutReturn).length + lostReturns line =
      (withoutReturn line).length := by
  rcases parts_split line with ⟨rfl, hnone⟩ | ⟨front, last, hparts, hline, hlast⟩
  · rw [lostReturns, hnone]
    rfl
  · have hfront := length_parts front
    rw [lostReturns, hparts, List.dropLast_concat, List.flatMap_append, List.flatMap_singleton,
      hline, withoutReturn_append _ hlast, List.length_append, List.length_append]
    omega

theorem flatMap_of_cutsNoReturn {line : List UInt8} (h : CutsNoReturn line) :
    (parts line).flatMap withoutReturn = withoutReturn line := by
  rcases parts_split line with ⟨rfl, hnone⟩ | ⟨front, last, hparts, hline, hlast⟩
  · rw [hnone]
    rfl
  · rw [CutsNoReturn, hparts, List.dropLast_concat] at h
    have hkept : front.flatMap withoutReturn = front.flatten := by
      rw [List.flatMap_def]
      congr 1
      calc
        _ = front.map id := List.map_congr_left fun part hpart ↦ if_neg (h part hpart)
        _ = front := List.map_id front
    rw [hparts, hline, List.flatMap_append, List.flatMap_singleton, hkept,
      withoutReturn_append _ hlast]

/-! ## The bytes of an output -/

/-- The copy the cuts leave of an output. -/
def handedOf (bytes : List UInt8) : List UInt8 :=
  (printedLines bytes).1.flatMap
      (fun line ↦ (parts line).flatMap withoutReturn ++ [newline]) ++
    (parts (printedLines bytes).2).flatMap withoutReturn

/-- The carriage returns the cuts take out of an output. -/
def lostOf (bytes : List UInt8) : ℕ := ((linesOf bytes).map lostReturns).sum

theorem length_lines (lines : List (List UInt8)) :
    (lines.flatMap fun line ↦ (parts line).flatMap withoutReturn ++ [newline]).length +
        (lines.map lostReturns).sum =
      (lines.flatMap fun line ↦ withoutReturn line ++ [newline]).length := by
  induction lines with
  | nil => rfl
  | cons line rest ih =>
      have hline := length_line line
      rw [List.flatMap_cons, List.flatMap_cons, List.map_cons, List.sum_cons]
      simp only [List.length_append]
      omega

theorem length_handedOf (bytes : List UInt8) :
    (handedOf bytes).length + lostOf bytes = (copyOf bytes).length := by
  have hlines := length_lines (printedLines bytes).1
  have hlast := length_line (printedLines bytes).2
  rw [handedOf, lostOf, copyOf, linesOf, List.map_append, List.map_singleton, List.sum_append,
    List.sum_singleton, List.length_append, List.length_append]
  omega

/-- The cuts change the copy of an output only where they fall behind a carriage return. -/
theorem handedOf_eq_iff (bytes : List UInt8) :
    handedOf bytes = copyOf bytes ↔ ∀ line ∈ linesOf bytes, CutsNoReturn line := by
  constructor
  · intro hsame line hline
    have hnone : lostOf bytes = 0 := by
      have hlength := length_handedOf bytes
      rw [hsame] at hlength
      omega
    rw [← lostReturns_eq_zero_iff]
    exact List.sum_eq_zero_iff_forall_eq_nat.mp hnone _ (List.mem_map_of_mem hline)
  · intro hclean
    rw [handedOf, copyOf, flatMap_of_cutsNoReturn (hclean _ (List.mem_append_right _
      (List.mem_singleton_self _)))]
    congr 1
    exact List.flatMap_congr fun line hline ↦ by
      rw [flatMap_of_cutsNoReturn (hclean line (List.mem_append_left _ hline))]

/-- What the parts of a line of plain text add to the farm's copy. -/
theorem parts_bytes {text : Text} (h : Ansi.esc ∉ text) :
    ((parts (Utf8.encode text)).flatMap fun part ↦ lineBytes part .cut) =
      (parts (Utf8.encode text)).flatMap withoutReturn := by
  refine List.flatMap_congr fun part hpart ↦ ?_
  obtain ⟨piece, hpiece, rfl⟩ := LineAssembler.parts_encode text part hpart
  exact lineBytes_encode fun hmem ↦ h (hpiece hmem)

/-- The calls of a pump that reads plain text append what the cuts leave of it. -/
theorem pump_bytes {reads : List (List UInt8)} {text : Text}
    (htext : reads.flatten = Utf8.encode text) (hclean : Ansi.esc ∉ text) :
    (pump reads).flatMap callBytes = handedOf reads.flatten := by
  obtain ⟨hlines, hlast⟩ := LineAssembler.printedLines_newline_free reads.flatten
  have hparts : ∀ line ∈ linesOf reads.flatten,
      ((parts line).flatMap fun part ↦ lineBytes part .cut) =
        (parts line).flatMap withoutReturn := by
    intro line hline
    rw [htext] at hline
    obtain ⟨piece, hpiece, rfl⟩ := LineAssembler.lines_encode text line hline
    exact parts_bytes fun hmem ↦ hclean (hpiece hmem)
  rw [LineAssembler.pump_eq_lines, List.flatMap_append, List.flatMap_assoc, handedOf,
    lastCalls_bytes hlast, hparts _ (List.mem_append_right _ (List.mem_singleton_self _))]
  congr 1
  exact List.flatMap_congr fun line hline ↦ by
    rw [lineCalls_bytes (hlines line hline), hparts line (List.mem_append_left _ hline)]

theorem appended_eq_iff {reads : List (List UInt8)} {text : Text}
    (htext : reads.flatten = Utf8.encode text) (hclean : Ansi.esc ∉ text) {actions : List Action}
    {stream : LogStream} (hexec : machine.exec new actions = some stream)
    (hcalls : calls actions = pump reads) (hunwritten : Unwritten actions) :
    stream.appended = copyOf reads.flatten ↔
      ∀ line ∈ linesOf reads.flatten, CutsNoReturn line := by
  rw [exec_appended hexec, flatMap_bytes hunwritten, hcalls, pump_bytes htext hclean]
  exact handedOf_eq_iff reads.flatten

/-- A text as long as the cap is cut off every line it opens. -/
theorem cutOff_encode_front {front : Text} (h : Utf8.size front = maxLogChunk) (back : Text) :
    LineAssembler.cutOff (Utf8.encode (front ++ back)) =
      (Utf8.encode front :: (LineAssembler.cutOff (Utf8.encode back)).1,
        (LineAssembler.cutOff (Utf8.encode back)).2) := by
  have hlength : (Utf8.encode front).length = maxLogChunk := by rw [Utf8.length_encode, h]
  have hok : LineAssembler.floorBoundary (Utf8.encode front) = (Utf8.encode front).length := by
    have hcheck := Utf8.checkFrom_encode front 0 []
    rw [List.append_nil] at hcheck
    rw [LineAssembler.floorBoundary, Utf8.check, hcheck]
    rfl
  have hlong : maxLogChunk ≤ (Utf8.encode (front ++ back)).length := by
    rw [Utf8.encode_append, List.length_append, hlength]
    exact Nat.le_add_right _ _
  rw [LineAssembler.cutOff_long hlong, Utf8.encode_append, List.take_left' hlength, hok,
    List.take_left, List.drop_left]

theorem parts_encode_front {front : Text} (h : Utf8.size front = maxLogChunk) (back : Text) :
    parts (Utf8.encode (front ++ back)) = Utf8.encode front :: parts (Utf8.encode back) := by
  rw [parts, cutOff_encode_front h]
  rfl

theorem linesOf_encode_newline {text : Text} (hfree : '\n' ∉ text) :
    linesOf (Utf8.encode (text ++ ['\n'])) = [Utf8.encode text, []] := by
  have hnewline : LineAssembler.newline ∉ Utf8.encode text := fun hmem ↦
    hfree (Utf8.ascii_of_mem_encode (by decide) hmem)
  rw [Utf8.encode_append, LineAssembler.linesOf_append hnewline,
    show Utf8.encode ['\n'] = [LineAssembler.newline] from rfl, LineAssembler.linesOf_newline,
    List.modifyHead_cons, List.append_nil]
  rfl

/-- A line one letter over the cap is cut once, behind the last letter the cap has room for. -/
theorem cutsNoReturn_over {letters : Text} {last : Char}
    (h : Utf8.size (letters ++ [last]) = maxLogChunk) :
    CutsNoReturn (Utf8.encode (letters ++ [last] ++ ['b'])) ↔ last ≠ '\r' := by
  have hparts : (parts (Utf8.encode (letters ++ [last] ++ ['b']))).dropLast =
      [Utf8.encode (letters ++ [last])] := by
    rw [parts_encode_front h, LineAssembler.parts_short (by decide) (by decide)]
    rfl
  rw [CutsNoReturn, hparts, List.forall_mem_singleton, Ne, getLast?_encode]

theorem notMem_letters (letters : ℕ) {character : Char} (hletter : character ≠ 'a')
    {more : Text} (hmore : character ∉ more) : character ∉ List.replicate letters 'a' ++ more := by
  simp [hletter, hmore]

theorem size_letters {letters : ℕ} (h : letters + 1 = maxLogChunk) {last : Char}
    (hlast : last.utf8Size = 1) :
    Utf8.size (List.replicate letters 'a' ++ [last]) = maxLogChunk := by
  rw [Utf8.size_append, size_replicate, Utf8.size_cons, hlast]
  exact h

/-- **The cap in the farm's copy.**  However an output of plain text is read and whatever the
flusher does meanwhile, the bytes appended to the outgoing buffer are the lines without the
carriage return that ends them, exactly where no cut of a line falls behind a carriage return. -/
theorem farm_copy_hides_the_cap {reads : List (List UInt8)} {text : Text}
    (htext : reads.flatten = Utf8.encode text) (hclean : Ansi.esc ∉ text) {actions : List Action}
    {stream : LogStream} (hexec : machine.exec new actions = some stream)
    (hcalls : calls actions = pump reads) (hunwritten : Unwritten actions) :
    stream.appended = copyOf reads.flatten ↔
      ∀ line ∈ linesOf reads.flatten, CutsNoReturn line :=
  appended_eq_iff htext hclean hexec hcalls hunwritten

/-- A line one letter over the cap, which is cut behind a letter. -/
theorem farm_copy_hides_the_cap_cut : ∃ stream,
    machine.exec new ((pump [Utf8.encode (List.replicate 65535 'a'), [98, 98, 10]]).map
        LineAssembler.Call.action) = some stream ∧
      stream.appended = copyOf (Utf8.encode (List.replicate 65535 'a' ++ ['b', 'b', '\n'])) := by
  have hencoded : [Utf8.encode (List.replicate 65535 'a'), [98, 98, 10]].flatten =
      Utf8.encode (List.replicate 65535 'a' ++ ['b', 'b', '\n']) := by
    rw [Utf8.encode_append]
    rfl
  have hclean : Ansi.esc ∉ List.replicate 65535 'a' ++ ['b', 'b', '\n'] :=
    notMem_letters _ (by decide) (by decide)
  have hfree : '\n' ∉ List.replicate 65535 'a' ++ ['b', 'b'] :=
    notMem_letters _ (by decide) (by decide)
  have hsplit : List.replicate 65535 'a' ++ ['b', 'b', '\n'] =
      (List.replicate 65535 'a' ++ ['b', 'b']) ++ ['\n'] := by
    rw [List.append_assoc]
    rfl
  have hfront : List.replicate 65535 'a' ++ ['b', 'b'] =
      List.replicate 65535 'a' ++ ['b'] ++ ['b'] := by
    rw [List.append_assoc]
    rfl
  refine ⟨_, exec_calls new _, ?_⟩
  rw [← hencoded]
  apply (farm_copy_hides_the_cap hencoded hclean (exec_calls new _) (calls_map_action _)
    (unwritten_map_action _)).mpr
  intro line hline
  rw [hencoded, hsplit, linesOf_encode_newline hfree] at hline
  rcases List.mem_cons.mp hline with rfl | hline
  · rw [hfront]
    apply (cutsNoReturn_over (size_letters rfl rfl)).mpr
    decide
  · rw [List.mem_singleton.mp hline, CutsNoReturn, parts,
      LineAssembler.cutOff_short (by decide), if_pos rfl]
    exact fun part hpart ↦ absurd hpart List.not_mem_nil

/-- Letters up to the cap, the last of them a carriage return. -/
def returnAt (letters : ℕ) : Text := List.replicate letters 'a' ++ ['\r']

theorem farm_copy_loses_a_return : ∃ stream,
    machine.exec new ((pump [Utf8.encode (returnAt 65535 ++ ['b', '\n'])]).map
        LineAssembler.Call.action) = some stream ∧
      stream.appended ≠ copyOf (Utf8.encode (returnAt 65535 ++ ['b', '\n'])) := by
  have hgroup (more : Text) : returnAt 65535 ++ more =
      List.replicate 65535 'a' ++ ('\r' :: more) := List.append_assoc ..
  have hclean : Ansi.esc ∉ returnAt 65535 ++ ['b', '\n'] := by
    rw [hgroup]
    exact notMem_letters _ (by decide) (by decide)
  have hfree : '\n' ∉ returnAt 65535 ++ ['b'] := by
    rw [hgroup]
    exact notMem_letters _ (by decide) (by decide)
  have hsplit : returnAt 65535 ++ ['b', '\n'] = (returnAt 65535 ++ ['b']) ++ ['\n'] := by
    rw [List.append_assoc]
    rfl
  refine ⟨_, exec_calls new _, fun hsame ↦ ?_⟩
  have hlines := (appended_eq_iff (List.flatten_singleton) hclean (exec_calls new _)
    (calls_map_action _) (unwritten_map_action _)).mp (hsame.trans (by rw [List.flatten_singleton]))
  rw [List.flatten_singleton, hsplit, linesOf_encode_newline hfree] at hlines
  exact (cutsNoReturn_over (size_letters rfl rfl)).mp (hlines _ List.mem_cons_self) rfl

end LogStream

end RalphexRunner
