import RalphexRunner.Agent.Copy

/-!
# Phases and whole lines

The tracker is shown the pieces of a line, not the line.  What it asks for should be told by the
complete lines alone: at every moment the phases of the snapshots asked for are those of a tracker
that is shown each complete line once, and when the output has ended, the bytes behind the last
newline as a line of their own.  That is so exactly where no part cut off a line asks for anything
and what is left at its end asks for what the whole line does.
-/

namespace RalphexRunner

namespace PhaseTracker

def asks (phase : Phase) (line : Text) : Option Phase :=
  match marker line with
  | none => none
  | some .taskIteration => some .tasks
  | some .review => if phase = .review then none else some .review

/-- The phases of the snapshots some lines ask for, one after the other. -/
def trail (phase : Phase) : List Text → List Phase
  | [] => []
  | line :: rest =>
      match asks phase line with
      | none => trail phase rest
      | some next => next :: trail next rest

def phaseAfter (phase : Phase) (lines : List Text) : Phase := (trail phase lines).getLastD phase

/-- What a tracker is used for while its phase is open: it is shown a line, its request is taken,
or its wake-up is consumed. -/
inductive Use where
  | observe (line : Text)
  | take
  | wake

def shown (uses : List Use) : List Text :=
  uses.filterMap fun
    | .observe line => some line
    | .take | .wake => none

/-- The phase of the snapshot a tracker requests when it is shown a line. -/
def requested (tracker : PhaseTracker) (line : Text) : Option Phase :=
  let next := tracker.takeRequest.2.observe line
  if next.request = .pending then some next.phase else none

/-- The phases of the snapshots a tracker requests, one after the other. -/
def asked (tracker : PhaseTracker) : List Use → List Phase
  | [] => []
  | .observe line :: rest => (tracker.requested line).toList ++ asked (tracker.observe line) rest
  | .take :: rest => asked tracker.takeRequest.2 rest
  | .wake :: rest => asked (tracker.wakes.getD tracker) rest

/-- A line asks for the snapshot a tracker in the same phase makes of it. -/
theorem asks_eq_some {phase next : Phase} {line : Text} (h : asks phase line = some next) :
    ∃ found, marker line = some found ∧
      ∀ tracker : PhaseTracker, tracker.phase = phase →
        tracker.moves found = { tracker with phase := next }.requests := by
  unfold asks at h
  split at h
  · cases h
  · rename_i hmarker
    cases h
    exact ⟨.taskIteration, hmarker, fun tracker _ ↦ rfl⟩
  · rename_i hmarker
    split at h
    · cases h
    · rename_i hphase
      cases h
      refine ⟨.review, hmarker, fun tracker hsame ↦ ?_⟩
      rw [moves, if_neg (by rw [hsame]; exact hphase)]

theorem asks_eq_none {phase : Phase} {line : Text} (h : asks phase line = none) :
    marker line = none ∨ (marker line = some .review ∧ phase = .review) := by
  unfold asks at h
  split at h
  · exact .inl ‹_›
  · cases h
  · rename_i hmarker
    split at h
    · exact .inr ⟨hmarker, ‹_›⟩
    · cases h

/-- An open tracker moves on a line that asks for a snapshot, and on no other. -/
theorem observe_eq {tracker : PhaseTracker} (h : tracker.freeze = .open) (line : Text) :
    tracker.observe line = match asks tracker.phase line with
      | none => tracker
      | some next => { tracker with phase := next }.requests := by
  cases hasks : asks tracker.phase line with
  | none =>
      unfold observe
      rcases asks_eq_none hasks with hmarker | ⟨hmarker, hphase⟩
      · rw [hmarker]
      · rw [hmarker, h]
        exact if_pos hphase
  | some next =>
      obtain ⟨found, hmarker, hmoves⟩ := asks_eq_some hasks
      unfold observe
      rw [hmarker, h]
      exact (hmoves tracker rfl).trans (by rw [h])

theorem requested_eq {tracker : PhaseTracker} (h : tracker.freeze = .open) (line : Text) :
    tracker.requested line = asks tracker.phase line := by
  have hidle : tracker.takeRequest.2.freeze = .open := h
  have hphase : tracker.takeRequest.2.phase = tracker.phase := rfl
  rw [requested, observe_eq hidle, hphase]
  cases asks tracker.phase line <;> rfl

/-- Whatever is taken or consumed meanwhile, an open tracker asks for what the lines it is shown
ask for. -/
theorem asked_eq_trail {tracker : PhaseTracker} (h : tracker.freeze = .open) (uses : List Use) :
    tracker.asked uses = trail tracker.phase (shown uses) := by
  induction uses generalizing tracker with
  | nil => rfl
  | cons first rest ih =>
      cases first with
      | observe line =>
          have hshown : shown (.observe line :: rest) = line :: shown rest := rfl
          rw [asked, requested_eq h, observe_eq h, hshown, trail]
          cases hasks : asks tracker.phase line with
          | none => exact ih h
          | some next => exact congrArg (next :: ·) (ih h)
      | take => exact ih h
      | wake =>
          have hshown : shown (.wake :: rest) = shown rest := rfl
          rw [asked, hshown]
          unfold wakes
          split
          · exact ih h
          · exact ih h

theorem trail_cons (phase : Phase) (line : Text) (rest : List Text) :
    trail phase (line :: rest) =
      (asks phase line).toList ++ trail ((asks phase line).getD phase) rest := by
  rw [trail]
  cases asks phase line <;> rfl

theorem phaseAfter_cons (phase : Phase) (line : Text) (rest : List Text) :
    phaseAfter phase (line :: rest) = phaseAfter ((asks phase line).getD phase) rest := by
  rw [phaseAfter, trail_cons]
  cases asks phase line with
  | none => rfl
  | some next => exact List.getLastD_cons ..

theorem trail_append (phase : Phase) (first second : List Text) :
    trail phase (first ++ second) = trail phase first ++ trail (phaseAfter phase first) second := by
  induction first generalizing phase with
  | nil => rfl
  | cons line rest ih =>
      rw [List.cons_append, trail_cons, ih, trail_cons, phaseAfter_cons, List.append_assoc]

theorem trail_singleton (phase : Phase) (line : Text) :
    trail phase [line] = (asks phase line).toList := by
  rw [trail_cons]
  exact List.append_nil _

/-- Lines ask for nothing together where none of them does. -/
theorem trail_eq_nil_iff (phase : Phase) (lines : List Text) :
    trail phase lines = [] ↔ ∀ line ∈ lines, asks phase line = none := by
  induction lines with
  | nil => simp [trail]
  | cons line rest ih =>
      rw [trail_cons, List.append_eq_nil_iff, Option.toList_eq_nil_iff, List.forall_mem_cons]
      refine and_congr_right fun hnone ↦ ?_
      rw [hnone]
      exact ih

theorem phaseAfter_of_trail_eq_nil {phase : Phase} {lines : List Text}
    (h : trail phase lines = []) : phaseAfter phase lines = phase := by
  rw [phaseAfter, h]
  rfl

end PhaseTracker


namespace LineAssembler

open PhaseTracker

theorem linesOf_lines {lines : List (List UInt8)} (hfree : ∀ line ∈ lines, newline ∉ line)
    (rest : List UInt8) :
    linesOf (lines.flatMap (· ++ [newline]) ++ rest) = lines ++ linesOf rest := by
  induction lines with
  | nil => rfl
  | cons line more ih =>
      obtain ⟨hline, hmore⟩ := List.forall_mem_cons.mp hfree
      rw [List.flatMap_cons, List.append_assoc, List.append_assoc, List.singleton_append,
        linesOf_append hline, linesOf_newline, ih hmore, List.modifyHead_cons, List.append_nil]
      rfl

/-- The lines of a front of an output are lines of the output, and its unfinished line opens the
next one. -/
theorem linesOf_front (front more : List UInt8) : ∃ rest after,
    linesOf (front ++ more) =
      (printedLines front).1 ++ ((printedLines front).2 ++ rest) :: after := by
  obtain ⟨hlines, hlast⟩ := printedLines_newline_free front
  have hwhole : front ++ more = (printedLines front).1.flatMap (· ++ [newline]) ++
      ((printedLines front).2 ++ more) := by
    rw [← List.append_assoc, printedLines_join]
  cases hmore : linesOf more with
  | nil => exact absurd hmore (by simp [linesOf])
  | cons rest after =>
      refine ⟨rest, after, ?_⟩
      rw [hwhole, linesOf_lines hlines, linesOf_append hlast, hmore, List.modifyHead_cons]

/-- The calls made while an output is read: those of its complete lines, and the cuts of the
unfinished one. -/
theorem feed_calls (bytes : List UInt8) :
    (new.feed bytes).2 = (printedLines bytes).1.flatMap lineCalls ++
      forcedCalls (cutOff (printedLines bytes).2).1 := by
  have hlines (lines : List (List UInt8)) (rest : List UInt8) :
      (new.feed (lines.flatMap (· ++ [newline]) ++ rest)).2 =
        lines.flatMap lineCalls ++ (new.feed rest).2 := by
    induction lines with
    | nil => rfl
    | cons line more ih =>
        have hnew : (new.feed (line ++ [newline])).1 = new := by
          rw [feed_append, feed_cons]
          exact feedByte_newline _
        rw [List.flatMap_cons, List.append_assoc, feed_append, hnew, ih, List.flatMap_cons,
          List.append_assoc]
        rfl
  obtain ⟨-, hlast⟩ := printedLines_newline_free bytes
  have hjoined := hlines (printedLines bytes).1 (printedLines bytes).2
  rw [printedLines_join] at hjoined
  rw [hjoined, (feed_cutOff new hlast).1]
  rfl

/-- The text of a line or of a part of it, as the tracker sees it. -/
def plainText (line : List UInt8) : Text := Ansi.plain (LogStream.lineText line)

def texts (calls : List Call) : List Text :=
  calls.filterMap fun
    | .pushLine piece _ => some (plainText piece)
    | .pushBreak => none

theorem foldl_heard (tracker : PhaseTracker) (calls : List Call) :
    calls.foldl Run.heard tracker = (texts calls).foldl observe tracker := by
  induction calls generalizing tracker with
  | nil => rfl
  | cons call rest ih =>
      cases call <;> exact ih _

theorem texts_append (first second : List Call) :
    texts (first ++ second) = texts first ++ texts second :=
  List.filterMap_append

theorem texts_forcedCalls (pieces : List (List UInt8)) :
    texts (forcedCalls pieces) = pieces.map plainText := by
  induction pieces with
  | nil => rfl
  | cons piece rest ih => exact congrArg (plainText piece :: ·) ih

/-- What a complete line asks for, piece by piece. -/
theorem trail_lineCalls (phase : Phase) {line : List UInt8} (hfree : newline ∉ line) :
    trail phase (texts (lineCalls line)) = trail phase ((cutOff line).1.map plainText) ++
      (asks (phaseAfter phase ((cutOff line).1.map plainText))
        (plainText (cutOff line).2)).toList := by
  rw [lineCalls_cutOff hfree, texts_append, texts_forcedCalls, trail_append, ← trail_singleton]
  refine congrArg _ ?_
  rw [endingCall]
  split
  · rename_i hbreak
    rw [hbreak.1]
    rfl
  · rfl

/-- What the line an output ends in asks for, piece by piece. -/
theorem trail_lastCalls (phase : Phase) {last : List UInt8} (hfree : newline ∉ last) :
    trail phase (texts (lastCalls last)) = trail phase ((cutOff last).1.map plainText) ++
      (asks (phaseAfter phase ((cutOff last).1.map plainText))
        (plainText (cutOff last).2)).toList := by
  rw [lastCalls_cutOff hfree, texts_forcedCalls, parts, List.map_append, trail_append,
    ← trail_singleton]
  refine congrArg _ ?_
  split
  · rename_i hnone
    rw [hnone]
    rfl
  · rfl

/-! ## At every moment -/

/-- At every moment the snapshots asked for are those the complete lines ask for; when the output
has ended, what stands behind its last newline counts as a line. -/
structure MovesOnLines (bytes : List UInt8) : Prop where
  reading : ∀ reads uses, reads.flatten <+: bytes → shown uses = texts (new.feedAll reads).2 →
    PhaseTracker.new.asked uses = trail .setup ((printedLines reads.flatten).1.map plainText)
  ended : ∀ reads uses, reads.flatten = bytes → shown uses = texts (pump reads) →
    PhaseTracker.new.asked uses = trail .setup ((linesOf bytes).map plainText)

/-- In a phase, no part cut off a line asks for a snapshot, and what is left at its end asks for
the one the whole line asks for. -/
structure CutsQuietly (phase : Phase) (line : List UInt8) : Prop where
  forced : ∀ part ∈ (cutOff line).1, asks phase (plainText part) = none
  rest : asks phase (plainText (cutOff line).2) = asks phase (plainText line)

/-- Every line is cut quietly in the phase the lines before it leave. -/
def CutQuietly (bytes : List UInt8) : Prop :=
  ∀ before line after, linesOf bytes = before ++ line :: after →
    CutsQuietly (phaseAfter .setup (before.map plainText)) line

section Quiet

variable {phase : Phase} {line : List UInt8}

theorem forced_quiet_iff : (∀ part ∈ (cutOff line).1, asks phase (plainText part) = none) ↔
    trail phase ((cutOff line).1.map plainText) = [] := by
  rw [trail_eq_nil_iff, List.forall_mem_map]

/-- Behind quiet cuts, a line asks for what is left at its end. -/
theorem trail_lineCalls_of_quiet (h : trail phase ((cutOff line).1.map plainText) = [])
    (hfree : newline ∉ line) :
    trail phase (texts (lineCalls line)) = (asks phase (plainText (cutOff line).2)).toList := by
  rw [trail_lineCalls phase hfree, h, phaseAfter_of_trail_eq_nil h, List.nil_append]

theorem trail_lastCalls_of_quiet (h : trail phase ((cutOff line).1.map plainText) = [])
    (hfree : newline ∉ line) :
    trail phase (texts (lastCalls line)) = (asks phase (plainText (cutOff line).2)).toList := by
  rw [trail_lastCalls phase hfree, h, phaseAfter_of_trail_eq_nil h, List.nil_append]

theorem CutsQuietly.trail_line (h : CutsQuietly phase line) (hfree : newline ∉ line) :
    trail phase (texts (lineCalls line)) = trail phase [plainText line] := by
  rw [trail_lineCalls_of_quiet (forced_quiet_iff.mp h.forced) hfree, h.rest, trail_singleton]

theorem CutsQuietly.trail_last (h : CutsQuietly phase line) (hfree : newline ∉ line) :
    trail phase (texts (lastCalls line)) = trail phase [plainText line] := by
  rw [trail_lastCalls_of_quiet (forced_quiet_iff.mp h.forced) hfree, h.rest, trail_singleton]

/-- Where some texts ask for the same as some others, what follows does from the same phase. -/
theorem trail_append_iff {first second more others : List Text}
    (h : trail phase first = trail phase second) :
    trail phase (first ++ more) = trail phase (second ++ others) ↔
      trail (phaseAfter phase second) more = trail (phaseAfter phase second) others := by
  have hphase : phaseAfter phase first = phaseAfter phase second := by
    rw [phaseAfter, phaseAfter, h]
  rw [trail_append, trail_append, h, hphase]
  exact List.append_right_inj _

end Quiet

/-- Complete lines cut quietly ask for what they ask for as lines. -/
theorem trail_lines {lines : List (List UInt8)} (hfree : ∀ line ∈ lines, newline ∉ line)
    (h : ∀ before line after, lines = before ++ line :: after →
      CutsQuietly (phaseAfter .setup (before.map plainText)) line) :
    trail .setup (texts (lines.flatMap lineCalls)) = trail .setup (lines.map plainText) := by
  induction lines using List.reverseRecOn with
  | nil => rfl
  | append_singleton lines line ih =>
      have hline : newline ∉ line := hfree line (List.mem_append_right _ List.mem_cons_self)
      have hlines := ih (fun other hother ↦ hfree other (List.mem_append_left _ hother))
        fun before other after hsplit ↦ h before other (after ++ [line]) (by
          rw [hsplit, List.append_assoc, List.cons_append])
      rw [List.flatMap_append, texts_append, List.map_append, List.flatMap_singleton,
        trail_append_iff hlines]
      exact (h lines line [] rfl).trail_line hline

theorem printedLines_lines {lines : List (List UInt8)} {last : List UInt8}
    (hlines : ∀ line ∈ lines, newline ∉ line) (hlast : newline ∉ last) :
    printedLines (lines.flatMap (· ++ [newline]) ++ last) = (lines, last) := by
  have hjoined := linesOf_lines hlines last
  rw [linesOf, linesOf, printedLines_of_newline_free hlast, List.nil_append] at hjoined
  obtain ⟨hfirst, hsecond⟩ := List.append_inj' hjoined rfl
  exact Prod.ext hfirst (List.singleton_inj.mp hsecond)

theorem shown_observe (lines : List Text) : shown (lines.map .observe) = lines := by
  induction lines with
  | nil => rfl
  | cons line rest ih => exact congrArg (line :: ·) ih

/-- Where every line is cut quietly, the phases move on whole lines. -/
theorem movesOnLines_of_cutQuietly {bytes : List UInt8} (h : CutQuietly bytes) :
    MovesOnLines bytes := by
  constructor
  · rintro reads uses ⟨more, rfl⟩ hshown
    obtain ⟨hfree, -⟩ := printedLines_newline_free reads.flatten
    obtain ⟨rest, after, hlines⟩ := linesOf_front reads.flatten more
    rw [asked_eq_trail rfl, hshown, feedAll_eq_feed_flatten, feed_calls, texts_append,
      texts_forcedCalls]
    generalize printedLines reads.flatten = printed at hfree hlines ⊢
    have hbefore : trail .setup (texts (printed.1.flatMap lineCalls)) =
        trail .setup (printed.1.map plainText) :=
      trail_lines hfree fun before line later hsplit ↦
        h before line (later ++ (printed.2 ++ rest) :: after) (by
          rw [hlines, hsplit, List.append_assoc, List.cons_append])
    have hunfinished := (h _ _ _ hlines).forced
    rw [cutOff_append, List.forall_mem_append] at hunfinished
    have hquiet := forced_quiet_iff.mp hunfinished.1
    calc
      _ = trail .setup (printed.1.map plainText ++ []) :=
        (trail_append_iff hbefore).mpr hquiet
      _ = _ := by rw [List.append_nil]
  · rintro reads uses rfl hshown
    obtain ⟨hfree, hlast⟩ := printedLines_newline_free reads.flatten
    have hlines : linesOf reads.flatten =
        (printedLines reads.flatten).1 ++ [(printedLines reads.flatten).2] := rfl
    rw [asked_eq_trail rfl, hshown, pump_eq_lines, texts_append, hlines, List.map_append]
    generalize printedLines reads.flatten = printed at hfree hlast hlines ⊢
    have hbefore : trail .setup (texts (printed.1.flatMap lineCalls)) =
        trail .setup (printed.1.map plainText) :=
      trail_lines hfree fun before line later hsplit ↦
        h before line (later ++ [printed.2]) (by
          rw [hlines, hsplit, List.append_assoc, List.cons_append])
    exact (trail_append_iff hbefore).mpr ((h _ _ _ hlines).trail_last hlast)

/-- What the tracker asks for once some complete lines and a front of the next one are read. -/
theorem MovesOnLines.front {bytes : List UInt8} (h : MovesOnLines bytes)
    {lines : List (List UInt8)} {last more : List UInt8}
    (hlines : ∀ line ∈ lines, newline ∉ line) (hlast : newline ∉ last)
    (hbytes : bytes = lines.flatMap (· ++ [newline]) ++ last ++ more) :
    trail .setup (texts (lines.flatMap lineCalls) ++ (cutOff last).1.map plainText) =
      trail .setup (lines.map plainText) := by
  have hread := h.reading [lines.flatMap (· ++ [newline]) ++ last]
  rw [List.flatten_singleton, feedAll_eq_feed_flatten, List.flatten_singleton, feed_calls,
    printedLines_lines hlines hlast, texts_append, texts_forcedCalls] at hread
  rw [← hread _ ⟨more, hbytes.symm⟩ (shown_observe _), asked_eq_trail rfl, shown_observe]
  rfl

/-- The output ends in a line of it, or goes on with its newline. -/
theorem bytes_of_linesOf {bytes line : List UInt8} {before after : List (List UInt8)}
    (h : linesOf bytes = before ++ line :: after) :
    (bytes = before.flatMap (· ++ [newline]) ++ line ∧ linesOf bytes = before ++ [line]) ∨
      ∃ more, bytes = before.flatMap (· ++ [newline]) ++ line ++ newline :: more := by
  have hwhole := printedLines_join bytes
  rcases List.eq_nil_or_concat' after with rfl | ⟨init, last, rfl⟩
  · obtain ⟨hlines, hlast⟩ := List.append_inj' h rfl
    rw [hlines, List.singleton_inj.mp hlast] at hwhole
    exact .inl ⟨hwhole.symm, h⟩
  · rw [linesOf, ← List.cons_append, ← List.append_assoc] at h
    obtain ⟨hlines, hlast⟩ := List.append_inj' h rfl
    rw [hlines, List.flatMap_append, List.flatMap_cons] at hwhole
    refine .inr ⟨init.flatMap (· ++ [newline]) ++ (printedLines bytes).2, ?_⟩
    refine hwhole.symm.trans ?_
    simp only [List.append_assoc, List.cons_append, List.nil_append]

/-- Conversely, phases that move on whole lines are those of lines cut quietly. -/
theorem cutQuietly_of_movesOnLines {bytes : List UInt8} (h : MovesOnLines bytes) :
    CutQuietly bytes := by
  intro before line after hsplit
  have hfree : ∀ other ∈ before ++ line :: after, newline ∉ other := fun other hother ↦
    newline_notMem_linesOf (hsplit ▸ hother)
  obtain ⟨hbefore, hbehind⟩ := List.forall_mem_append.mp hfree
  have hline := hbehind line List.mem_cons_self
  obtain ⟨more, hbytes⟩ : ∃ more, bytes = before.flatMap (· ++ [newline]) ++ line ++ more := by
    rcases bytes_of_linesOf hsplit with ⟨hends, -⟩ | ⟨more, hgoes⟩
    · exact ⟨[], by rw [List.append_nil, hends]⟩
    · exact ⟨_, hgoes⟩
  have hstart : trail .setup (texts (before.flatMap lineCalls)) =
      trail .setup (before.map plainText) := by
    have hbytes' : bytes = before.flatMap (· ++ [newline]) ++ [] ++ (line ++ more) := by
      rw [List.append_nil, ← List.append_assoc, hbytes]
    have hread := h.front hbefore (List.not_mem_nil) hbytes'
    rwa [cutOff_nil, List.map_nil, List.append_nil] at hread
  have hquiet : trail (phaseAfter .setup (before.map plainText))
      ((cutOff line).1.map plainText) = [] := by
    have hread := h.front hbefore hline hbytes
    have hpad : before.map plainText = before.map plainText ++ [] := (List.append_nil _).symm
    rw [hpad, trail_append_iff hstart] at hread
    exact hread
  refine ⟨forced_quiet_iff.mpr hquiet, ?_⟩
  rcases bytes_of_linesOf hsplit with ⟨hends, hlines⟩ | ⟨more, hgoes⟩
  · -- the end of the output hands over what is left
    have hended := h.ended [bytes] ((texts (pump [bytes])).map .observe) List.flatten_singleton
      (shown_observe _)
    rw [asked_eq_trail rfl, shown_observe, pump_eq_lines, List.flatten_singleton, hlines,
      hends, printedLines_lines hbefore hline, texts_append, List.map_append] at hended
    have hrest := (trail_append_iff hstart).mp hended
    rw [trail_lastCalls_of_quiet hquiet hline, List.map_singleton, trail_singleton] at hrest
    simpa using congrArg List.head? hrest
  · -- its newline does
    have hmore : ∀ other ∈ before ++ [line], newline ∉ other := by
      rw [List.forall_mem_append, List.forall_mem_singleton]
      exact ⟨hbefore, hline⟩
    have hbytes' : bytes = (before ++ [line]).flatMap (· ++ [newline]) ++ [] ++ more := by
      rw [hgoes, List.flatMap_append, List.flatMap_singleton]
      simp only [List.append_assoc, List.singleton_append, List.append_nil]
    have hread := h.front hmore (List.not_mem_nil) hbytes'
    rw [cutOff_nil, List.map_nil, List.append_nil, List.flatMap_append, texts_append,
      List.map_append, List.flatMap_singleton] at hread
    have hrest := (trail_append_iff hstart).mp hread
    rw [trail_lineCalls_of_quiet hquiet hline, List.map_singleton, trail_singleton] at hrest
    simpa using congrArg List.head? hrest

theorem movesOnLines_iff (bytes : List UInt8) : MovesOnLines bytes ↔ CutQuietly bytes :=
  ⟨cutQuietly_of_movesOnLines, movesOnLines_of_cutQuietly⟩

/-- **Phases and whole lines.**  The tracker of a run is shown the texts of the calls its output is
turned into.  However the output is read and whatever the poster takes meanwhile, until the phase
is fixed the snapshots asked for are at every moment those of the complete lines, exactly where in
the phase at each line no part cut off it asks for a snapshot and what is left at its end asks for
the one the whole line asks for. -/
theorem phases_move_on_lines (bytes : List UInt8) :
    (∀ tracker calls, calls.foldl Run.heard tracker = (texts calls).foldl observe tracker) ∧
      (MovesOnLines bytes ↔ CutQuietly bytes) :=
  ⟨foldl_heard, movesOnLines_iff bytes⟩

theorem plainText_encode {text : Text} (hclean : Ansi.esc ∉ text) (hreturn : '\r' ∉ text) :
    plainText (Utf8.encode text) = text := by
  have hkept : dropCarriageReturn text = text :=
    if_neg fun hlast ↦ hreturn (List.mem_of_getLast? hlast)
  rw [plainText, LogStream.lineText, Utf8.lossy_encode, hkept,
    (Ansi.plain_of_esc_notMem hclean).1]

/-- A line of letters up to the cap, and a marker. -/
def lateMarker (letters : ℕ) : Text :=
  List.replicate letters 'x' ++ "--- task iteration 1 ---".toList

theorem notMem_lateMarker (letters : ℕ) {character : Char} (hletter : character ≠ 'x')
    (hmarker : character ∉ "--- task iteration 1 ---".toList) :
    character ∉ lateMarker letters := by
  rw [lateMarker, List.mem_append, not_or]
  exact ⟨fun hmem ↦ hletter (List.eq_of_mem_replicate hmem), hmarker⟩

theorem size_lateMarker (letters : ℕ) : letters ≤ Utf8.size (lateMarker letters) := by
  have hone : Char.utf8Size 'x' = 1 := rfl
  have hletters : Utf8.size (List.replicate letters 'x') = letters := by
    simp [Utf8.size, hone]
  rw [lateMarker, Utf8.size_append, hletters]
  exact Nat.le_add_right _ _

/-- What is left of a line behind the cap is heard as a marker. -/
theorem late_marker_heard {letters : ℕ} (h : letters = maxLogChunk) :
    ¬ CutsQuietly .setup (Utf8.encode (lateMarker letters)) := by
  intro hquiet
  have hsize : Utf8.size (List.replicate letters 'x') = maxLogChunk := by
    have hone : Char.utf8Size 'x' = 1 := rfl
    simp [Utf8.size, hone, h]
  have hshort : (Utf8.encode "--- task iteration 1 ---".toList).length < maxLogChunk := by
    rw [Utf8.length_encode]
    decide
  have hlong : asks .setup (lateMarker letters) = none := by
    have hpast : markerMaxBytes < Utf8.size (lateMarker letters) :=
      Nat.lt_of_lt_of_le (h ▸ by decide) (size_lateMarker letters)
    rw [asks, marker, if_pos hpast]
  have hrest := hquiet.rest
  rw [plainText_encode (notMem_lateMarker _ (by decide) (by decide))
    (notMem_lateMarker _ (by decide) (by decide)), hlong, lateMarker,
    LogStream.cutOff_encode_front hsize, cutOff_short hshort,
    plainText_encode (by decide) (by decide)] at hrest
  exact absurd hrest (by decide)

theorem part_of_a_line_heard :
    ¬ MovesOnLines (Utf8.encode (lateMarker 65536 ++ ['\n'])) := by
  intro hmoves
  have hfree : newline ∉ Utf8.encode (lateMarker 65536) := fun hmem ↦
    notMem_lateMarker _ (by decide) (by decide) (Utf8.ascii_of_mem_encode (by decide) hmem)
  apply late_marker_heard (show 65536 = maxLogChunk from rfl)
  refine (movesOnLines_iff _).mp hmoves [] _ [[]] ?_
  rw [Utf8.encode_append, linesOf_append hfree, show Utf8.encode ['\n'] = [newline] from rfl,
    linesOf_newline, List.modifyHead_cons, List.append_nil]
  rfl

end LineAssembler

end RalphexRunner
