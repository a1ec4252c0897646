import RalphexRunner.LogStream.Chunks

/-!
# Closing a log stream

The first close announces the closing phase and takes the flusher's handle; the flusher answers with
one last flush and ends.  A close that sees it end, with no 410 met, leaves nothing in the buffer of
what was appended before it.  What the cap dropped earlier is lost all the same, so such a close
does not send *every* byte appended before it.
-/

namespace RalphexRunner.LogStream

variable {stream next : LogStream}

/-- The flusher works as it does before the closing phase is announced. -/
def BeforeClose : Task Flusher → Prop
  | .running (.selecting _) => True
  | .running (.flushing phase _) => phase = .running
  | .running (.sending phase _) => phase = .running
  | .ended => False
  | .aborted => False

/-- What the handle and the phase say about the flusher. -/
structure Opened (stream : LogStream) : Prop where
  kept : stream.flusher.handle = .kept ↔ stream.phase = .running
  running : stream.phase = .running → BeforeClose stream.flusher.task
  aborted : stream.flusher.task = .aborted → stream.flusher.handle = .dropped

theorem beforeClose_flushed {phase : Phase} (seq : Seq) (h : phase = .running) :
    BeforeClose (flushed phase seq) := by
  subst h
  trivial

theorem flushed_ne_aborted (phase : Phase) (seq : Seq) : flushed phase seq ≠ .aborted := by
  cases phase <;> exact nofun

/-- A step of the flusher itself keeps what the handle and the phase say. -/
theorem opened_resume (h : Opened stream) {task : Task Flusher} (hnext : next.phase = stream.phase)
    (hflusher : next.flusher = stream.flusher.run task) (haborted : task ≠ .aborted)
    (htask : stream.phase = .running → BeforeClose task) : Opened next := by
  refine ⟨?_, ?_, ?_⟩
  · rw [hnext, hflusher]
    exact h.kept
  · intro hrunning
    rw [hflusher]
    exact htask (hnext ▸ hrunning)
  · intro htask'
    rw [hflusher] at htask'
    exact absurd htask' haborted

/-- A branch of the select keeps to the handle and the phase. -/
theorem select_opened (h : Opened stream) {wake : Wake} (hstep : stream.select wake = some next) :
    Opened next := by
  unfold select at hstep
  split at hstep
  · cases hstep
    exact opened_resume h rfl rfl nofun fun _ ↦ rfl
  · split at hstep
    · cases hstep
      exact opened_resume h rfl rfl nofun fun _ ↦ rfl
    · cases hstep
  · split at hstep
    · rename_i hclosing
      cases hstep
      exact opened_resume h rfl rfl nofun fun hrunning ↦ by
        rw [hrunning] at hclosing; cases hclosing
    · cases hstep
  · cases hstep

/-- So does a flush. -/
theorem flush_opened (h : Opened stream) (hstep : stream.flush = some next) : Opened next := by
  unfold flush at hstep
  split at hstep
  · rename_i phase seq htask
    have hphase : stream.phase = .running → phase = .running := fun hrunning ↦ by
      have hbefore := h.running hrunning
      rw [htask] at hbefore
      exact hbefore
    have hflushed : Opened (stream.resume (flushed phase seq)) :=
      opened_resume h rfl rfl (flushed_ne_aborted phase seq)
        fun hrunning ↦ beforeClose_flushed seq (hphase hrunning)
    split at hstep
    · cases hstep
      exact hflushed
    · split at hstep
      · cases hstep
        exact hflushed
      · cases hstep
        exact opened_resume h rfl rfl nofun hphase
  · cases hstep

/-- So does an answer of the farm. -/
theorem answer_opened (h : Opened stream) {sent : Except FarmError Unit}
    (hstep : stream.answer sent = some next) : Opened next := by
  unfold answer at hstep
  split at hstep
  · rename_i phase seq htask
    have hphase : stream.phase = .running → phase = .running := fun hrunning ↦ by
      have hbefore := h.running hrunning
      rw [htask] at hbefore
      exact hbefore
    split at hstep
    · cases hstep
      exact opened_resume h rfl rfl (flushed_ne_aborted phase _)
        fun hrunning ↦ beforeClose_flushed _ (hphase hrunning)
    all_goals
      cases hstep
      exact opened_resume h rfl rfl nofun hphase
  · cases hstep

/-- Once the handle was taken the phase is closing for good. -/
theorem opened_taken {flusher : Spawned Flusher} {phase : Phase} (hphase : phase = .closing)
    (hhandle : flusher.handle ≠ .kept) (haborted : flusher.task = .aborted →
      flusher.handle = .dropped) : Opened { stream with flusher, phase } := by
  subst hphase
  exact ⟨⟨fun hkept ↦ absurd hkept hhandle, nofun⟩, nofun, haborted⟩

theorem closing_of_awaited (h : Opened stream) (hawaited : stream.flusher.handle = .awaited) :
    stream.phase = .closing := by
  cases hphase : stream.phase with
  | closing => rfl
  | running =>
      have hkept := h.kept.mpr hphase
      rw [hawaited] at hkept
      cases hkept

theorem close_opened (h : Opened stream) : Opened stream.close := by
  unfold close Spawned.take
  split
  · refine opened_taken rfl nofun fun haborted ↦ ?_
    rename_i hkept
    have hdropped := h.aborted haborted
    rw [hkept] at hdropped
    cases hdropped
  · rename_i hkept
    exact opened_taken rfl hkept h.aborted

theorem joined_opened (h : Opened stream) (hstep : stream.joined = some next) : Opened next := by
  obtain ⟨flusher, hjoin, rfl⟩ := Option.map_eq_some_iff.mp hstep
  obtain ⟨hawaited, -, rfl⟩ := Spawned.join_eq_some.mp hjoin
  exact opened_taken (closing_of_awaited h hawaited) nofun fun _ ↦ rfl

theorem elapsed_opened (h : Opened stream) (hstep : stream.elapsed = some next) : Opened next := by
  obtain ⟨flusher, hexpire, rfl⟩ := Option.map_eq_some_iff.mp hstep
  obtain ⟨hawaited, -, rfl⟩ := Spawned.expire_eq_some.mp hexpire
  exact opened_taken (closing_of_awaited h hawaited) nofun fun _ ↦ rfl

theorem interrupted_opened (h : Opened stream) : Opened stream.interrupted := by
  unfold interrupted Spawned.detach
  split
  · rename_i hawaited
    exact opened_taken (closing_of_awaited h hawaited) nofun fun _ ↦ rfl
  · exact h

theorem step_opened {action : Action} (h : Opened stream)
    (hstep : step stream action = some next) : Opened next := by
  cases action with
  | write bytes => cases hstep; exact ⟨h.kept, h.running, h.aborted⟩
  | pushLine line terminator => cases hstep; exact ⟨h.kept, h.running, h.aborted⟩
  | pushBreak => cases hstep; exact ⟨h.kept, h.running, h.aborted⟩
  | select wake => exact select_opened h hstep
  | flush => exact flush_opened h hstep
  | answer sent => exact answer_opened h hstep
  | close => cases hstep; exact close_opened h
  | joined => exact joined_opened h hstep
  | elapsed => exact elapsed_opened h hstep
  | interrupted => cases hstep; exact interrupted_opened h

theorem new_opened : Opened new := ⟨by decide, fun _ ↦ trivial, nofun⟩

theorem opened_of_reachable (h : machine.Reachable stream) : Opened stream :=
  h.invariant Opened (fun _ hinit ↦ by rw [hinit]; exact new_opened)
    (fun _ _ _ hopened _ hstep ↦ step_opened hopened hstep)

/-- Everything in `before` was appended, and a flusher that ended without a 410 has let none of it
in the buffer. -/
structure Flushed (before : List UInt8) (stream : LogStream) : Prop where
  appended : before <+: stream.appended
  departed : stream.flusher.task = .ended → stream.gone = .open → before <+: stream.departed

/-- Neither the bytes appended nor the bytes departed ever shrink. -/
theorem step_monotone {action : Action} (hstep : step stream action = some next) :
    stream.appended <+: next.appended ∧ stream.departed <+: next.departed := by
  cases step_effect hstep with
  | appends houtgoing happended hrecord hviews hgone hflusher =>
      rw [happended, departed_congr hrecord, departed_write]
      exact ⟨List.prefix_append _ _, List.prefix_append _ _⟩
  | sends phase seq htask hgone hchunk hnext =>
      subst hnext
      rw [departed_send]
      exact ⟨List.prefix_refl _, List.prefix_append _ _⟩
  | quiet hquiet =>
      rw [hquiet.appended, departed_congr hquiet.record]
      exact ⟨List.prefix_refl _, List.prefix_refl _⟩

theorem outgoing_of_nextChunk (h : stream.nextChunk = []) : stream.outgoing = [] := by
  rw [nextChunk, List.take_eq_nil_iff] at h
  exact h.resolve_left (by decide)

theorem select_not_ended {wake : Wake} (hstep : stream.select wake = some next) :
    next.flusher.task ≠ .ended := by
  unfold select at hstep
  split at hstep
  · cases hstep
    exact nofun
  · split at hstep <;> cases hstep
    exact nofun
  · split at hstep <;> cases hstep
    exact nofun
  · cases hstep

/-- A turn of the flush loop that ends the flusher saw the latch or an empty buffer. -/
theorem flush_ended (hstep : stream.flush = some next) (hended : next.flusher.task = .ended)
    (hgone : next.gone = .open) : next.outgoing = [] := by
  unfold flush at hstep
  split at hstep
  · split at hstep
    · rename_i hlatch
      cases hstep
      exact absurd (hlatch.symm.trans hgone) nofun
    · split at hstep
      · rename_i hchunk
        cases hstep
        exact outgoing_of_nextChunk (List.isEmpty_iff.mp hchunk)
      · cases hstep
        cases hended
  · cases hstep

theorem answer_not_ended {sent : Except FarmError Unit} (hstep : stream.answer sent = some next)
    (hgone : next.gone = .open) : next.flusher.task ≠ .ended := by
  unfold answer at hstep
  split at hstep
  · split at hstep
    · cases hstep
      cases hgone
    all_goals
      cases hstep
      exact nofun
  · cases hstep

/-- Closing leaves the task as it was or aborts it. -/
theorem closing_task {action : Action} (hstep : step stream action = some next)
    (haction : action = .close ∨ action = .joined ∨ action = .elapsed ∨ action = .interrupted) :
    next.gone = stream.gone ∧
      (next.flusher.task = stream.flusher.task ∨ next.flusher.task = .aborted) := by
  rcases haction with rfl | rfl | rfl | rfl
  · cases hstep
    unfold close Spawned.take
    split <;> exact ⟨rfl, .inl rfl⟩
  · obtain ⟨flusher, hjoin, rfl⟩ := Option.map_eq_some_iff.mp hstep
    obtain ⟨-, -, rfl⟩ := Spawned.join_eq_some.mp hjoin
    exact ⟨rfl, .inl rfl⟩
  · obtain ⟨flusher, hexpire, rfl⟩ := Option.map_eq_some_iff.mp hstep
    obtain ⟨-, -, rfl⟩ := Spawned.expire_eq_some.mp hexpire
    exact ⟨rfl, .inr rfl⟩
  · cases hstep
    unfold interrupted Spawned.detach
    split <;> exact ⟨rfl, .inl rfl⟩

/-- A step after which the flusher has ended without a 410 found it so or emptied the buffer. -/
theorem outgoing_of_ended {action : Action} (hstep : step stream action = some next)
    (hended : next.flusher.task = .ended) (hgone : next.gone = .open) :
    stream.flusher.task = .ended ∧ stream.gone = .open ∨ next.outgoing = [] := by
  have hclosing (haction : action = .close ∨ action = .joined ∨ action = .elapsed ∨
      action = .interrupted) : stream.flusher.task = .ended ∧ stream.gone = .open := by
    obtain ⟨hsame, htask⟩ := closing_task hstep haction
    rw [hended] at htask
    exact ⟨(htask.resolve_right nofun).symm, hsame ▸ hgone⟩
  cases action with
  | write bytes => cases hstep; exact .inl ⟨hended, hgone⟩
  | pushLine line terminator => cases hstep; exact .inl ⟨hended, hgone⟩
  | pushBreak => cases hstep; exact .inl ⟨hended, hgone⟩
  | select wake => exact absurd hended (select_not_ended hstep)
  | flush => exact .inr (flush_ended hstep hended hgone)
  | answer sent => exact absurd hended (answer_not_ended hstep hgone)
  | close => exact .inl (hclosing (by simp))
  | joined => exact .inl (hclosing (by simp))
  | elapsed => exact .inl (hclosing (by simp))
  | interrupted => exact .inl (hclosing (by simp))

theorem step_flushed {before : List UInt8} {action : Action} (haccounting : Accounting next)
    (h : Flushed before stream) (hstep : step stream action = some next) :
    Flushed before next := by
  obtain ⟨happended, hdeparted⟩ := step_monotone hstep
  have hbefore : before <+: next.appended := h.appended.trans happended
  refine ⟨hbefore, fun hended hgone ↦ ?_⟩
  rcases outgoing_of_ended hstep hended hgone with ⟨hended', hgone'⟩ | hempty
  · exact (h.departed hended' hgone').trans hdeparted
  · rw [← haccounting.accounted, hempty, List.append_nil] at hbefore
    exact hbefore

/-- A close that takes the handle and sees the flusher end, with no 410 met, leaves none of the
bytes appended before it in the buffer. -/
theorem close_flushes {actions : List Action} (h : machine.Reachable stream)
    (hkept : stream.flusher.handle = .kept)
    (hexec : machine.exec stream (.close :: actions ++ [.joined]) = some next)
    (hgone : next.gone = .open) : stream.appended <+: next.departed := by
  have hopened := opened_of_reachable h
  rw [List.cons_append, Machine.exec_cons, Option.bind_eq_some_iff] at hexec
  obtain ⟨closing, hclose, hexec⟩ := hexec
  rw [Machine.exec_append, Option.bind_eq_some_iff] at hexec
  obtain ⟨waiting, hwaiting, hexec⟩ := hexec
  rw [Machine.exec_cons, Option.bind_eq_some_iff] at hexec
  obtain ⟨after, hjoined, hexec⟩ := hexec
  cases hexec
  have hclosing : machine.Reachable closing := .step h trivial hclose
  have hstart : Flushed stream.appended closing := by
    have hbefore := hopened.running (hopened.kept.mp hkept)
    cases hclose
    refine ⟨List.prefix_refl _, fun hended _ ↦ ?_⟩
    have hstep : step stream .close = some stream.close := rfl
    rcases (closing_task hstep (.inl rfl)).2 with hsame | haborted
    · rw [← hsame, hended] at hbefore
      exact hbefore.elim
    · rw [hended] at haborted
      cases haborted
  have hflushed : Flushed stream.appended waiting := by
    refine hclosing.exec_invariant (Flushed stream.appended) ?_ hstart hwaiting
    intro state action following hreach hstate hstep
    exact step_flushed (accounting_of_reachable (.step hreach trivial hstep)) hstate hstep
  have hwaitingReach : machine.Reachable waiting := hclosing.exec hwaiting
  obtain ⟨flusher, hjoin, rfl⟩ := Option.map_eq_some_iff.mp hjoined
  obtain ⟨hawaited, hsettled, rfl⟩ := Spawned.join_eq_some.mp hjoin
  cases htask : waiting.flusher.task with
  | running local_ => rw [htask] at hsettled; exact hsettled.elim
  | ended => exact hflushed.departed htask hgone
  | aborted =>
      have hdropped := (opened_of_reachable hwaitingReach).aborted htask
      rw [hawaited] at hdropped
      cases hdropped

/-! ## The stream the farm receives -/

/-- **The farm's log stream.**  In every state of every run the buffer is within its cap and holds
the youngest bytes appended; the chunks are numbered 1, 2, 3, … and of 1 to `maxLogChunk` bytes; the
chunks and the bytes dropped past the cap, in the order in which they left, and then the buffer, are
everything appended; a run that never exceeds the cap drops nothing; after a 410 no further chunk is
sent; and a close that takes the handle and sees the flusher end without a 410 leaves none of the
bytes appended before it unsent, except those the cap dropped. -/
theorem farm_log (h : machine.Reachable stream) :
    stream.outgoing.length ≤ logBufferBytes ∧
      stream.outgoing <:+ stream.appended ∧
      stream.chunks.map (·.1.value) = List.range' 1 stream.chunks.length ∧
      (∀ chunk ∈ stream.chunks, 1 ≤ chunk.2.length ∧ chunk.2.length ≤ maxLogChunk) ∧
      stream.record.flatMap Entry.bytes ++ stream.outgoing = stream.appended ∧
      (∀ action next, step stream action = some next → next.lost = stream.lost ∨
        logBufferBytes < (stream.outgoing ++ action.bytes).length ∧
          next.lost = stream.lost ++ [excess (stream.outgoing ++ action.bytes)] ∧
          next.outgoing.length = logBufferBytes) ∧
      (machine.ReachableBy Fits stream → stream.sent ++ stream.outgoing = stream.appended) ∧
      (stream.gone = .gone → ∀ actions next, machine.exec stream actions = some next →
        next.chunks = stream.chunks) ∧
      (stream.flusher.handle = .kept → ∀ actions next,
        machine.exec stream (.close :: actions ++ [.joined]) = some next → next.gone = .open →
          stream.appended <+: next.record.flatMap Entry.bytes) := by
  have haccounting := accounting_of_reachable h
  refine ⟨haccounting.bounded, ⟨stream.departed, haccounting.accounted⟩, haccounting.numbered,
    haccounting.sized, haccounting.accounted, fun _ _ ↦ step_lost, ?_, ?_, ?_⟩
  · intro hfits
    rw [← departed_of_lost (lost_of_fits hfits)]
    exact haccounting.accounted
  · intro hgone actions next hexec
    exact exec_gone h hgone hexec
  · intro hkept actions next hexec hgone
    exact close_flushes h hkept hexec hgone

theorem farm_log_closed : ∃ stream, machine.exec new [.write [104, 105]] = some stream ∧
    ∀ actions next, machine.exec stream (.close :: actions ++ [.joined]) = some next →
      next.gone = .open → [104, 105] <+: next.record.flatMap Entry.bytes := by
  have hexec : machine.exec new [.write [104, 105]] = some (new.write [104, 105]) := rfl
  obtain ⟨-, -, -, -, -, -, -, -, hclose⟩ := farm_log (Machine.Reachable.exec (.init rfl) hexec)
  exact ⟨_, hexec, hclose rfl⟩

theorem length_departed (stream : LogStream) :
    stream.departed.length = stream.sent.length + stream.lost.flatten.length := by
  unfold departed sent chunks lost
  induction stream.record with
  | nil => rfl
  | cons entry rest ih =>
      cases entry <;> simp [Entry.bytes] at ih ⊢ <;> omega

theorem nextChunk_eq_nil_of_outgoing (h : stream.outgoing = []) : stream.nextChunk = [] := by
  rw [nextChunk, h, List.take_nil]

/-- A flusher in the closing phase ends when the farm takes every chunk. -/
theorem drains (stream : LogStream) (seq : Seq)
    (htask : stream.flusher.task = .running (.flushing .closing seq))
    (hgone : stream.gone = .open) :
    ∃ actions next, machine.exec stream actions = some next ∧
      next.flusher = ⟨.ended, stream.flusher.handle⟩ ∧ next.gone = .open ∧
      next.lost = stream.lost ∧ next.appended = stream.appended := by
  induction hsize : stream.outgoing.length using Nat.strongRecOn generalizing stream seq with
  | ind size ih =>
  by_cases hchunk : stream.nextChunk = []
  · have hflush : machine.step stream .flush = some (stream.resume .ended) := by
      simp only [machine, step, flush, htask, hgone, hchunk, List.isEmpty_nil, if_true, flushed]
    refine ⟨[.flush], stream.resume .ended, ?_, rfl, hgone, rfl, rfl⟩
    rw [Machine.exec_cons, hflush]
    rfl
  · -- One chunk goes out and is taken; what is left is shorter.
    let sending := stream.send .closing seq
    let taken := sending.resume (.running (.flushing .closing seq.increment))
    have hflush : machine.step stream .flush = some sending := by
      simp only [machine, step, flush, htask, hgone, List.isEmpty_iff, hchunk, if_false, sending]
    have hanswer : machine.step sending (.answer (.ok ())) = some taken := rfl
    have hnonempty : stream.outgoing ≠ [] :=
      fun hempty ↦ hchunk (nextChunk_eq_nil_of_outgoing hempty)
    have hshorter : taken.outgoing.length < size := by
      have hpos := List.length_pos_iff.mpr hnonempty
      have hcap : 0 < maxLogChunk := by decide
      have houtgoing : taken.outgoing = stream.outgoing.drop maxLogChunk := rfl
      rw [houtgoing, List.length_drop]
      omega
    obtain ⟨actions, next, hexec, hflusher, hopen, hlost, happended⟩ :=
      ih taken.outgoing.length hshorter taken seq.increment rfl hgone rfl
    refine ⟨.flush :: .answer (.ok ()) :: actions, next, ?_, hflusher, hopen, ?_, happended⟩
    · rw [Machine.exec_cons, hflush, Option.bind_some, Machine.exec_cons, hanswer,
        Option.bind_some, hexec]
    · rw [hlost]
      exact lost_send stream .closing seq

/-- An idle flusher can always be closed without a timeout and without a 410. -/
theorem closes (stream : LogStream) (seq : Seq)
    (hflusher : stream.flusher = ⟨.running (.selecting seq), .kept⟩) (hgone : stream.gone = .open) :
    ∃ actions next, machine.exec stream (.close :: actions ++ [.joined]) = some next ∧
      next.gone = .open ∧ next.lost = stream.lost ∧ next.appended = stream.appended := by
  have hclose : stream.close =
      { stream with phase := .closing, flusher := ⟨.running (.selecting seq), .awaited⟩ } := by
    simp only [close, hflusher]
    rfl
  let woken := stream.close.resume (.running (.flushing .closing seq))
  have hwoken : machine.step stream.close (.select .closing) = some woken := by
    simp only [machine, step, select, hclose, if_true, woken]
  have hhandle : woken.flusher.handle = .awaited := by
    simp only [woken, hclose]
    rfl
  obtain ⟨actions, next, hexec, hended, hopen, hlost, happended⟩ :=
    drains woken seq rfl hgone
  rw [hhandle] at hended
  have hjoined : machine.step next .joined = some { next with flusher := ⟨.ended, .dropped⟩ } := by
    simp only [machine, step, joined, hended]
    rfl
  refine ⟨.select .closing :: actions, { next with flusher := ⟨.ended, .dropped⟩ }, ?_,
    hopen, hlost, happended⟩
  rw [List.cons_append, Machine.exec_cons]
  change (machine.exec stream.close _) = _
  rw [List.cons_append, Machine.exec_cons, hwoken, Option.bind_some, Machine.exec_append, hexec,
    Option.bind_some, Machine.exec_cons, hjoined]
  rfl

/-- One byte more than the outgoing buffer holds. -/
def overflow : List UInt8 := List.replicate (logBufferBytes + 1) 0

theorem length_overflow : overflow.length = logBufferBytes + 1 := List.length_replicate

theorem lost_overflow : (new.write overflow).lost = [excess overflow] := by
  have hover : logBufferBytes < overflow.length := by
    rw [length_overflow]
    omega
  rcases lost_write new overflow with ⟨-, hfits⟩ | ⟨hlost, -⟩
  · rw [show new.outgoing ++ overflow = overflow from rfl] at hfits
    omega
  · exact hlost

theorem length_excess_overflow : (excess overflow).length = 1 := by
  rw [excess, length_overflow, if_pos (by omega), List.length_take, length_overflow]
  omega

/-- A close that neither times out nor meets a 410 does not send every byte appended before it: it
cannot send the byte the cap dropped. -/
theorem close_past_the_cap :
    machine.Reachable (new.write overflow) ∧
      (new.write overflow).flusher.handle = .kept ∧
      ∃ actions next,
        machine.exec (new.write overflow) (.close :: actions ++ [.joined]) = some next ∧
          next.gone = .open ∧ ¬ (new.write overflow).appended <+: next.sent := by
  have hreach : machine.Reachable (new.write overflow) :=
    .step (.init rfl) trivial (show machine.step new (.write overflow) = _ from rfl)
  obtain ⟨actions, next, hexec, hopen, hlost, happended⟩ := closes (new.write overflow) _ rfl rfl
  refine ⟨hreach, rfl, actions, next, hexec, hopen, fun hprefix ↦ ?_⟩
  have haccounted := (accounting_of_reachable (hreach.exec hexec)).accounted
  have hlength := congrArg List.length haccounted
  have hsent := hprefix.length_le
  rw [List.length_append, length_departed, hlost, lost_overflow, List.flatten_singleton,
    length_excess_overflow, happended] at hlength
  omega

end RalphexRunner.LogStream
