import RalphexRunner.Agent.Verdict

/-!
# The tasks of a run end with it

`drain_output` and `close` take the handle of the task they wait for before they wait, so dropping
either of them at its await detaches the task for good.  Apart from that the pump has ended or was
aborted when `serve_run` returns, and the flusher when the completion is sent, after which no chunk
is handed to the farm.
-/

namespace RalphexRunner.Run

open Program

variable {run next : Run}

/-- The await at the head of the program has taken the handle of its task. -/
def Awaits (target : Call) (stage : Stage) (program : RunProgram Finished) : Prop :=
  stage = .awaiting ∧ ∃ resume, program = .call target resume

theorem not_awaits_ready {target : Call} {program : RunProgram Finished} :
    ¬ Awaits target .ready program :=
  fun h ↦ by cases h.1

theorem not_awaits_other {target call : Call} {stage : Stage}
    {resume : call.Answer → RunProgram Finished} (h : call ≠ target) :
    ¬ Awaits target stage (.call call resume) := by
  rintro ⟨-, _, heq⟩
  cases heq
  exact h rfl

theorem awaits_call {target : Call} {resume : target.Answer → RunProgram Finished} :
    Awaits target .awaiting (.call target resume) := ⟨rfl, resume, rfl⟩

/-- Programs that have passed `target` when they end. -/
def through (target : Call) (permits : Bool → Call → Prop) :
    Protocol Call Call.Answer Finished Bool where
  permits := permits
  promises _ _ _ := True
  move passed call _ := passed || decide (call = target)
  ends passed _ := passed = true

theorem through_answered {target call : Call} {permits : Bool → Call → Prop} {passed : Bool}
    {resume : call.Answer → RunProgram Finished} (answer : call.Answer)
    (h : Follows (through target permits) passed (.call call resume)) :
    Follows (through target permits) (passed || decide (call = target)) (resume answer) :=
  h.answered answer trivial

theorem follows_passed {target : Call} {permits : Bool → Call → Prop}
    (hpermits : ∀ call, permits true call) (program : RunProgram Finished) :
    Follows (through target permits) true program :=
  follows_of_stable hpermits (fun _ _ ↦ rfl) (fun _ ↦ rfl) program

/-- The finishing run is at `call`, and `terminal` is the first that arrived. -/
def Meets (run : Run) (call : Call) (terminal : Terminal) : Prop :=
  (∃ stage resume, run.pc = .performing .finishing stage (.call call resume)) ∧
    run.inbox.head? = some terminal

/-- No terminal but a drain interrupts the finishing run in its drain. -/
def DrainUndisturbed (run : Run) : Action → Prop
  | .consumes => ∀ terminal, run.Meets .drainOutput terminal → terminal = .drain
  | _ => True

/-- A finishing run drains before it does anything else. -/
def drainsFirst (mode : Mode) (drained : Bool) (call : Call) : Prop :=
  mode = .winding ∨ drained = true ∨ call = .drainOutput

theorem drainsFirst_true {mode : Mode} (call : Call) : drainsFirst mode true call := .inr (.inl rfl)

theorem stop_drains (terminal : Terminal) (output : Option Text) :
    Follows (through .drainOutput (drainsFirst .winding)) false
      (Finish.stop terminal output) := by
  rw [Finish.stop_eq]
  exact ⟨.inl rfl, fun _ _ ↦ ⟨.inl rfl, fun _ _ ↦ follows_passed drainsFirst_true _⟩⟩

theorem finishing_drains (setup : Setup) (exited : Except JobError ExitStatus) :
    Follows (through .drainOutput (drainsFirst .finishing)) false (setup.finishing exited) := by
  rw [Setup.finishing_eq]
  exact ⟨.inr (.inr rfl), fun _ _ ↦ follows_passed drainsFirst_true _⟩

/-- Where the handle of the pump is, if there is a pump. -/
def PumpHeld (pump : Option (Spawned LineAssembler)) (awaiting : Prop) (drained : Bool) : Prop :=
  ∀ spawned, pump = some spawned → spawned.Held awaiting drained

/-- Where the pump stands while `serve_run` stands where it does. -/
def PumpAt (pump : Option (Spawned LineAssembler)) : Pc → Prop
  | .entered | .validating | .watching | .spawning => pump = none
  | .waiting | .unwatching _ => PumpHeld pump False false
  | .performing mode stage program => ∃ drained,
      Follows (through .drainOutput (drainsFirst mode)) drained program ∧
        PumpHeld pump (Awaits .drainOutput stage program) drained
  | .reporting _ | .reported _ _ | .removing _ _ | .leaving _ _ | .left _ _ =>
      PumpHeld pump False true

theorem PumpHeld.congr {pump : Option (Spawned LineAssembler)} {awaiting awaiting' : Prop}
    {drained : Bool} (h : PumpHeld pump awaiting drained) (hiff : awaiting ↔ awaiting') :
    PumpHeld pump awaiting' drained :=
  fun spawned hpump ↦ (h spawned hpump).congr hiff

theorem PumpHeld.runs {pump pump' : Spawned LineAssembler} {awaiting : Prop} {drained : Bool}
    (h : PumpHeld (some pump) awaiting drained) (hruns : pump.Runs pump') :
    PumpHeld (some pump') awaiting drained := by
  intro spawned hspawned
  cases hspawned
  exact (h pump rfl).runs hruns

/-- Nothing but the drain of the program at hand touches the pump. -/
theorem PumpAt.runs {pump pump' : Spawned LineAssembler} {pc : Pc} (h : PumpAt (some pump) pc)
    (hruns : pump.Runs pump') : PumpAt (some pump') pc := by
  cases pc with
  | entered | validating | watching | spawning => cases h
  | performing mode stage program =>
      obtain ⟨drained, hfollows, hheld⟩ := h
      exact ⟨drained, hfollows, hheld.runs hruns⟩
  | _ => exact PumpHeld.runs h hruns

theorem pumpAt_of_task {action : Action} (haction : action.OfTask)
    (h : step run action = some next) (hpump : PumpAt run.pump run.pc) :
    PumpAt next.pump next.pc := by
  rw [(step_beside haction h).pc]
  rcases step_pump haction h with hsame | ⟨pump, after, hbefore, hruns, hafter⟩
  · rwa [hsame]
  · rw [hbefore] at hpump
    rw [hafter]
    exact hpump.runs hruns

/-- A drain that is awaited holds the handle, and one that is over leaves the pump settled. -/
theorem pumpHeld_suspended {stage stage' : Stage} {poke : Poke} {after : Run} {drained : Bool}
    {resume : Unit → RunProgram Finished}
    (hadvance : run.advance .drainOutput stage poke = some (.suspended after stage'))
    (hheld : PumpHeld run.pump (Awaits .drainOutput stage (.call .drainOutput resume)) drained) :
    PumpHeld after.pump (Awaits .drainOutput stage' (.call .drainOutput resume)) drained := by
  rcases advance_drainOutput hadvance with ⟨rfl, hdrain⟩ | ⟨-, _, _, -, -, hanswered⟩
  · unfold drainOutput at hdrain
    split at hdrain
    · rename_i pump htake
      obtain ⟨kept, hkept, htaken⟩ := Option.bind_eq_some_iff.mp htake
      cases hdrain
      intro spawned hspawned
      cases hspawned
      have htaking := (hheld kept hkept).take htaken
      exact htaking.congr ⟨fun _ ↦ awaits_call, fun _ ↦ trivial⟩
    · cases hdrain
  · cases hanswered

/-- A drain that is over has settled the pump. -/
theorem pumpHeld_answered {stage : Stage} {poke : Poke} {after : Run} {drained : Bool}
    {resume : Unit → RunProgram Finished} {awaiting : Prop}
    (hadvance : run.advance .drainOutput stage poke = some (.answered after ()))
    (hheld : PumpHeld run.pump (Awaits .drainOutput stage (.call .drainOutput resume)) drained) :
    PumpHeld after.pump awaiting true := by
  rcases advance_drainOutput hadvance with ⟨rfl, hdrain⟩ | ⟨-, pump, ended, -, hended, hanswered⟩
  · unfold drainOutput at hdrain
    split at hdrain
    · cases hdrain
    · rename_i htake
      cases hdrain
      intro spawned hspawned
      rw [hspawned] at htake
      exact (hheld spawned hspawned).settled_of_take not_awaits_ready htake
  · cases hanswered
    intro spawned hspawned
    cases hspawned
    rcases hended with hjoin | hexpire
    · exact Spawned.settled_of_join hjoin
    · exact Spawned.settled_of_expire hexpire

/-- While no drain is dropped, the pump is settled before `serve_run` reports. -/
theorem pumpAt_of_serves {action : Action} (h : Serves run action next)
    (hcalm : DrainUndisturbed run action) (hpump : PumpAt run.pump run.pc) :
    PumpAt next.pump next.pc := by
  cases h with
  | accepted hpc | validated hpc | started hpc | exited result hpc
  | reported finished completion hpc | silent finished hpc | heard finished completion answer hpc
  | removed finished ended hpc | left finished ended hpc => rw [hpc] at hpump; exact hpump
  | mismatched hpc | invalid error hpc =>
      rw [hpc] at hpump
      intro spawned hspawned
      rw [show run.pump = none from hpump] at hspawned
      cases hspawned
  | spawned hpc =>
      intro spawned hspawned
      cases hspawned
      exact .inr ⟨id, rfl⟩
  | unspawned error hpc =>
      rw [hpc] at hpump
      refine ⟨true, follows_passed drainsFirst_true _, fun spawned hspawned ↦ ?_⟩
      rw [show run.pump = none from hpump] at hspawned
      cases hspawned
  | unwatched result watcher hpc =>
      rw [hpc] at hpump
      exact ⟨false, finishing_drains _ _,
        PumpHeld.congr hpump ⟨False.elim, not_awaits_ready⟩⟩
  | stopped terminal inbox hpc =>
      rw [hpc] at hpump
      exact ⟨false, stop_drains terminal _, PumpHeld.congr hpump ⟨False.elim, not_awaits_ready⟩⟩
  | ignored inbox stage call resume hpc => exact hpump
  | interrupted terminal inbox stage call resume hterminal hpc hinbox =>
      have hcall : call ≠ .drainOutput := by
        rintro rfl
        exact hterminal (hcalm terminal ⟨⟨stage, resume, hpc⟩, by rw [hinbox]; rfl⟩)
      rw [hpc] at hpump
      obtain ⟨drained, hfollows, hheld⟩ := hpump
      have hdrained : drained = true := by
        rcases hfollows.1 with hmode | hdrained | hdrain
        · cases hmode
        · exact hdrained
        · exact absurd hdrain hcall
      subst hdrained
      refine ⟨true, follows_passed drainsFirst_true _, ?_⟩
      show PumpHeld ((run.taken terminal inbox).abandon call).pump _ true
      rw [abandon_pump _ hcall]
      exact hheld
  | @suspended mode stage stage' call resume poke after hpc hadvance =>
      rw [hpc] at hpump
      obtain ⟨drained, hfollows, hheld⟩ := hpump
      refine ⟨drained, hfollows, ?_⟩
      show PumpHeld after.pump _ drained
      by_cases hcall : call = .drainOutput
      · subst hcall
        exact pumpHeld_suspended hadvance hheld
      · have hsame : after.pump = run.pump := (advance_awaited hadvance).pump.resolve_left hcall
        rw [hsame]
        exact hheld.congr (iff_of_false (not_awaits_other hcall) (not_awaits_other hcall))
  | @answered mode stage call resume poke after answer hpc hadvance =>
      rw [hpc] at hpump
      obtain ⟨drained, hfollows, hheld⟩ := hpump
      refine ⟨_, through_answered answer hfollows, ?_⟩
      show PumpHeld after.pump _ (drained || decide (call = .drainOutput))
      by_cases hcall : call = .drainOutput
      · subst hcall
        rw [decide_eq_true rfl, Bool.or_true]
        exact pumpHeld_answered hadvance hheld
      · have hsame : after.pump = run.pump := (advance_awaited hadvance).pump.resolve_left hcall
        rw [decide_eq_false hcall, Bool.or_false, hsame]
        exact hheld.congr (iff_of_false (not_awaits_other hcall) not_awaits_ready)
  | concluded finished hpc =>
      rw [hpc] at hpump
      obtain ⟨drained, hended, hheld⟩ := hpump
      have hdrained : drained = true := hended
      subst hdrained
      exact hheld

theorem pumpAt_of_reachable (h : machine.ReachableBy DrainUndisturbed run) :
    PumpAt run.pump run.pc := by
  apply h.invariant fun run ↦ PumpAt run.pump run.pc
  · rintro _ ⟨setup, rfl⟩
    rfl
  · intro run action next hpump hcalm hstep
    rcases step_cases hstep with ⟨htask, -⟩ | hserves
    · exact pumpAt_of_task htask hstep hpump
    · exact pumpAt_of_serves hserves hcalm hpump

/-- The pump has ended or was aborted when `serve_run` returns, unless a terminal interrupted the
drain of a run that exited. -/
theorem pump_ends (h : machine.ReachableBy DrainUndisturbed run) {finished : Finished}
    {ended : RunEnd} (hpc : run.pc = .left finished ended) :
    ∀ pump, run.pump = some pump → pump.task.Settled := by
  have hpump := pumpAt_of_reachable h
  rw [hpc] at hpump
  exact hpump

/-- Ralphex succeeds, its output is drained and the log closed. -/
def drainedAndClosed : List Action :=
  upToSpawn ++ [.exits (.ok ⟨some 0⟩), .takesExit, .unwatched, .pokes .performs, .hangsUp,
    .pokes .completes] ++ closes ++ [.concludes, .reports]

/-- The farm answers the completion and `serve_run` returns. -/
def returns : List Action := [.hears (.ok ()), .removes, .leaves]

/-- A run that prints nothing, drained to its end. -/
theorem pump_ends_drained : ∃ run finished ended pump, machine.Reachable run ∧
    run.pc = .left finished ended ∧ run.pump = some pump ∧ pump.task.Settled := by
  let last := machine.exec (enter (native .no)) (drainedAndClosed ++ returns)
  have hsome : last.isSome := rfl
  obtain ⟨run, hexec⟩ := Option.isSome_iff_exists.mp hsome
  have hpc : last.map Run.pc = some (.left (Finish.finished none (Finish.removed (done [])))
      (.reported (done []))) := rfl
  have hpump : last.map Run.pump = some (some ⟨.ended, .dropped⟩) := rfl
  simp only [hexec, Option.map_some, Option.some.injEq] at hpc hpump
  have hcalm (action : Action) (hmem : action ∈ drainedAndClosed ++ returns) (run : Run) :
      DrainUndisturbed run action := by
    cases action with
    | consumes => simp [drainedAndClosed, returns, upToSpawn, closes] at hmem
    | _ => trivial
  have hreach : machine.ReachableBy DrainUndisturbed run :=
    Machine.ReachableBy.exec (.init ⟨_, rfl⟩) hcalm hexec
  exact ⟨run, _, _, _, hreach.reachable, hpc, hpump, pump_ends hreach hpc _ hpump⟩

/-- A cancel interrupts the drain of a run that exited, while a helper still holds the terminal. -/
def canceledInDrain : List Action :=
  upToSpawn ++ [.exits (.ok ⟨some 0⟩), .takesExit, .unwatched, .pokes .performs,
    .arrives .cancel, .consumes] ++ closes ++ [.pokes .performs] ++ posts ++
    [.concludes, .reports]

/-- `serve_run` returns over a pump that nobody can end any more. -/
theorem pump_outlives_run : ¬ ∀ run finished ended pump, machine.Reachable run →
    run.pc = .left finished ended → run.pump = some pump → pump.task.Settled := by
  intro hends
  let last := machine.exec (enter (native .no)) (canceledInDrain ++ returns)
  have hsome : last.isSome := rfl
  obtain ⟨run, hexec⟩ := Option.isSome_iff_exists.mp hsome
  have hpc : last.map Run.pc = some (.left (Finish.stopped .cancel none)
      (.reported (failed "canceled".toList "the run was canceled".toList []))) := rfl
  have hpump : last.map Run.pump = some (some ⟨.running .new, .dropped⟩) := rfl
  simp only [hexec, Option.map_some, Option.some.injEq] at hpc hpump
  exact hends run _ _ _ (reachable_of_exec hexec) hpc hpump

/-! ## The flusher -/

/-- The run is not refused, and no cancel interrupts the finishing run in its close. -/
def CloseUndisturbed (run : Run) : Action → Prop
  | .begins => run.setup.job.runtime = runtimeName
  | .validates result => result = .ok ()
  | .consumes => ¬ run.Meets .closeLog .cancel
  | _ => True

/-- Programs that have closed the log when they end. -/
abbrev closing : Protocol Call Call.Answer Finished Bool := through .closeLog fun _ _ ↦ True

theorem follows_closed (program : RunProgram Finished) : Follows closing true program :=
  follows_passed (fun _ ↦ trivial) program

theorem interrupt_closes (terminal : Terminal) (output : Option Text) (closed : Bool) :
    Follows closing closed (Finish.interrupt terminal output) := by
  cases closed with
  | true => exact follows_closed _
  | false =>
      rw [Finish.interrupt_eq]
      exact ⟨trivial, fun _ _ ↦ follows_closed _⟩

theorem stop_closes (terminal : Terminal) (output : Option Text) :
    Follows closing false (Finish.stop terminal output) := by
  rw [Finish.stop_eq]
  exact ⟨trivial, fun _ _ ↦ ⟨trivial, fun _ _ ↦ interrupt_closes terminal output false⟩⟩

theorem unspawned_closes (error : JobError) (output : Option Text) :
    Follows closing false (Finish.unspawned error output) := by
  rw [Finish.unspawned_eq]
  exact ⟨trivial, fun _ _ ↦ ⟨trivial, fun _ _ ↦ follows_closed _⟩⟩

theorem finishing_closes (setup : Setup) (exited : Except JobError ExitStatus) :
    Follows closing false (setup.finishing exited) := by
  rw [Setup.finishing_eq]
  exact ⟨trivial, fun _ _ ↦ ⟨trivial, fun _ _ ↦ follows_closed _⟩⟩

/-- A program that ends without a completion. -/
def Unreporting (program : RunProgram Finished) : Prop :=
  Follows (commandsOnly False fun finished ↦ finished.completion = none) () program

theorem interrupt_unreporting {terminal : Terminal} (h : terminal.Silent) (output : Option Text) :
    Unreporting (Finish.interrupt terminal output) := by
  have hfollows := interrupt_follows terminal output
  rw [(stopped_eq_none_iff terminal).mpr h] at hfollows
  exact hfollows

/-- Where the flusher stands while `serve_run` stands where it does.  A close that Gone or a
version mismatch interrupted leaves the flusher behind, but reports nothing. -/
def FlusherAt (flusher : Spawned LogStream.Flusher) : Pc → Prop
  | .entered | .validating | .watching | .spawning | .waiting | .unwatching _ =>
      flusher.Held False false
  | .performing mode stage program =>
      (∃ closed, Follows closing closed program ∧
        flusher.Held (Awaits .closeLog stage program) closed) ∨
      (mode = .winding ∧ Unreporting program)
  | .reporting finished | .reported finished _ | .removing finished _ | .leaving finished _
  | .left finished _ => flusher.task.Settled ∨ finished.completion = none

/-- A step of the flusher leaves its handle where it is. -/
theorem FlusherAt.runs {flusher flusher' : Spawned LogStream.Flusher} {pc : Pc}
    (h : FlusherAt flusher pc) (hruns : flusher.Runs flusher') : FlusherAt flusher' pc := by
  cases pc with
  | entered | validating | watching | spawning | waiting | unwatching =>
      have hheld : flusher.Held False false := h
      exact hheld.runs hruns
  | performing mode stage program =>
      rcases h with ⟨closed, hfollows, hheld⟩ | hforsaken
      · exact .inl ⟨closed, hfollows, hheld.runs hruns⟩
      · exact .inr hforsaken
  | _ =>
      rcases h with hsettled | hnone
      · left
        rw [hruns.eq_of_settled hsettled]
        exact hsettled
      · exact .inr hnone

/-- A close that is awaited holds the handle, and one that is over leaves the flusher settled. -/
theorem held_suspended {stage stage' : Stage} {poke : Poke} {after : Run} {closed : Bool}
    {resume : Unit → RunProgram Finished}
    (hadvance : run.advance .closeLog stage poke = some (.suspended after stage'))
    (hheld : run.log.flusher.Held (Awaits .closeLog stage (.call .closeLog resume)) closed) :
    after.log.flusher.Held (Awaits .closeLog stage' (.call .closeLog resume)) closed := by
  rcases advance_closeLog hadvance with ⟨rfl, hclose⟩ | ⟨-, _, _, -, -, hanswered⟩
  · unfold closeLog at hclose
    split at hclose
    · rename_i flusher htake
      cases hclose
      show (run.log.flusher.take.getD run.log.flusher).Held _ closed
      rw [htake]
      exact (hheld.take htake).congr ⟨fun _ ↦ awaits_call, fun _ ↦ trivial⟩
    · cases hclose
  · cases hanswered

/-- A close that is over has settled the flusher. -/
theorem settled_answered {stage : Stage} {poke : Poke} {after : Run} {closed : Bool}
    {resume : Unit → RunProgram Finished}
    (hadvance : run.advance .closeLog stage poke = some (.answered after ()))
    (hheld : run.log.flusher.Held (Awaits .closeLog stage (.call .closeLog resume)) closed) :
    after.log.flusher.task.Settled := by
  rcases advance_closeLog hadvance with ⟨rfl, hclose⟩ | ⟨-, log, flusher, hlog, hended, hanswered⟩
  · unfold closeLog at hclose
    split at hclose
    · cases hclose
    · rename_i htake
      cases hclose
      show (run.log.flusher.take.getD run.log.flusher).task.Settled
      rw [htake]
      exact hheld.settled_of_take not_awaits_ready htake
  · cases hanswered
    show log.flusher.task.Settled
    rw [hlog]
    rcases hended with hjoin | hexpire
    · exact Spawned.settled_of_join hjoin
    · exact Spawned.settled_of_expire hexpire

/-- While no close is dropped, the flusher is settled before a completion is reported. -/
theorem flusherAt_of_serves {action : Action} (h : Serves run action next)
    (hcalm : CloseUndisturbed run action) (hflusher : FlusherAt run.log.flusher run.pc) :
    FlusherAt next.log.flusher next.pc := by
  cases h with
  | accepted hpc | validated hpc | started hpc | spawned hpc | exited result hpc =>
      rw [hpc] at hflusher
      exact hflusher
  | mismatched hpc hruntime => exact absurd hcalm hruntime
  | invalid error hpc => cases hcalm
  | unspawned error hpc =>
      rw [hpc] at hflusher
      exact .inl ⟨false, unspawned_closes error _,
        Spawned.Held.congr hflusher ⟨False.elim, not_awaits_ready⟩⟩
  | unwatched result watcher hpc =>
      rw [hpc] at hflusher
      exact .inl ⟨false, finishing_closes _ _,
        Spawned.Held.congr hflusher ⟨False.elim, not_awaits_ready⟩⟩
  | stopped terminal inbox hpc =>
      rw [hpc] at hflusher
      exact .inl ⟨false, stop_closes terminal _,
        Spawned.Held.congr hflusher ⟨False.elim, not_awaits_ready⟩⟩
  | ignored inbox stage call resume hpc => exact hflusher
  | interrupted terminal inbox stage call resume hterminal hpc hinbox =>
      rw [hpc] at hflusher
      obtain ⟨closed, hfollows, hheld⟩ | ⟨hmode, -⟩ := hflusher
      · by_cases hcall : call = .closeLog
        · subst hcall
          have hsilent : terminal.Silent := by
            cases terminal with
            | cancel => exact absurd ⟨⟨stage, resume, hpc⟩, by rw [hinbox]; rfl⟩ hcalm
            | drain => exact absurd rfl hterminal
            | gone | versionMismatch => trivial
          exact .inr ⟨rfl, interrupt_unreporting hsilent _⟩
        · refine .inl ⟨closed, interrupt_closes terminal _ closed, ?_⟩
          show ((run.taken terminal inbox).abandon call).log.flusher.Held _ closed
          rw [abandon_log _ hcall]
          exact hheld.congr (iff_of_false (not_awaits_other hcall) not_awaits_ready)
      · cases hmode
  | @suspended mode stage stage' call resume poke after hpc hadvance =>
      rw [hpc] at hflusher
      obtain ⟨closed, hfollows, hheld⟩ | hforsaken := hflusher
      · refine .inl ⟨closed, hfollows, ?_⟩
        show after.log.flusher.Held _ closed
        by_cases hcall : call = .closeLog
        · subst hcall
          exact held_suspended hadvance hheld
        · have hsame : after.log = run.log := (advance_awaited hadvance).log.resolve_left hcall
          rw [hsame]
          exact hheld.congr (iff_of_false (not_awaits_other hcall) (not_awaits_other hcall))
      · exact .inr hforsaken
  | @answered mode stage call resume poke after answer hpc hadvance =>
      rw [hpc] at hflusher
      obtain ⟨closed, hfollows, hheld⟩ | ⟨hmode, hforsaken⟩ := hflusher
      · refine .inl ⟨_, through_answered answer hfollows, ?_⟩
        show after.log.flusher.Held _ (closed || decide (call = .closeLog))
        by_cases hcall : call = .closeLog
        · subst hcall
          rw [decide_eq_true rfl, Bool.or_true]
          exact settled_answered hadvance hheld
        · have hsame : after.log = run.log := (advance_awaited hadvance).log.resolve_left hcall
          rw [decide_eq_false hcall, Bool.or_false, hsame]
          exact hheld.congr (iff_of_false (not_awaits_other hcall) not_awaits_ready)
      · exact .inr ⟨hmode, hforsaken.answered answer trivial⟩
  | concluded finished hpc =>
      rw [hpc] at hflusher
      obtain ⟨closed, hended, hheld⟩ | ⟨-, hnone⟩ := hflusher
      · have hclosed : closed = true := hended
        subst hclosed
        exact .inl hheld
      · exact .inr hnone
  | reported finished completion hpc | silent finished hpc | heard finished completion answer hpc
  | removed finished ended hpc | left finished ended hpc =>
      rw [hpc] at hflusher
      exact hflusher

theorem flusherAt_of_reachable (h : machine.ReachableBy CloseUndisturbed run) :
    FlusherAt run.log.flusher run.pc := by
  apply h.invariant fun run ↦ FlusherAt run.log.flusher run.pc
  · rintro _ ⟨setup, rfl⟩
    exact .inr ⟨id, rfl⟩
  · intro run action next hflusher hcalm hstep
    rcases step_cases hstep with ⟨htask, hbeside⟩ | hserves
    · rw [hbeside.pc]
      exact hflusher.runs (step_flusher htask hstep)
    · exact flusherAt_of_serves hserves hcalm hflusher

theorem settled_of_completed (h : machine.ReachableBy CloseUndisturbed run)
    {completion : CompleteRequest} (hcompleted : .completed completion ∈ run.trace) :
    run.log.flusher.task.Settled := by
  obtain ⟨hsent, hsound⟩ := sent_of_reachable h.reachable
  have hmem : completion ∈ completions run.trace := List.mem_filterMap.mpr ⟨_, hcompleted, rfl⟩
  rw [hsent, Option.mem_toList] at hmem
  obtain ⟨finished, hfinished, hcompletion⟩ := sent_finished hsound hmem
  have hflusher := flusherAt_of_reachable h
  cases hpc : run.pc with
  | reporting | reported | removing | leaving | left =>
      rw [hpc] at hflusher hfinished
      cases hfinished
      exact hflusher.resolve_right (by rw [hcompletion]; exact nofun)
  | _ => rw [hpc] at hfinished; cases hfinished

/-- No chunk may follow a completion. -/
def Sealed (before : List Event) (event : Event) : Prop :=
  ∀ seq chunk, event = .appended seq chunk → ∀ completion, .completed completion ∉ before

theorem sealed_append {events : List Event} (hsealed : Justified Sealed run.trace)
    (hevents : ∀ seq chunk, .appended seq chunk ∉ events) :
    Justified Sealed (run.trace ++ events) := by
  apply hsealed.append
  apply justified_of_forall
  rintro event hevent before seq chunk rfl
  exact absurd hevent (hevents seq chunk)

/-- No chunk is handed over behind the completion. -/
theorem sealed_of_reachable (h : machine.ReachableBy CloseUndisturbed run) :
    Justified Sealed run.trace := by
  apply h.invariant_of (machine.ReachableBy CloseUndisturbed)
    (fun run ↦ Justified Sealed run.trace) fun _ ↦ id
  · rintro _ ⟨setup, rfl⟩
    exact justified_nil
  · intro run action next hreach hsealed _ hstep
    rcases step_cases hstep with ⟨htask, hbeside⟩ | hserves
    · by_cases hcompleted : ∃ completion, .completed completion ∈ run.trace
      · obtain ⟨completion, hmem⟩ := hcompleted
        obtain ⟨events, htrace, hevents⟩ :=
          step_silent htask (settled_of_completed hreach hmem) hstep
        rw [htrace]
        exact sealed_append hsealed hevents
      · obtain ⟨events, htrace, hevents⟩ := hbeside.trace
        rw [htrace]
        apply hsealed.append
        intro before event after hsplit seq chunk _ completion hmem
        rcases List.mem_append.mp hmem with hearlier | hnew
        · exact hcompleted ⟨completion, hearlier⟩
        · exact hevents _ (hsplit ▸ List.mem_append_left _ hnew)
    · obtain ⟨events, htrace, hevents⟩ := serves_silent hserves
      rw [htrace]
      exact sealed_append hsealed hevents

/-- Once the completion is sent the flusher has ended or was aborted, and no chunk is handed to the
farm any more, unless the run was refused or a cancel interrupted the close of a run that exited. -/
theorem no_chunk_after_completion (h : machine.ReachableBy CloseUndisturbed run) :
    (∀ completion, .completed completion ∈ run.trace → run.log.flusher.task.Settled) ∧
      ∀ before seq chunk after, run.trace = before ++ .appended seq chunk :: after →
        ∀ completion, .completed completion ∉ before :=
  ⟨fun _ hcompleted ↦ settled_of_completed h hcompleted,
    fun before seq chunk after hsplit ↦ sealed_of_reachable h before _ after hsplit seq chunk rfl⟩

theorem no_chunk_after_completion_drained : ∃ run, machine.exec (enter (native .no))
    drainedAndClosed = some run ∧ .completed (done []) ∈ run.trace ∧
      run.log.flusher.task.Settled := by
  let last := machine.exec { enter (native .no) with pc := .validating } drainedAndClosed.tail
  have hsome : last.isSome := rfl
  obtain ⟨run, hexec⟩ := Option.isSome_iff_exists.mp hsome
  have hsent : last.map (fun run ↦ completions run.trace) = some [done []] := rfl
  simp only [hexec, Option.map_some, Option.some.injEq] at hsent
  have hcompleted : .completed (done []) ∈ run.trace := by
    have hmem : done [] ∈ completions run.trace := by simp [hsent]
    obtain ⟨event, hevent, hcompletion⟩ := List.mem_filterMap.mp hmem
    cases event <;> cases hcompletion
    exact hevent
  have hcalm (action : Action) (hmem : action ∈ drainedAndClosed.tail) (run : Run) :
      CloseUndisturbed run action := by
    cases action with
    | validates result =>
        have hok : result = .ok () := by simpa [drainedAndClosed, upToSpawn, closes] using hmem
        exact hok
    | begins | consumes => simp [drainedAndClosed, upToSpawn, closes] at hmem
    | _ => trivial
  obtain ⟨hreach, hwhole⟩ := reachableBy_of_exec (by rfl) hcalm hexec
  exact ⟨run, hwhole, hcompleted, (no_chunk_after_completion hreach).1 _ hcompleted⟩

/-- A cancel interrupts the close of a run that exited, before the last line was sent. -/
def canceledInClose : List Action :=
  upToSpawn ++ [.reads [97, 10], .exits (.ok ⟨some 0⟩), .takesExit, .unwatched,
    .pokes .performs, .hangsUp, .pokes .completes, .pokes .performs,
    .arrives .cancel, .consumes, .pokes .performs, .pokes .performs] ++ posts ++
    [.concludes, .reports, .selects .closing, .flushes]

/-- The flusher nobody waits for any more sends a chunk after the completion. -/
theorem chunk_after_completion : ¬ ∀ run, machine.Reachable run →
    (∀ completion, .completed completion ∈ run.trace → run.log.flusher.task.Settled) ∧
      ∀ before seq chunk after, run.trace = before ++ .appended seq chunk :: after →
        ∀ completion, .completed completion ∉ before := by
  intro hsealed
  let last := machine.exec (enter (native .no)) canceledInClose
  have hsome : last.isSome := rfl
  obtain ⟨run, hexec⟩ := Option.isSome_iff_exists.mp hsome
  let canceled := failed "canceled".toList "the run was canceled".toList []
  have htrace : last.map Run.trace = some
      ([.due ⟨opening, .handed⟩, .spawned, .exited (.ok ⟨some 0⟩), .answered ⟨.drainOutput, ()⟩,
        .consumed .cancel, .answered ⟨.closeLog, ()⟩, .answered ⟨.phase, Phase.setup⟩,
        .due ⟨⟨.setup, .failed⟩, .handed⟩, .answered ⟨.post ⟨.setup, .failed⟩, ()⟩,
        .completed canceled] ++ [.appended ⟨1⟩ [97, 10]]) := rfl
  simp only [hexec, Option.map_some, Option.some.injEq] at htrace
  have hnever := (hsealed run (reachable_of_exec hexec)).2 _ _ _ _ htrace canceled
  simp at hnever

end RalphexRunner.Run
