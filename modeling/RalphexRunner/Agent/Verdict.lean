import Mathlib.Data.List.Induction
import RalphexRunner.Agent.Steps

/-!
# The outcome table of a run

`standing` reads the table off the events of a run: what a terminal decides before the exit, what
one decides after it, and what is left to `settle`.  The completion of a spawned run is what the
table says in every interleaving, and a command of the pull-request sequence starts only where the
table has not been decided by a terminal.
-/

namespace RalphexRunner.Run

open Program

variable {run next : Run}

/-- What the events of a run have decided so far. -/
inductive Standing where
  | running
  | exited (result : Except JobError ExitStatus) (history : List (Exchange Call Call.Answer))
  | settled (terminal : Terminal)

/-- A terminal decides a run that has not exited; after the exit a drain decides nothing, and any
other terminal decides what no terminal decided before. -/
def Standing.observe : Standing → Event → Standing
  | .running, .consumed terminal => .settled terminal
  | .running, .exited result => .exited result []
  | .exited result history, .consumed .drain => .exited result history
  | .exited _ _, .consumed terminal => .settled terminal
  | .exited result history, .answered exchange => .exited result (history ++ [exchange])
  | standing, _ => standing

def standing (trace : List Event) : Standing := trace.foldl Standing.observe .running

/-- The completion the table asks for: the terminal's, or the one `settle` computes from the exit
status and what it was answered. -/
def Decided (setup : Setup) : Standing → Option CompleteRequest → Prop
  | .running, _ => False
  | .exited result history, completion =>
      ∃ closed inner marks,
        history = ⟨.drainOutput, ()⟩ :: ⟨.closeLog, ()⟩ :: (inner ++ marks) ∧
          Reaches (Finish.settle result setup.pullRequest setup.tools) inner (.done closed) ∧
          completion = some closed.completion
  | .settled terminal, completion => completion = (stopped terminal).1

/-- A command starts only in a run that exited with success, asked for a pull request, and was not
decided by a terminal. -/
def Granted (setup : Setup) (before : List Event) : Event → Prop
  | .stepped _ => ∃ status history, standing before = .exited (.ok status) history ∧
      status.success = true ∧ setup.job.createPr = .yes
  | _ => True

def Event.Neutral : Event → Prop
  | .consumed _ => False
  | .exited _ => False
  | .answered _ => False
  | _ => True

theorem observe_of_neutral {event : Event} (h : event.Neutral) (standing : Standing) :
    standing.observe event = standing := by
  cases event <;> first | exact h.elim | (cases standing <;> rfl)

@[simp] theorem standing_snoc (trace : List Event) (event : Event) :
    standing (trace ++ [event]) = (standing trace).observe event := by
  rw [standing, List.foldl_append]
  rfl

theorem standing_append (trace : List Event) {events : List Event}
    (h : ∀ event ∈ events, event.Neutral) : standing (trace ++ events) = standing trace := by
  induction events using List.reverseRecOn with
  | nil => rw [List.append_nil]
  | append_singleton events event ih =>
      rw [← List.append_assoc, standing_snoc, observe_of_neutral (h event (by simp)),
        ih fun other hother ↦ h other (by simp [hother])]

/-- Only an exit is followed by the standing of a run that exited. -/
theorem exited_mem {trace : List Event} {result : Except JobError ExitStatus}
    {history : List (Exchange Call Call.Answer)} (h : standing trace = .exited result history) :
    .exited result ∈ trace := by
  induction trace using List.reverseRecOn generalizing history with
  | nil => cases h
  | append_singleton trace event ih =>
      rw [standing_snoc] at h
      rw [List.mem_append]
      cases hbefore : standing trace with
      | running =>
          rw [hbefore] at h
          cases event <;> cases h
          exact .inr (List.mem_singleton.mpr rfl)
      | exited before earlier =>
          rw [hbefore] at h
          have hsame : before = result := by
            cases event with
            | consumed terminal => cases terminal <;> cases h; rfl
            | _ => cases h; rfl
          exact .inl (ih (hsame ▸ hbefore))
      | settled terminal =>
          rw [hbefore] at h
          cases event <;> cases h

/-- A terminal other than a drain decides for good. -/
theorem settled_of_consumed {trace : List Event} {terminal : Terminal}
    (h : .consumed terminal ∈ trace) (hterminal : terminal ≠ .drain) :
    ∃ decisive, standing trace = .settled decisive := by
  induction trace using List.reverseRecOn with
  | nil => cases h
  | append_singleton trace event ih =>
      rw [standing_snoc]
      rcases List.mem_append.mp h with hearlier | hlast
      · obtain ⟨decisive, hsettled⟩ := ih hearlier
        exact ⟨decisive, by rw [hsettled]; cases event <;> rfl⟩
      · cases List.mem_singleton.mp hlast
        cases standing trace with
        | running => exact ⟨_, rfl⟩
        | exited result history =>
            cases terminal with
            | drain => exact absurd rfl hterminal
            | _ => exact ⟨_, rfl⟩
        | settled decisive => exact ⟨decisive, rfl⟩

/-- A run that exited so may open a pull request. -/
def Grants (setup : Setup) (exited : Except JobError ExitStatus) : Prop :=
  ∃ status, exited = .ok status ∧ status.success = true ∧ setup.job.createPr = .yes

/-- Commands only where they are granted, and an end as `ends` says. -/
def commandsOnly (granted : Prop) (ends : Finished → Prop) :
    Protocol Call Call.Answer Finished Unit where
  permits _ call :=
    match call with
    | .step _ => granted
    | _ => True
  promises _ _ _ := True
  move _ _ _ := ()
  ends _ := ends

theorem markFailure_follows {granted : Prop} {ends : Finished → Prop} {finished : Finished}
    (hends : ends finished) (completion : Option CompleteRequest) :
    Follows (commandsOnly granted ends) ()
      (Finish.markFailure completion >>= fun _ ↦ .done finished) := by
  rcases Finish.markFailure_cases completion fun _ ↦ .done finished with
    ⟨hnext, -⟩ | ⟨_, -, -, hnext⟩
  · rw [hnext]
    exact hends
  · rw [hnext]
    exact ⟨trivial, fun _ _ ↦ ⟨trivial, fun _ _ ↦ hends⟩⟩

theorem interrupt_follows (terminal : Terminal) (output : Option Text) :
    Follows (commandsOnly False fun finished ↦ finished.completion = (stopped terminal).1) ()
      (Finish.interrupt terminal output) := by
  rw [Finish.interrupt_eq]
  exact ⟨trivial, fun _ _ ↦ markFailure_follows (by rfl) _⟩

theorem stop_follows (terminal : Terminal) (output : Option Text) :
    Follows (commandsOnly False fun finished ↦ finished.completion = (stopped terminal).1) ()
      (Finish.stop terminal output) := by
  rw [Finish.stop_eq]
  exact ⟨trivial, fun _ _ ↦ ⟨trivial, fun _ _ ↦ interrupt_follows terminal output⟩⟩

theorem unspawned_follows (error : JobError) (output : Option Text) :
    Follows (commandsOnly False fun finished ↦ finished.completion ≠ none) ()
      (Finish.unspawned error output) := by
  rw [Finish.unspawned_eq]
  exact ⟨trivial, fun _ _ ↦ ⟨trivial, fun _ _ ↦ markFailure_follows nofun _⟩⟩

/-- A run that may not open a pull request settles at once, or after one look at its output. -/
theorem settle_of_not_grants {setup : Setup} {exited : Except JobError ExitStatus}
    (h : ¬ Grants setup exited) :
    (∃ closed, Finish.settle exited setup.pullRequest setup.tools = .done closed) ∨
      ∃ closed : Text → Closed, Finish.settle exited setup.pullRequest setup.tools =
        .call .tail fun tail ↦ .done (closed tail) := by
  cases exited with
  | error error => exact .inl ⟨_, rfl⟩
  | ok status =>
      cases hsuccess : status.success with
      | false =>
          right
          simp only [Finish.settle, hsuccess]
          exact ⟨_, rfl⟩
      | true =>
          left
          cases hcreate : setup.job.createPr with
          | yes => exact absurd ⟨status, rfl, hsuccess, hcreate⟩ h
          | no =>
              simp only [Finish.settle, hsuccess, if_true, Setup.pullRequest, hcreate]
              exact ⟨_, rfl⟩

/-- Only a run that may open a pull request starts commands when it finishes. -/
theorem finishing_follows (setup : Setup) (exited : Except JobError ExitStatus) :
    Follows (commandsOnly (Grants setup exited) fun _ ↦ True) () (setup.finishing exited) := by
  by_cases hgrants : Grants setup exited
  · apply follows_of_stable
    · intro call
      cases call <;> first | exact hgrants | trivial
    · exact fun _ _ ↦ rfl
    · exact fun _ ↦ trivial
  rw [Setup.finishing_eq]
  refine ⟨trivial, fun _ _ ↦ ⟨trivial, fun _ _ ↦ ?_⟩⟩
  rcases settle_of_not_grants hgrants with ⟨closed, hsettle⟩ | ⟨closed, hsettle⟩
  · rw [hsettle, done_bind]
    exact markFailure_follows trivial _
  · rw [hsettle, call_bind]
    exact ⟨trivial, fun tail _ ↦ markFailure_follows trivial _⟩

/-- The completion of a run that finished is the one `settle` came to. -/
theorem decided_of_reaches {setup : Setup} {exited : Except JobError ExitStatus}
    {history : List (Exchange Call Call.Answer)} {finished : Finished}
    (h : Reaches (setup.finishing exited) history (.done finished)) :
    Decided setup (.exited exited history) finished.completion := by
  rw [Setup.finishing_eq] at h
  rcases h.of_call with ⟨-, hdone⟩ | ⟨_, history, rfl, hclose⟩
  · cases hdone
  rcases hclose.of_call with ⟨-, hdone⟩ | ⟨_, history, rfl, hsettle⟩
  · cases hdone
  obtain ⟨inner, marks, closed, rfl, hclosed, hmarks⟩ := hsettle.bind_done
  obtain ⟨_, _, _, -, -, hfinished⟩ := hmarks.bind_done
  cases hfinished.of_done.2
  exact ⟨closed, inner, marks, rfl, hclosed, rfl⟩

/-! ## The invariant -/

/-- The program under way agrees with what the events so far have decided. -/
def Performs (setup : Setup) (trace : List Event) (program : RunProgram Finished) : Mode → Prop
  | .winding =>
      (.spawned ∉ trace ∧ standing trace = .running ∧
          Follows (commandsOnly False fun finished ↦ finished.completion ≠ none) () program) ∨
        ∃ terminal, standing trace = .settled terminal ∧
          Follows (commandsOnly False fun finished ↦
            finished.completion = (stopped terminal).1) () program
  | .finishing =>
      ∃ result history, standing trace = .exited result history ∧
        Reaches (setup.finishing result) history program ∧
        Follows (commandsOnly (Grants setup result) fun _ ↦ True) () program

/-- What `execute` returned: some completion of a run that was never spawned, and what the table
says of one that was. -/
def Closes (setup : Setup) (trace : List Event) (finished : Finished) : Prop :=
  (.spawned ∉ trace ∧ standing trace = .running ∧ finished.completion ≠ none) ∨
    Decided setup (standing trace) finished.completion

/-- Where `serve_run` stands agrees with what the events so far have decided. -/
def Agrees (setup : Setup) (trace : List Event) : Pc → Prop
  | .entered | .validating | .watching | .spawning =>
      standing trace = .running ∧ .spawned ∉ trace
  | .waiting => standing trace = .running
  | .unwatching result => standing trace = .exited result []
  | .performing mode _ program => Performs setup trace program mode
  | .reporting finished | .reported finished _ | .removing finished _ | .leaving finished _
  | .left finished _ => Closes setup trace finished

/-- Events that decide nothing and are no spawn. -/
def Event.Idle (event : Event) : Prop := event.Neutral ∧ event ≠ .spawned

theorem Event.Background.idle {event : Event} (h : event.Background) : event.Idle := by
  cases event <;> first | exact h.elim | exact ⟨trivial, nofun⟩

theorem spawned_mem_append {trace events : List Event} (h : ∀ event ∈ events, event.Idle) :
    .spawned ∈ trace ++ events ↔ .spawned ∈ trace := by
  rw [List.mem_append, or_iff_left]
  exact fun hmem ↦ (h _ hmem).2 rfl

theorem Added.idle {call : Call} {events : List Event} (h : Added call events) :
    ∀ event ∈ events, event.Idle := by
  cases h with
  | nothing => exact nofun
  | due | stepped =>
      intro event hevent
      cases List.mem_singleton.mp hevent
      exact ⟨trivial, nofun⟩

theorem Performs.append {setup : Setup} {trace events : List Event} {mode : Mode}
    {program : RunProgram Finished} (h : Performs setup trace program mode)
    (hevents : ∀ event ∈ events, event.Idle) : Performs setup (trace ++ events) program mode := by
  have hstanding := standing_append trace fun event hevent ↦ (hevents event hevent).1
  cases mode <;> simpa only [Performs, hstanding, spawned_mem_append hevents] using h

/-- An answer is one more step into the program. -/
theorem Performs.answered {setup : Setup} {trace : List Event} {mode : Mode} {call : Call}
    {resume : call.Answer → RunProgram Finished} (answer : call.Answer)
    (h : Performs setup trace (.call call resume) mode) :
    Performs setup (trace ++ [.answered ⟨call, answer⟩]) (resume answer) mode := by
  cases mode with
  | winding =>
      rcases h with ⟨hspawned, hstanding, hfollows⟩ | ⟨terminal, hstanding, hfollows⟩
      · refine .inl ⟨?_, ?_, hfollows.answered answer trivial⟩
        · simpa using hspawned
        · rw [standing_snoc, hstanding]
          rfl
      · refine .inr ⟨terminal, ?_, hfollows.answered answer trivial⟩
        rw [standing_snoc, hstanding]
        rfl
  | finishing =>
      obtain ⟨result, history, hstanding, hreaches, hfollows⟩ := h
      refine ⟨result, history ++ [⟨call, answer⟩], ?_, hreaches.answered answer,
        hfollows.answered answer trivial⟩
      rw [standing_snoc, hstanding]
      rfl

theorem Performs.closes {setup : Setup} {trace : List Event} {mode : Mode} {finished : Finished}
    (h : Performs setup trace (.done finished) mode) : Closes setup trace finished := by
  cases mode with
  | winding =>
      rcases h with hnone | ⟨terminal, hstanding, hends⟩
      · exact .inl hnone
      · right
        rw [hstanding]
        exact hends
  | finishing =>
      obtain ⟨result, history, hstanding, hreaches, -⟩ := h
      right
      rw [hstanding]
      exact decided_of_reaches hreaches

theorem Closes.append {setup : Setup} {trace events : List Event} {finished : Finished}
    (h : Closes setup trace finished) (hevents : ∀ event ∈ events, event.Idle) :
    Closes setup (trace ++ events) finished := by
  have hstanding := standing_append trace fun event hevent ↦ (hevents event hevent).1
  simpa only [Closes, hstanding, spawned_mem_append hevents] using h

theorem Agrees.append {setup : Setup} {trace events : List Event} {pc : Pc}
    (h : Agrees setup trace pc) (hevents : ∀ event ∈ events, event.Idle) :
    Agrees setup (trace ++ events) pc := by
  have hstanding := standing_append trace fun event hevent ↦ (hevents event hevent).1
  cases pc with
  | performing mode stage program => exact Performs.append h hevents
  | reporting | reported | removing | leaving | left => exact Closes.append h hevents
  | _ => simpa only [Agrees, hstanding, spawned_mem_append hevents] using h

theorem agrees_of_beside (h : Beside run next) (hagrees : Agrees run.setup run.trace run.pc) :
    Agrees next.setup next.trace next.pc := by
  obtain ⟨hsetup, hpc, events, htrace, hbackground⟩ := h
  rw [hsetup, hpc, htrace]
  exact hagrees.append fun event hevent ↦ (hbackground event hevent).idle

/-- A step of `serve_run` agrees with what was decided. -/
theorem agrees_of_serves {action : Action} (h : Serves run action next)
    (hagrees : Agrees run.setup run.trace run.pc) : Agrees next.setup next.trace next.pc := by
  cases h with
  | accepted hpc => rw [hpc] at hagrees; exact hagrees
  | mismatched hpc => rw [hpc] at hagrees; exact .inl ⟨hagrees.2, hagrees.1, nofun⟩
  | validated hpc => rw [hpc] at hagrees; exact hagrees
  | invalid error hpc => rw [hpc] at hagrees; exact .inl ⟨hagrees.2, hagrees.1, nofun⟩
  | started hpc => rw [hpc] at hagrees; exact hagrees
  | spawned hpc =>
      rw [hpc] at hagrees
      show standing (run.trace ++ [.spawned]) = .running
      rw [standing_snoc, hagrees.1]
      rfl
  | unspawned error hpc =>
      rw [hpc] at hagrees
      exact .inl ⟨hagrees.2, hagrees.1, unspawned_follows error _⟩
  | exited result hpc =>
      rw [hpc] at hagrees
      show standing (run.trace ++ [.exited result]) = .exited result []
      rw [standing_snoc, hagrees]
      rfl
  | unwatched result watcher hpc =>
      rw [hpc] at hagrees
      exact ⟨result, [], hagrees, .start, finishing_follows _ _⟩
  | stopped terminal inbox hpc =>
      rw [hpc] at hagrees
      refine .inr ⟨terminal, ?_, stop_follows terminal _⟩
      rw [taken_trace, standing_snoc, hagrees]
      rfl
  | ignored inbox stage call resume hpc =>
      rw [hpc] at hagrees
      obtain ⟨result, history, hstanding, hrest⟩ := hagrees
      rw [taken_pc, hpc]
      refine ⟨result, history, ?_, hrest⟩
      rw [taken_trace, standing_snoc, hstanding]
      rfl
  | interrupted terminal inbox stage call resume hterminal hpc =>
      rw [hpc] at hagrees
      obtain ⟨result, history, hstanding, -⟩ := hagrees
      refine .inr ⟨terminal, ?_, interrupt_follows terminal _⟩
      rw [abandon_trace, taken_trace, standing_snoc, hstanding]
      cases terminal <;> first | exact absurd rfl hterminal | rfl
  | suspended hpc hadvance =>
      rw [hpc] at hagrees
      obtain ⟨hsetup, -, -, -, -, -, events, htrace, hadded⟩ := advance_awaited hadvance
      have hperforms := Performs.append hagrees hadded.idle
      rw [← htrace, ← hsetup] at hperforms
      exact hperforms
  | @answered mode stage call resume poke after answer hpc hadvance =>
      rw [hpc] at hagrees
      obtain ⟨hsetup, -, -, -, -, -, events, htrace, hadded⟩ := advance_awaited hadvance
      have hperforms := (Performs.append hagrees hadded.idle).answered answer
      rw [← htrace, ← hsetup] at hperforms
      exact hperforms
  | concluded finished hpc =>
      rw [hpc] at hagrees
      exact Performs.closes hagrees
  | reported finished completion hpc =>
      rw [hpc] at hagrees
      exact Closes.append hagrees fun event hevent ↦ by
        cases List.mem_singleton.mp hevent
        exact ⟨trivial, nofun⟩
  | silent finished hpc => rw [hpc] at hagrees; exact hagrees
  | heard finished completion answer hpc => rw [hpc] at hagrees; exact hagrees
  | removed finished ended hpc => rw [hpc] at hagrees; exact hagrees
  | left finished ended hpc => rw [hpc] at hagrees; exact hagrees

theorem agrees_of_reachable (h : machine.Reachable run) :
    Agrees run.setup run.trace run.pc := by
  apply h.invariant fun run ↦ Agrees run.setup run.trace run.pc
  · rintro _ ⟨setup, rfl⟩
    exact ⟨rfl, nofun⟩
  · intro run action next hagrees _ hstep
    rcases step_cases hstep with ⟨-, hbeside⟩ | hserves
    · exact agrees_of_beside hbeside hagrees
    · exact agrees_of_serves hserves hagrees

/-- What `execute` has returned, once it has. -/
def Pc.finished : Pc → Option Finished
  | .reporting finished | .reported finished _ | .removing finished _ | .leaving finished _
  | .left finished _ => some finished
  | _ => none

/-- What the table says once `execute` has returned. -/
theorem closes_of_reachable (h : machine.Reachable run) {finished : Finished}
    (hfinished : run.pc.finished = some finished) : Closes run.setup run.trace finished := by
  have hagrees := agrees_of_reachable h
  cases hpc : run.pc with
  | reporting | reported | removing | leaving | left =>
      rw [hpc] at hagrees hfinished
      cases hfinished
      exact hagrees
  | _ => rw [hpc] at hfinished; cases hfinished

theorem granted_of_neutral {setup : Setup} {before : List Event} {event : Event}
    (h : ∀ command, event ≠ .stepped command) : Granted setup before event := by
  cases event <;> first | exact absurd rfl (h _) | trivial

theorem granted_of_background {setup : Setup} {before : List Event} {event : Event}
    (h : event.Background) : Granted setup before event :=
  granted_of_neutral fun _ heq ↦ by rw [heq] at h; exact h

/-- A program that asks for a command is one of a run that may open a pull request. -/
theorem Performs.granted {setup : Setup} {trace : List Event} {mode : Mode} {command : Command}
    {resume : StepOutcome → RunProgram Finished}
    (h : Performs setup trace (.call (.step command) resume) mode) :
    Granted setup trace (.stepped command) := by
  cases mode with
  | winding =>
      rcases h with ⟨-, -, hnever, -⟩ | ⟨_, -, hnever, -⟩
      · exact hnever.elim
      · exact hnever.elim
  | finishing =>
      obtain ⟨result, history, hstanding, -, ⟨status, rfl, hsuccess, hcreate⟩, -⟩ := h
      exact ⟨status, history, hstanding, hsuccess, hcreate⟩

theorem Performs.justified {setup : Setup} {trace events : List Event} {mode : Mode} {call : Call}
    {resume : call.Answer → RunProgram Finished}
    (h : Performs setup trace (.call call resume) mode) (hadded : Added call events)
    (hjustified : Justified (Granted setup) trace) :
    Justified (Granted setup) (trace ++ events) := by
  cases hadded with
  | nothing => rwa [List.append_nil]
  | due snapshot fate => exact hjustified.snoc trivial
  | stepped command => exact hjustified.snoc h.granted

/-- A command starts only in a run that exited with success and asked for a pull request. -/
theorem commands_granted (h : machine.Reachable run) :
    Justified (Granted run.setup) run.trace := by
  apply h.invariant_of (fun run ↦ Agrees run.setup run.trace run.pc)
    (fun run ↦ Justified (Granted run.setup) run.trace) fun _ ↦ agrees_of_reachable
  · rintro _ ⟨setup, rfl⟩
    exact justified_nil
  · intro run action next hagrees hjustified _ hstep
    rcases step_cases hstep with ⟨-, hsetup, -, events, htrace, hevents⟩ | hserves
    · rw [hsetup, htrace]
      exact hjustified.append
        (justified_of_forall fun event hevent _ ↦ granted_of_background (hevents event hevent))
    cases hserves with
    | spawned | exited | stopped | ignored | reported => exact hjustified.snoc trivial
    | interrupted terminal inbox stage call resume =>
        have hnext := hjustified.snoc (show Granted run.setup _ (.consumed terminal) from trivial)
        simpa only [abandon_setup, abandon_trace, taken_setup, taken_trace] using hnext
    | suspended hpc hadvance =>
        rw [hpc] at hagrees
        obtain ⟨hsetup, -, -, -, -, -, events, htrace, hadded⟩ := advance_awaited hadvance
        have hnext := Performs.justified hagrees hadded hjustified
        rw [← htrace, ← hsetup] at hnext
        exact hnext
    | answered hpc hadvance =>
        rw [hpc] at hagrees
        obtain ⟨hsetup, -, -, -, -, -, events, htrace, hadded⟩ := advance_awaited hadvance
        have hnext := Performs.justified hagrees hadded hjustified
        rw [← htrace, ← hsetup] at hnext
        exact hnext.snoc trivial
    | _ => exact hjustified

def Event.completion? : Event → Option CompleteRequest
  | .completed completion => some completion
  | _ => none

def completions (trace : List Event) : List CompleteRequest := trace.filterMap Event.completion?

/-- The completions sent by the time `serve_run` stands where it does. -/
def Pc.sent : Pc → Option CompleteRequest
  | .reported _ completion => some completion
  | .removing finished _ | .leaving finished _ | .left finished _ => finished.completion
  | _ => none

/-- A completion is sent only as the one of what `execute` returned. -/
def Pc.Sound : Pc → Prop
  | .reported finished completion => finished.completion = some completion
  | _ => True

theorem completions_append {trace events : List Event}
    (h : ∀ event ∈ events, event.completion? = none) :
    completions (trace ++ events) = completions trace := by
  rw [completions, List.filterMap_append, List.filterMap_eq_nil_iff.mpr h, List.append_nil]
  rfl

theorem Event.Background.silent {event : Event} (h : event.Background) :
    event.completion? = none := by
  cases event <;> first | exact h.elim | rfl

theorem Added.silent {call : Call} {events : List Event} (h : Added call events) :
    ∀ event ∈ events, event.completion? = none := by
  cases h with
  | nothing => exact nofun
  | due | stepped =>
      intro event hevent
      cases List.mem_singleton.mp hevent
      rfl

/-- What was sent is the completion of what `execute` returned, and it was sent once. -/
theorem sent_of_reachable (h : machine.Reachable run) :
    completions run.trace = run.pc.sent.toList ∧ run.pc.Sound := by
  apply h.invariant fun run ↦ completions run.trace = run.pc.sent.toList ∧ run.pc.Sound
  · rintro _ ⟨setup, rfl⟩
    exact ⟨rfl, trivial⟩
  · rintro run action next ⟨hsent, hsound⟩ - hstep
    rcases step_cases hstep with ⟨-, -, hpc, events, htrace, hevents⟩ | hserves
    · rw [hpc, htrace, completions_append fun event hevent ↦ (hevents event hevent).silent]
      exact ⟨hsent, hsound⟩
    have hsnoc (event : Event) (hevent : event.completion? = none) :
        completions (run.trace ++ [event]) = completions run.trace :=
      completions_append fun other hother ↦ by rwa [List.mem_singleton.mp hother]
    cases hserves with
    | accepted hpc | mismatched hpc | validated hpc | invalid error hpc | started hpc
    | unspawned error hpc | unwatched result watcher hpc | concluded finished hpc
    | removed finished ended hpc | left finished ended hpc =>
        rw [hpc] at hsent
        exact ⟨hsent, trivial⟩
    | spawned hpc | exited result hpc | stopped terminal inbox hpc =>
        rw [hpc] at hsent
        exact ⟨(hsnoc _ rfl).trans hsent, trivial⟩
    | ignored inbox stage call resume hpc =>
        rw [taken_pc, taken_trace, hsnoc _ rfl]
        exact ⟨hsent, hsound⟩
    | interrupted terminal inbox stage call resume hterminal hpc =>
        rw [hpc] at hsent
        rw [abandon_trace, taken_trace, hsnoc _ rfl]
        exact ⟨hsent, trivial⟩
    | suspended hpc hadvance =>
        rw [hpc] at hsent
        obtain ⟨-, -, -, -, -, -, events, htrace, hadded⟩ := advance_awaited hadvance
        have hsame := (completions_append hadded.silent).trans hsent
        rw [← htrace] at hsame
        exact ⟨hsame, trivial⟩
    | answered hpc hadvance =>
        rw [hpc] at hsent
        obtain ⟨-, -, -, -, -, -, events, htrace, hadded⟩ := advance_awaited hadvance
        have hsame := (completions_append hadded.silent).trans hsent
        rw [← htrace] at hsame
        refine ⟨?_, trivial⟩
        rw [emit_trace, completions_append (by simp [Event.completion?])]
        exact hsame
    | reported finished completion hpc hcompletion =>
        rw [hpc] at hsent
        refine ⟨?_, hcompletion⟩
        rw [emit_trace, completions, List.filterMap_append]
        exact congrArg (· ++ [completion]) hsent
    | silent finished hpc hcompletion =>
        rw [hpc] at hsent
        refine ⟨hsent.trans ?_, trivial⟩
        exact (congrArg Option.toList hcompletion).symm
    | heard finished completion answer hpc =>
        rw [hpc] at hsent hsound
        refine ⟨hsent.trans ?_, trivial⟩
        exact (congrArg Option.toList hsound).symm

/-- Before the exit is taken the exit wins, and a finishing run takes a terminal only while it is
suspended. -/
theorem consumes_eq_none (hpc : run.pc = .waiting) (hexit : run.exit.isSome) :
    run.consumes = none := by
  obtain ⟨result, hresult⟩ := Option.isSome_iff_exists.mp hexit
  unfold consumes
  split
  · rfl
  · simp only [hpc, hresult, Option.isNone_some, Bool.false_eq_true, if_false]

theorem sent_finished {pc : Pc} {completion : CompleteRequest} (hsound : pc.Sound)
    (h : pc.sent = some completion) :
    ∃ finished, pc.finished = some finished ∧ finished.completion = some completion := by
  cases pc with
  | reported finished sent =>
      cases h
      exact ⟨finished, rfl, hsound⟩
  | removing finished | leaving finished | left finished => exact ⟨finished, rfl, h⟩
  | _ => cases h

/-- The completion of a spawned run is the table's, in every interleaving; the exit wins over a
terminal that is ready with it; and a command starts only in a run that exited with success, asked
for a pull request and took no terminal but drains. -/
theorem run_outcome (h : machine.Reachable run) :
    (∀ finished, run.pc.finished = some finished → .spawned ∈ run.trace →
      Decided run.setup (standing run.trace) finished.completion) ∧
    (∀ completion, .completed completion ∈ run.trace →
      ∃ finished, run.pc.finished = some finished ∧ finished.completion = some completion) ∧
    (run.pc = .waiting → run.exit.isSome → run.consumes = none) ∧
    ∀ before command after, run.trace = before ++ .stepped command :: after →
      (∀ terminal, .consumed terminal ∈ before → terminal = .drain) ∧
      ∃ status, .exited (.ok status) ∈ before ∧ status.success = true ∧
        run.setup.job.createPr = .yes := by
  refine ⟨?_, ?_, consumes_eq_none, ?_⟩
  · intro finished hfinished hspawned
    exact (closes_of_reachable h hfinished).resolve_left fun hnever ↦ hnever.1 hspawned
  · intro completion hcompleted
    obtain ⟨hsent, hsound⟩ := sent_of_reachable h
    have hmem : completion ∈ completions run.trace :=
      List.mem_filterMap.mpr ⟨_, hcompleted, rfl⟩
    rw [hsent, Option.mem_toList] at hmem
    exact sent_finished hsound hmem
  · intro before command after hsplit
    obtain ⟨status, history, hstanding, hsuccess, hcreate⟩ :=
      commands_granted h before _ after hsplit
    refine ⟨fun terminal hterminal ↦ ?_, status, exited_mem hstanding, hsuccess, hcreate⟩
    by_contra hother
    obtain ⟨decisive, hsettled⟩ := settled_of_consumed hterminal hother
    rw [hstanding] at hsettled
    cases hsettled

/-- A run of the native runtime whose branch is already known. -/
def native (createPr : CreatePr) : Setup where
  job := {
    runId := ⟨['r']⟩
    identifier := []
    issueUrl := []
    title := ['t']
    planPath := ['p']
    branch := ⟨['b']⟩
    mode := []
    runtime := runtimeName
    ctx := ['c']
    createPr }
  worktree := .yes
  tools := ⟨['g'], ['h'], 60⟩
  output := none

/-- The actions up to the spawn of ralphex, with the opening snapshot posted. -/
def upToSpawn : List Action :=
  [.begins, .validates (.ok ()), .starts, .watches .reads, .watches .answered, .spawns (.ok ())]

/-- A run of actions that are allowed everywhere, after the runtime check. -/
theorem reachableBy_of_exec {allowed : Run → Action → Prop} {createPr : CreatePr}
    {actions : List Action} (hbegins : allowed (enter (native createPr)) .begins)
    (hallowed : ∀ action ∈ actions, ∀ run, allowed run action)
    (h : machine.exec { enter (native createPr) with pc := .validating } actions = some run) :
    machine.ReachableBy allowed run ∧
      machine.exec (enter (native createPr)) (.begins :: actions) = some run := by
  have hstep : machine.step (enter (native createPr)) .begins =
      some { enter (native createPr) with pc := .validating } := rfl
  have hfirst : machine.ReachableBy allowed { enter (native createPr) with pc := .validating } :=
    .step (.init ⟨_, rfl⟩) hbegins hstep
  refine ⟨hfirst.exec hallowed h, ?_⟩
  rw [Machine.exec_cons, hstep, Option.bind_some]
  exact h

def posts : List Action := [.pokes .performs, .pokes .hands, .pokes .completes]

/-- The log is closed without a chunk left to send. -/
def closes : List Action :=
  [.pokes .performs, .selects .closing, .flushes, .pokes .completes]

def succeeds : List Action := [.pokes .performs, .pokes (.ends (.ran ⟨some 0⟩ [117] []))]

/-- Ralphex succeeds and its pull request is already open; a drain arrives in the middle. -/
def drainedInPush : List Action :=
  upToSpawn ++ [.exits (.ok ⟨some 0⟩), .takesExit, .unwatched, .pokes .performs, .hangsUp,
    .pokes .completes] ++ closes ++ [.pokes .performs] ++ posts ++ succeeds ++
    [.pokes .performs, .arrives .drain, .consumes, .pokes (.ends (.ran ⟨some 0⟩ [] [])),
      .concludes, .reports]

theorem reachable_of_exec {setup : Setup} {actions : List Action}
    (h : machine.exec (enter setup) actions = some run) : machine.Reachable run :=
  Machine.Reachable.exec (.init ⟨setup, rfl⟩) h

theorem run_outcome_drained : ∃ run, machine.exec (enter (native .yes)) drainedInPush = some run ∧
    Decided run.setup (standing run.trace) (some (done ['u'])) := by
  have hsome : (machine.exec (enter (native .yes)) drainedInPush).isSome := rfl
  obtain ⟨run, hexec⟩ := Option.isSome_iff_exists.mp hsome
  have hpc : (machine.exec (enter (native .yes)) drainedInPush).map (fun run ↦ run.pc.finished) =
      some (some (Finish.finished none (Finish.removed (done ['u'])))) := rfl
  have hspawned : (machine.exec (enter (native .yes)) drainedInPush).map
      (fun run ↦ run.trace.any fun event ↦ event matches .spawned) = some true := rfl
  simp only [hexec, Option.map_some, Option.some.injEq] at hpc hspawned
  obtain ⟨event, hmem, hevent⟩ := List.any_eq_true.mp hspawned
  have hfirst : event = .spawned := by
    cases event <;> first | rfl | cases hevent
  exact ⟨run, hexec, (run_outcome (reachable_of_exec hexec)).1 _ hpc (hfirst ▸ hmem)⟩

end RalphexRunner.Run
