import RalphexRunner.Agent.Tasks
import RalphexRunner.Progress.Snapshots

/-!
# The timeline of a run

Snapshots fall due in the posting task until the watcher is stopped, and in the program that winds
the run up after that.  `Level` says how far the timeline has come, and `timeline` is the protocol
every program keeps to: the snapshot of the pull request only where it is granted, and a failed one
exactly where the completion is an error.
-/

namespace RalphexRunner.Run

open Program

variable {run next : Run}

inductive Level where
  | live
  | early
  | frozen
  | pr
  | failed
  deriving DecidableEq

/-- The watcher was stopped and no failure was posted. -/
def Level.Open : Level → Prop
  | .early | .frozen | .pr => True
  | .live | .failed => False

/-- The phase is fixed at the pull request. -/
def Level.OfPr : Level → Prop
  | .frozen | .pr => True
  | .live | .early | .failed => False

def Level.after (level : Level) : Call → Level
  | .halt | .unwatch => .early
  | .freeze _ => .frozen
  | .post ⟨_, .running⟩ => .pr
  | .post ⟨_, .failed⟩ => .failed
  | _ => level

def Failing (finished : Finished) : Prop :=
  ∃ completion, finished.completion = some completion ∧ completion.status = .error

/-- A program stops the watcher first, posts the pull request where it is granted, and a failure as
the last thing where the completion is an error. -/
def timeline (granted : Prop) : Protocol Call Call.Answer Finished Level where
  permits level call :=
    match call with
    | .halt | .unwatch => level = .live
    | .freeze phase => level = .early ∧ phase = .pr ∧ granted
    | .post ⟨phase, .running⟩ => level = .frozen ∧ phase = .pr
    | .post ⟨phase, .failed⟩ => level.Open ∧ (phase = .pr ↔ level.OfPr)
    | _ => level.Open
  promises
    | level, .phase, phase => phase = Phase.pr ↔ level.OfPr
    | _, _, _ => True
  move level call _ := level.after call
  ends level finished := (level = .failed ∧ Failing finished) ∨ (level.Open ∧ ¬ Failing finished)

variable {granted : Prop} {level : Level}

/-- Whatever the completion says is marked. -/
theorem markFailure_marks (hopen : level.Open) (finished : Finished) :
    Follows (timeline granted) level
      (Finish.markFailure finished.completion >>= fun _ ↦ .done finished) := by
  rcases Finish.markFailure_cases finished.completion fun _ ↦ .done finished with
    ⟨hnext, hcalm⟩ | ⟨completion, hcompletion, hstatus, hnext⟩
  · rw [hnext]
    refine .inr ⟨hopen, ?_⟩
    rintro ⟨failed, hsome, herror⟩
    exact hcalm failed hsome herror
  · rw [hnext]
    exact ⟨hopen, fun phase hphase ↦ ⟨⟨hopen, hphase⟩,
      fun _ _ ↦ .inl ⟨rfl, completion, hcompletion, hstatus⟩⟩⟩

theorem interrupt_marks (hopen : level.Open) (terminal : Terminal) (output : Option Text) :
    Follows (timeline granted) level (Finish.interrupt terminal output) := by
  rw [Finish.interrupt_eq]
  exact ⟨hopen, fun _ _ ↦ markFailure_marks hopen (Finish.stopped terminal output)⟩

theorem stop_marks (terminal : Terminal) (output : Option Text) :
    Follows (timeline granted) .live (Finish.stop terminal output) := by
  rw [Finish.stop_eq]
  exact ⟨rfl, fun _ _ ↦ ⟨trivial, fun _ _ ↦ interrupt_marks (by trivial) terminal output⟩⟩

theorem unspawned_marks (error : JobError) (output : Option Text) :
    Follows (timeline granted) .live (Finish.unspawned error output) := by
  rw [Finish.unspawned_eq]
  exact ⟨rfl, fun _ _ ↦ ⟨trivial, fun _ _ ↦ markFailure_marks (by trivial)
    ⟨some (failed error.failReason error.message []), .continue, output⟩⟩⟩

/-- What the pull request of a run asks for: commands, and one look at the description. -/
def Call.OfRequest : Call → Prop
  | .step _ => True
  | .describe => True
  | _ => False

section Request

variable {σ α : Type} {state : σ}

theorem commands_follows {protocol : Protocol Call Call.Answer α σ} {program : PrProgram α}
    (hpermits : ∀ call, Call.OfRequest call → protocol.permits state call)
    (hmove : ∀ call answer, Call.OfRequest call → protocol.move state call answer = state)
    (hends : ∀ result, protocol.ends state result) :
    Follows protocol state (Finish.commands program) :=
  follows_translate (fun _ ↦ hpermits _ trivial) (fun _ _ ↦ hmove _ _ trivial) hends

theorem pushedBranch_follows {protocol : Protocol Call Call.Answer Branch σ}
    {pullRequest : PullRequest} {tools : PrTools}
    (hpermits : ∀ call, Call.OfRequest call → protocol.permits state call)
    (hmove : ∀ call answer, Call.OfRequest call → protocol.move state call answer = state)
    (hends : ∀ branch, protocol.ends state branch) :
    Follows protocol state (Finish.pushedBranch pullRequest tools) := by
  unfold Finish.pushedBranch
  split
  · exact hends _
  · apply Follows.bind
    exact commands_follows hpermits hmove fun actual ↦ hends _

theorem written_follows {protocol : Protocol Call Call.Answer (Option Description) σ}
    {pullRequest : PullRequest}
    (hpermits : ∀ call, Call.OfRequest call → protocol.permits state call)
    (hmove : ∀ call answer, Call.OfRequest call → protocol.move state call answer = state)
    (hends : ∀ written, protocol.ends state written) :
    Follows protocol state (Finish.written pullRequest) := by
  unfold Finish.written
  split
  · exact hends _
  · refine ⟨hpermits _ trivial, fun read _ ↦ ?_⟩
    rw [hmove .describe read trivial]
    exact hends _

/-- Opening the pull request is followed by whatever may follow all its outcomes. -/
theorem request_follows {protocol : Protocol Call Call.Answer Finished σ}
    {pullRequest : PullRequest} {tools : PrTools} {next : Closed → RunProgram Finished}
    (hpermits : ∀ call, Call.OfRequest call → protocol.permits state call)
    (hmove : ∀ call answer, Call.OfRequest call → protocol.move state call answer = state)
    (hnext : ∀ closed, Follows protocol state (next closed)) :
    Follows protocol state (Finish.request pullRequest tools >>= next) := by
  simp only [Finish.request, bind_assoc]
  apply Follows.bind
  refine pushedBranch_follows hpermits hmove fun branch ↦ ?_
  apply Follows.bind
  refine written_follows hpermits hmove fun written ↦ ?_
  apply Follows.bind
  refine commands_follows hpermits hmove fun opened ↦ ?_
  cases opened with
  | ok url => exact hnext _
  | error error => exact hnext _

end Request

theorem settle_of_grants {setup : Setup} {exited : Except JobError ExitStatus}
    (h : Grants setup exited) : Finish.settle exited setup.pullRequest setup.tools =
      .call (.freeze .pr) fun _ ↦ .call (.post ⟨.pr, .running⟩) fun _ ↦
        Finish.request setup.pullRequest setup.tools := by
  obtain ⟨status, rfl, hsuccess, hcreate⟩ := h
  simp only [Finish.settle, hsuccess, if_true, Setup.pullRequest, hcreate]
  rfl

/-- The programs that finish a run take the timeline from level to level. -/
theorem finishing_marks (setup : Setup) (exited : Except JobError ExitStatus) :
    Follows (timeline (Grants setup exited)) .early (setup.finishing exited) := by
  rw [Setup.finishing_eq]
  refine ⟨trivial, fun _ _ ↦ ⟨trivial, fun _ _ ↦ ?_⟩⟩
  have hmarks {level : Level} (hopen : level.Open) (closed : Closed) :
      Follows (timeline (Grants setup exited)) level
        (Finish.markFailure (some closed.completion) >>= fun _ ↦
          .done (Finish.finished setup.output closed)) :=
    markFailure_marks hopen (Finish.finished setup.output closed)
  by_cases hgrants : Grants setup exited
  · rw [settle_of_grants hgrants]
    refine ⟨⟨rfl, rfl, hgrants⟩, fun _ _ ↦ ⟨⟨rfl, rfl⟩, fun _ _ ↦ ?_⟩⟩
    refine request_follows ?_ ?_ (hmarks (by trivial))
    · intro call hcall
      cases call <;> first | exact hcall.elim | trivial
    · intro call answer hcall
      cases call <;> first | exact hcall.elim | rfl
  · rcases settle_of_not_grants hgrants with ⟨closed, hsettle⟩ | ⟨closed, hsettle⟩
    · rw [hsettle]
      exact hmarks (by trivial) closed
    · rw [hsettle]
      exact ⟨trivial, fun tail _ ↦ hmarks (by trivial) (closed tail)⟩

def Event.due? : Event → Option Snapshot
  | .due posting => some posting.snapshot
  | _ => none

/-- The snapshots of a run that fell due, in order. -/
def dues (trace : List Event) : List Snapshot := trace.filterMap Event.due?

theorem dues_append {trace events : List Event} (h : ∀ event ∈ events, event.due? = none) :
    dues (trace ++ events) = dues trace := by
  rw [dues, List.filterMap_append, List.filterMap_eq_nil_iff.mpr h, List.append_nil]
  rfl

theorem dues_append_due (trace : List Event) (due : List Due) :
    dues (trace ++ due.map .due) = dues trace ++ due.map Due.snapshot := by
  rw [dues, List.filterMap_append]
  congr 1
  induction due with
  | nil => rfl
  | cons first rest ih =>
      rw [List.map_cons, List.map_cons, ← ih]
      rfl

theorem dues_snoc (trace : List Event) (snapshot : Snapshot) (fate : Fate) :
    dues (trace ++ [.due ⟨snapshot, fate⟩]) = dues trace ++ [snapshot] :=
  dues_append_due trace [⟨snapshot, fate⟩]

/-- Nothing moves the phase any more. -/
structure Fixed (tracker : PhaseTracker) : Prop where
  phase : tracker.phase = .pr
  freeze : tracker.freeze = .frozen

theorem observe_fixed {tracker : PhaseTracker} (h : tracker.freeze = .frozen) (line : Text) :
    tracker.observe line = tracker := by
  unfold PhaseTracker.observe
  rw [h]
  split <;> first | rfl | contradiction

theorem heard_fixed {tracker : PhaseTracker} (h : tracker.freeze = .frozen)
    (calls : List LineAssembler.Call) : calls.foldl heard tracker = tracker := by
  induction calls with
  | nil => rfl
  | cons call rest ih =>
      have hcall : heard tracker call = tracker := by
        cases call with
        | pushLine piece terminator => exact observe_fixed h _
        | pushBreak => rfl
      rw [List.foldl_cons, hcall, ih]

theorem heard_phase {tracker : PhaseTracker} (h : tracker.phase ≠ .pr)
    (calls : List LineAssembler.Call) : (calls.foldl heard tracker).phase ≠ .pr := by
  induction calls generalizing tracker with
  | nil => exact h
  | cons call rest ih =>
      apply ih
      cases call with
      | pushLine piece terminator =>
          rcases PhaseTracker.observe_phase tracker (Ansi.plain (LogStream.lineText piece)) with
            hsame | hother
          · exact fun hpr ↦ h (hsame ▸ hpr)
          · exact hother
      | pushBreak => exact h

/-- The watcher and the snapshots that fell due, at one level of the timeline. -/
def At (asked : Prop) (watcher : PlanWatcher) (due : List Snapshot) : Level → Prop
  | .live => watcher.Live due
  | .early => watcher.Still ∧ watcher.tracker.phase ≠ .pr ∧ Opened due
  | .frozen => watcher.Still ∧ Fixed watcher.tracker ∧ asked ∧ Opened due
  | .pr => watcher.Still ∧ Fixed watcher.tracker ∧ asked ∧ Requested due
  | .failed => watcher.Still ∧ Marked asked due

variable {asked : Prop} {watcher : PlanWatcher} {due : List Snapshot}

theorem At.mono {asked' : Prop} (h : At asked watcher due level) (hasked : asked → asked') :
    At asked' watcher due level := by
  cases level with
  | live | early => exact h
  | frozen | pr => exact ⟨h.1, h.2.1, hasked h.2.2.1, h.2.2.2⟩
  | failed =>
      obtain ⟨hstill, before, phase, hdue, hpr, hbefore⟩ := h
      exact ⟨hstill, before, phase, hdue, fun hphase ↦ hasked (hpr hphase), hbefore⟩

theorem At.heard (h : At asked watcher due level) (calls : List LineAssembler.Call) :
    At asked { watcher with tracker := calls.foldl Run.heard watcher.tracker } due level := by
  cases level with
  | live => exact ⟨heard_phase h.phase calls, h.drawn⟩
  | early => exact ⟨h.1, heard_phase h.2.1 calls, h.2.2⟩
  | frozen | pr =>
      refine ⟨h.1, ?_, h.2.2⟩
      show Fixed (calls.foldl Run.heard watcher.tracker)
      rw [heard_fixed h.2.1.freeze]
      exact h.2.1
  | failed => exact h

/-- The posting task stays at the level of the timeline. -/
theorem At.step {action : PlanWatcher.Action} {after : PlanWatcher} {new : List Due}
    (h : At asked watcher due level) (hstep : watcher.step action = some (after, new)) :
    At asked after (due ++ new.map Due.snapshot) level := by
  cases level with
  | live => exact PlanWatcher.Live.step h hstep
  | early =>
      obtain ⟨hstill, rfl⟩ := PlanWatcher.Still.step h.1 hstep
      rw [List.map_nil, List.append_nil]
      exact ⟨hstill, by rw [(PlanWatcher.step_phase hstep).1]; exact h.2.1, h.2.2⟩
  | frozen | pr =>
      obtain ⟨hstill, rfl⟩ := PlanWatcher.Still.step h.1 hstep
      obtain ⟨hphase, hfreeze⟩ := PlanWatcher.step_phase hstep
      rw [List.map_nil, List.append_nil]
      exact ⟨hstill, ⟨hphase.trans h.2.1.phase, hfreeze.trans h.2.1.freeze⟩, h.2.2⟩
  | failed =>
      obtain ⟨hstill, rfl⟩ := PlanWatcher.Still.step h.1 hstep
      rw [List.map_nil, List.append_nil]
      exact ⟨hstill, h.2⟩

/-- The phase read at a level where a failure may be posted. -/
theorem At.phase (h : At asked watcher due level) (hopen : level.Open) :
    watcher.tracker.phase = .pr ↔ level.OfPr := by
  cases level with
  | live | failed => exact hopen.elim
  | early => exact iff_of_false h.2.1 id
  | frozen | pr => exact iff_of_true h.2.1.phase trivial

/-- A snapshot of the program falls due. -/
theorem At.posts {snapshot : Snapshot} (h : At asked watcher due level)
    (hpermits : (timeline granted).permits level (.post snapshot)) :
    At asked watcher (due ++ [snapshot]) (level.after (.post snapshot)) := by
  obtain ⟨phase, outcome⟩ := snapshot
  cases outcome with
  | running =>
      obtain ⟨rfl, rfl⟩ := hpermits
      exact ⟨h.1, h.2.1, h.2.2.1, due, rfl, h.2.2.2⟩
  | failed =>
      obtain ⟨hopen, hphase⟩ := hpermits
      cases level with
      | live | failed => exact hopen.elim
      | early => exact ⟨h.1, due, phase, rfl, fun hpr ↦ (hphase.mp hpr).elim, .inl h.2.2⟩
      | frozen => exact ⟨h.1, due, phase, rfl, fun _ ↦ h.2.2.1, .inl h.2.2.2⟩
      | pr =>
          exact ⟨h.1, due, phase, rfl, fun _ ↦ h.2.2.1, .inr ⟨hphase.mpr trivial, h.2.2.2⟩⟩

/-! ## The timeline at each step -/

/-- The run exited with success and asked for a pull request. -/
def Asked (setup : Setup) (trace : List Event) : Prop :=
  ∃ status, .exited (.ok status) ∈ trace ∧ status.success = true ∧ setup.job.createPr = .yes

theorem Asked.append {setup : Setup} {trace : List Event} (h : Asked setup trace)
    (events : List Event) : Asked setup (trace ++ events) := by
  obtain ⟨status, hmem, hsuccess, hcreate⟩ := h
  exact ⟨status, List.mem_append_left events hmem, hsuccess, hcreate⟩

theorem asked_of_grants {setup : Setup} {trace : List Event}
    {exited : Except JobError ExitStatus} (hgrants : Grants setup exited)
    (hexited : .exited exited ∈ trace) : Asked setup trace := by
  obtain ⟨status, rfl, hsuccess, hcreate⟩ := hgrants
  exact ⟨status, hexited, hsuccess, hcreate⟩

/-- The level a program under way has reached: a snapshot that was handed over counts already. -/
def Level.reached (level : Level) (stage : Stage) : RunProgram Finished → Level
  | .call request _ => if stage = .handed then level.after request else level
  | .done _ => level

/-- The level agrees with what `execute` returned. -/
def Ends (level : Level) (finished : Finished) : Prop :=
  (level = .failed ∧ Failing finished) ∨ (level.Open ∧ ¬ Failing finished)

/-- A program under way keeps to the timeline, and has come as far as its level says. -/
structure Timed (setup : Setup) (trace : List Event) (mode : Mode) (stage : Stage)
    (program : RunProgram Finished) (w : PlanWatcher) (level : Level) (granted : Prop) : Prop where
  follows : Follows (timeline granted) level program
  asked : granted → Asked setup trace
  stopped : mode = .finishing → level ≠ .live
  still : ∀ halted, stage = .joining halted true → w.Still
  reached : At (Asked setup trace) w (dues trace) (level.reached stage program)

/-- How far the timeline has come while `serve_run` stands where it does. -/
def TimedAt (setup : Setup) (watcher : Option PlanWatcher) (trace : List Event) : Pc → Prop
  | .entered | .validating | .watching => watcher = none ∧ dues trace = []
  | .spawning | .waiting => ∃ w, watcher = some w ∧ At (Asked setup trace) w (dues trace) .live
  | .unwatching exited => .exited exited ∈ trace ∧
      ∃ w, watcher = some w ∧ At (Asked setup trace) w (dues trace) .live
  | .performing mode stage program => ∃ w level granted, watcher = some w ∧
      Timed setup trace mode stage program w level granted
  | .reporting finished | .reported finished _ | .removing finished _ | .leaving finished _
  | .left finished _ => ∃ w level, watcher = some w ∧
      At (Asked setup trace) w (dues trace) level ∧ Ends level finished

theorem due_eq_none_of_mem_handedOver {before after : LogStream} :
    ∀ event ∈ handedOver before after, event.due? = none := by
  intro event hevent
  obtain ⟨chunk, -, rfl⟩ := List.mem_map.mp hevent
  rfl

/-- A step of a task keeps the timeline at its level. -/
theorem at_of_task {action : Action} (haction : action.OfTask) (h : step run action = some next)
    (hwatcher : run.watcher = some watcher) (hat : At asked watcher (dues run.trace) level) :
    ∃ after, next.watcher = some after ∧ At asked after (dues next.trace) level ∧
      (watcher.Still → after.Still) := by
  cases action with
  | arrives terminal => cases h; exact ⟨watcher, hwatcher, hat, id⟩
  | exits result => rw [exits_eq_some h]; exact ⟨watcher, hwatcher, hat, id⟩
  | reads bytes =>
      obtain ⟨_, _, calls, _, -, rfl⟩ := reads_eq_some h
      exact ⟨_, congrArg (Option.map _) hwatcher, hat.heard calls, id⟩
  | hangsUp =>
      obtain ⟨_, _, calls, -, rfl⟩ := hangsUp_eq_some h
      exact ⟨_, congrArg (Option.map _) hwatcher, hat.heard calls, id⟩
  | selects | flushes | flushed =>
      obtain ⟨log, -, rfl⟩ := Option.map_eq_some_iff.mp h
      refine ⟨watcher, hwatcher, ?_, id⟩
      rw [emit_trace, dues_append due_eq_none_of_mem_handedOver]
      exact hat
  | watches action =>
      obtain ⟨⟨after, new⟩, hstep, rfl⟩ := Option.map_eq_some_iff.mp h
      rw [hwatcher, Option.bind_some] at hstep
      refine ⟨after, rfl, ?_, fun hstill ↦ (PlanWatcher.Still.step hstill hstep).1⟩
      rw [emit_trace, dues_append_due]
      exact hat.step hstep
  | _ => exact haction.elim

/-- Without a watcher no snapshot is due. -/
theorem unwatched_of_task {action : Action} (haction : action.OfTask)
    (h : step run action = some next) (hnone : run.watcher = none) :
    next.watcher = none ∧ dues next.trace = dues run.trace := by
  cases action with
  | arrives terminal => cases h; exact ⟨hnone, rfl⟩
  | exits result => rw [exits_eq_some h]; exact ⟨hnone, rfl⟩
  | reads bytes =>
      obtain ⟨_, _, calls, _, -, rfl⟩ := reads_eq_some h
      exact ⟨congrArg (Option.map _) hnone, rfl⟩
  | hangsUp =>
      obtain ⟨_, _, calls, -, rfl⟩ := hangsUp_eq_some h
      exact ⟨congrArg (Option.map _) hnone, rfl⟩
  | selects | flushes | flushed =>
      obtain ⟨log, -, rfl⟩ := Option.map_eq_some_iff.mp h
      exact ⟨hnone, dues_append due_eq_none_of_mem_handedOver⟩
  | watches action =>
      obtain ⟨_, hstep, -⟩ := Option.map_eq_some_iff.mp h
      rw [hnone] at hstep
      cases hstep
  | _ => exact haction.elim

/-- The tasks beside `serve_run` keep the timeline. -/
theorem timedAt_of_task {action : Action} (haction : action.OfTask)
    (h : step run action = some next) (htimed : TimedAt run.setup run.watcher run.trace run.pc) :
    TimedAt next.setup next.watcher next.trace next.pc := by
  obtain ⟨hsetup, hpc, events, htrace, -⟩ := step_beside haction h
  have hasked : Asked run.setup run.trace → Asked run.setup next.trace := by
    rw [htrace]
    exact fun hasked ↦ hasked.append events
  have hkept {watcher : PlanWatcher} {level : Level} (hwatcher : run.watcher = some watcher)
      (hat : At (Asked run.setup run.trace) watcher (dues run.trace) level) :=
    at_of_task haction h hwatcher (hat.mono hasked)
  rw [hsetup, hpc]
  cases hbefore : run.pc with
  | entered | validating | watching =>
      rw [hbefore] at htimed
      obtain ⟨hnone, hdues⟩ := htimed
      obtain ⟨hnone', hdues'⟩ := unwatched_of_task haction h hnone
      exact ⟨hnone', hdues'.trans hdues⟩
  | spawning | waiting =>
      rw [hbefore] at htimed
      obtain ⟨w, hwatcher, hat⟩ := htimed
      obtain ⟨after, hafter, hat', -⟩ := hkept hwatcher hat
      exact ⟨after, hafter, hat'⟩
  | unwatching exited =>
      rw [hbefore] at htimed
      obtain ⟨hexited, w, hwatcher, hat⟩ := htimed
      obtain ⟨after, hafter, hat', -⟩ := hkept hwatcher hat
      exact ⟨by rw [htrace]; exact List.mem_append_left events hexited, after, hafter, hat'⟩
  | performing mode stage program =>
      rw [hbefore] at htimed
      obtain ⟨w, level, granted, hwatcher, hfollows, hgranted, hmode, hstill, hat⟩ := htimed
      obtain ⟨after, hafter, hat', hkeeps⟩ := hkept hwatcher hat
      exact ⟨after, level, granted, hafter, hfollows, fun hgrant ↦ hasked (hgranted hgrant), hmode,
        fun halted hjoining ↦ hkeeps (hstill halted hjoining), hat'⟩
  | reporting | reported | removing | leaving | left =>
      rw [hbefore] at htimed
      obtain ⟨w, level, hwatcher, hat, hends⟩ := htimed
      obtain ⟨after, hafter, hat', -⟩ := hkept hwatcher hat
      exact ⟨after, level, hafter, hat', hends⟩

/-- The calls that leave the timeline where it is. -/
def Call.Untimed (call : Call) : Prop := ¬ call.OfWatcher ∧ ∀ snapshot, call ≠ .post snapshot

theorem after_untimed {call : Call} (h : Call.Untimed call) (level : Level) :
    level.after call = level := by
  cases call with
  | halt | unwatch | freeze => exact (h.1 trivial).elim
  | post snapshot => exact absurd rfl (h.2 snapshot)
  | _ => rfl

theorem reached_untimed {call : Call} (h : Call.Untimed call) (level : Level) (stage : Stage)
    (resume : call.Answer → RunProgram Finished) :
    level.reached stage (.call call resume) = level := by
  simp only [Level.reached, after_untimed h, ite_self]

theorem open_of_untimed {call : Call} (h : Call.Untimed call)
    (hpermits : (timeline granted).permits level call) : level.Open := by
  cases call with
  | halt | unwatch | freeze => exact (h.1 trivial).elim
  | post snapshot => exact absurd rfl (h.2 snapshot)
  | _ => exact hpermits

theorem Added.untimed {call : Call} {events : List Event} (hadded : Added call events)
    (h : Call.Untimed call) : ∀ event ∈ events, event.due? = none := by
  cases hadded with
  | nothing => exact nofun
  | due snapshot fate => exact absurd rfl (h.2 snapshot)
  | stepped command =>
      intro event hevent
      rw [List.mem_singleton.mp hevent]
      rfl

theorem reached_ready (level : Level) (program : RunProgram Finished) :
    level.reached .ready program = level := by
  cases program <;> rfl

/-- A program that goes on is at the level of its state. -/
theorem Timed.ready {setup : Setup} {trace : List Event} {mode : Mode}
    {program : RunProgram Finished} (hfollows : Follows (timeline granted) level program)
    (hasked : granted → Asked setup trace) (hmode : mode = .finishing → level ≠ .live)
    (hat : At (Asked setup trace) watcher (dues trace) level) :
    Timed setup trace mode .ready program watcher level granted :=
  ⟨hfollows, hasked, hmode, nofun, by rwa [reached_ready]⟩

/-- The opening snapshot is over where the posting task could be aborted. -/
theorem live_unwatched {after : Run} (hunwatch : run.unwatch = some after)
    (hwatcher : run.watcher = some watcher) (hlive : watcher.Live due) :
    ∃ w, after.watcher = some w ∧ w.Still ∧ w.Live due ∧ after.trace = run.trace := by
  obtain ⟨before, hbefore, hopened, rfl⟩ := unwatch_eq_some hunwatch
  rw [hwatcher] at hbefore
  cases hbefore
  exact ⟨_, rfl, rfl, ⟨hlive.phase, hlive.opened hopened⟩, rfl⟩

theorem early_of_still (hlive : watcher.Live due) (hstill : watcher.Still) :
    At asked watcher due .early := by
  refine ⟨hstill, hlive.phase, ?_⟩
  have hdrawn := hlive.drawn
  rw [show watcher.posts = .aborted from hstill] at hdrawn
  exact hdrawn

section Awaits

variable {setup : Setup} {mode : Mode} {stage stage' : Stage} {call : Call} {poke : Poke}
  {resume : call.Answer → RunProgram Finished} {after : Run} {answer : call.Answer}

theorem dues_untimed {move : Move call} (hadvance : run.advance call stage poke = some move)
    (huntimed : Call.Untimed call) :
    move.after.watcher = run.watcher ∧ dues move.after.trace = dues run.trace := by
  obtain ⟨-, -, -, -, -, hsame, events, htrace, hadded⟩ := advance_awaited hadvance
  refine ⟨hsame.resolve_left huntimed.1, ?_⟩
  rw [htrace, dues_append (hadded.untimed huntimed)]

theorem asked_awaited {move : Move call} (hadvance : run.advance call stage poke = some move)
    (hasked : Asked setup run.trace) : Asked setup move.after.trace := by
  obtain ⟨events, htrace, -⟩ := (advance_awaited hadvance).trace
  rw [htrace]
  exact hasked.append events

/-- An await that goes on leaves the timeline at the level it has reached by then. -/
theorem timed_suspended (hadvance : run.advance call stage poke = some (.suspended after stage'))
    (hwatcher : run.watcher = some watcher)
    (h : Timed setup run.trace mode stage (.call call resume) watcher level granted) :
    ∃ w, after.watcher = some w ∧
      Timed setup after.trace mode stage' (.call call resume) w level granted := by
  obtain ⟨hfollows, hasked, hmode, hstill, hat⟩ := h
  have hmono : Asked setup run.trace → Asked setup after.trace := asked_awaited hadvance
  have hjoining (hcall : call ≠ .halt) (w : PlanWatcher) (halted : Bool)
      (heq : stage' = .joining halted true) : w.Still := by
    rw [heq] at hadvance
    exact absurd (advance_joining hadvance) hcall
  by_cases huntimed : Call.Untimed call
  · obtain ⟨hsame, hdues⟩ := dues_untimed hadvance huntimed
    have hnext : At (Asked setup after.trace) watcher (dues after.trace) level := by
      rw [reached_untimed huntimed] at hat
      rw [show dues after.trace = dues run.trace from hdues]
      exact hat.mono hmono
    have hcall : call ≠ .halt := by
      rintro rfl
      exact huntimed.1 trivial
    refine ⟨watcher, hsame.trans hwatcher, hfollows, fun hgrant ↦ hmono (hasked hgrant), hmode,
      hjoining hcall watcher, ?_⟩
    rwa [reached_untimed huntimed]
  cases call with
  | halt =>
      have hlive : level = .live := hfollows.1
      subst hlive
      rcases advance_halt hadvance with ⟨rfl, hmove⟩ | ⟨unwatched, rfl, hmove⟩ |
        ⟨halted, unwatched, rfl, hunwatch, hmove⟩ | ⟨-, hmove⟩
      · cases hmove
        have hlive : watcher.Live (dues run.trace) := hat
        exact ⟨watcher.release, congrArg (Option.map _) hwatcher, hfollows, hasked, hmode, nofun,
          hlive.release⟩
      · cases hmove
        refine ⟨watcher, hwatcher, hfollows, hasked, hmode, fun halted heq ↦ ?_, hat⟩
        cases heq
        exact hstill false rfl
      · cases hmove
        obtain ⟨w, hw, hstill', hlive, htrace⟩ := live_unwatched hunwatch hwatcher hat
        rw [htrace]
        exact ⟨w, hw, hfollows, hasked, hmode, fun _ _ ↦ hstill', hlive⟩
      · cases hmove
  | unwatch =>
      have hlive : level = .live := hfollows.1
      subst hlive
      rcases advance_unwatch hadvance with ⟨rfl, hmove⟩ | ⟨_, -, -, hmove⟩
      · cases hmove
        have hlive : watcher.Live (dues run.trace) := hat
        exact ⟨watcher.release, congrArg (Option.map _) hwatcher, hfollows, hasked, hmode, nofun,
          hlive.release⟩
      · cases hmove
  | freeze phase => cases (advance_freeze hadvance).2
  | post snapshot =>
      rcases advance_post hadvance with ⟨rfl, hmove⟩ | ⟨rfl, hmove⟩ | ⟨-, hmove⟩ | ⟨-, hmove⟩
      · cases hmove
        exact ⟨watcher, hwatcher, hfollows, hasked, hmode, nofun, hat⟩
      · cases hmove
        refine ⟨watcher, hwatcher, hfollows, fun hgrant ↦ hmono (hasked hgrant), hmode, nofun, ?_⟩
        have hposted := (hat.mono hmono).posts hfollows.1
        rw [← dues_snoc run.trace snapshot .handed] at hposted
        exact hposted
      · cases hmove
      · cases hmove
  | _ => exact (huntimed ⟨id, nofun⟩).elim

/-- An await that is over moves the timeline to the level its call leads to. -/
theorem timed_answered (hadvance : run.advance call stage poke = some (.answered after answer))
    (hwatcher : run.watcher = some watcher)
    (h : Timed setup run.trace mode stage (.call call resume) watcher level granted) :
    ∃ w, after.watcher = some w ∧
      Timed setup after.trace mode .ready (resume answer) w (level.after call) granted := by
  obtain ⟨hfollows, hasked, hmode, hstill, hat⟩ := h
  have hmono : Asked setup run.trace → Asked setup after.trace := asked_awaited hadvance
  have hasked' (hgrant : granted) : Asked setup after.trace := hmono (hasked hgrant)
  by_cases huntimed : Call.Untimed call
  · obtain ⟨hsame, hdues⟩ := dues_untimed hadvance huntimed
    rw [reached_untimed huntimed] at hat
    have hpromise : (timeline granted).promises level call answer := by
      cases call with
      | phase =>
          cases (advance_phase hadvance).2
          have hphase : run.phase = watcher.tracker.phase := by rw [Run.phase, hwatcher]; rfl
          exact hphase ▸ hat.phase hfollows.1
      | _ => trivial
    have hrest : Follows (timeline granted) (level.after call) (resume answer) :=
      hfollows.answered answer hpromise
    have hnext : At (Asked setup after.trace) watcher (dues after.trace) level := by
      rw [show dues after.trace = dues run.trace from hdues]
      exact hat.mono hmono
    rw [after_untimed huntimed] at hrest ⊢
    exact ⟨watcher, hsame.trans hwatcher, .ready hrest hasked' hmode hnext⟩
  cases call with
  | halt =>
      have hlive : level = .live := hfollows.1
      subst hlive
      rcases advance_halt hadvance with ⟨-, hmove⟩ | ⟨_, -, hmove⟩ | ⟨_, _, -, -, hmove⟩ |
        ⟨rfl, hmove⟩
      · cases hmove
      · cases hmove
      · cases hmove
      · cases hmove
        exact ⟨watcher, hwatcher, .ready (hfollows.answered () trivial) hasked nofun
          (early_of_still hat (hstill true rfl))⟩
  | unwatch =>
      have hlive : level = .live := hfollows.1
      subst hlive
      rcases advance_unwatch hadvance with ⟨-, hmove⟩ | ⟨unwatched, rfl, hunwatch, hmove⟩
      · cases hmove
      · cases hmove
        obtain ⟨w, hw, hstill', hlive, htrace⟩ := live_unwatched hunwatch hwatcher hat
        rw [htrace]
        exact ⟨w, hw, .ready (hfollows.answered () trivial) hasked nofun
          (early_of_still hlive hstill')⟩
  | freeze phase =>
      obtain ⟨rfl, hmove⟩ := advance_freeze hadvance
      cases hmove
      obtain ⟨rfl, rfl, hgrant⟩ := hfollows.1
      obtain ⟨hstill', -, hopened⟩ := hat
      exact ⟨_, congrArg (Option.map _) hwatcher, .ready (hfollows.answered () trivial) hasked nofun
        ⟨hstill', ⟨rfl, rfl⟩, hasked hgrant, hopened⟩⟩
  | post snapshot =>
      have hrest : Follows (timeline granted) (level.after (.post snapshot)) (resume answer) :=
        hfollows.answered () trivial
      have hnotlive (_ : mode = .finishing) : level.after (.post snapshot) ≠ .live := by
        obtain ⟨phase, outcome⟩ := snapshot
        cases outcome <;> exact nofun
      rcases advance_post hadvance with ⟨-, hmove⟩ | ⟨-, hmove⟩ | ⟨rfl, hmove⟩ | ⟨rfl, hmove⟩
      · cases hmove
      · cases hmove
      · cases hmove
        exact ⟨watcher, hwatcher, .ready hrest hasked hnotlive hat⟩
      · cases hmove
        have hposted := (hat.mono hmono).posts hfollows.1
        rw [← dues_snoc run.trace snapshot .missed] at hposted
        exact ⟨watcher, hwatcher, .ready hrest hasked' hnotlive hposted⟩
  | _ => exact (huntimed ⟨id, nofun⟩).elim

end Awaits

/-- An event that is no snapshot leaves the timeline as it is. -/
theorem TimedAt.snoc {setup : Setup} {watcher : Option PlanWatcher} {trace : List Event} {pc : Pc}
    {event : Event} (h : TimedAt setup watcher trace pc) (hevent : event.due? = none) :
    TimedAt setup watcher (trace ++ [event]) pc := by
  have hdues : dues (trace ++ [event]) = dues trace :=
    dues_append fun other hother ↦ by rwa [List.mem_singleton.mp hother]
  have hasked : Asked setup trace → Asked setup (trace ++ [event]) := fun hasked ↦ hasked.append _
  have hat {w : PlanWatcher} {level : Level} (hat : At (Asked setup trace) w (dues trace) level) :
      At (Asked setup (trace ++ [event])) w (dues (trace ++ [event])) level := by
    rw [hdues]
    exact hat.mono hasked
  cases pc with
  | entered | validating | watching => exact ⟨h.1, hdues.trans h.2⟩
  | spawning | waiting =>
      obtain ⟨w, hw, hlive⟩ := h
      exact ⟨w, hw, hat hlive⟩
  | unwatching exited =>
      obtain ⟨hexited, w, hw, hlive⟩ := h
      exact ⟨List.mem_append_left _ hexited, w, hw, hat hlive⟩
  | performing mode stage program =>
      obtain ⟨w, level, granted, hw, htimed⟩ := h
      exact ⟨w, level, granted, hw, htimed.follows, fun hgrant ↦ hasked (htimed.asked hgrant),
        htimed.stopped, htimed.still, hat htimed.reached⟩
  | reporting | reported | removing | leaving | left =>
      obtain ⟨w, level, hw, hlevel, hends⟩ := h
      exact ⟨w, level, hw, hat hlevel, hends⟩

/-- The run is not refused, and no terminal but a drain interrupts it while the failure it posts
itself is with the sender. -/
def FailureUndisturbed (run : Run) : Action → Prop
  | .begins => run.setup.job.runtime = runtimeName
  | .validates result => result = .ok ()
  | .consumes => ∀ phase resume terminal,
      run.pc = .performing .finishing .handed (.call (.post ⟨phase, .failed⟩) resume) →
        run.inbox.head? = some terminal → terminal = .drain
  | _ => True

/-- Where an interrupt may strike a failure can still be posted. -/
theorem open_of_interrupt {terminal : Terminal} {inbox : List Terminal} {stage : Stage}
    {call : Call} {resume : call.Answer → RunProgram Finished} {level : Level}
    (hterminal : terminal ≠ .drain) (hcalm : FailureUndisturbed run .consumes)
    (hpc : run.pc = .performing .finishing stage (.call call resume))
    (hinbox : run.inbox = terminal :: inbox)
    (hfollows : Follows (timeline granted) level (.call call resume)) (hlive : level ≠ .live) :
    (level.reached stage (.call call resume)).Open := by
  have hpermits := hfollows.1
  by_cases huntimed : Call.Untimed call
  · rw [reached_untimed huntimed]
    exact open_of_untimed huntimed hpermits
  cases call with
  | halt | unwatch => exact absurd hpermits hlive
  | freeze phase =>
      obtain ⟨rfl, -, -⟩ := hpermits
      simp only [Level.reached]
      split <;> trivial
  | post snapshot =>
      obtain ⟨phase, outcome⟩ := snapshot
      cases outcome with
      | running =>
          obtain ⟨rfl, -⟩ := hpermits
          simp only [Level.reached]
          split <;> trivial
      | failed =>
          have hstage : stage ≠ .handed := by
            rintro rfl
            exact hterminal (hcalm phase resume terminal hpc (by rw [hinbox]; rfl))
          simp only [Level.reached, if_neg hstage]
          exact hpermits.1
  | _ => exact (huntimed ⟨id, nofun⟩).elim

/-- While no failure is interrupted, `serve_run` keeps the timeline. -/
theorem timedAt_of_serves {action : Action} (h : Serves run action next)
    (hcalm : FailureUndisturbed run action)
    (htimed : TimedAt run.setup run.watcher run.trace run.pc) :
    TimedAt next.setup next.watcher next.trace next.pc := by
  cases h with
  | accepted hpc | validated hpc => rw [hpc] at htimed; exact htimed
  | mismatched hpc hruntime => exact absurd hcalm hruntime
  | invalid error hpc => cases hcalm
  | started hpc =>
      rw [hpc] at htimed
      refine ⟨.start, rfl, ?_⟩
      rw [htimed.2]
      exact PlanWatcher.live_start
  | spawned hpc =>
      rw [hpc] at htimed
      exact TimedAt.snoc (show TimedAt run.setup run.watcher run.trace .waiting from htimed) rfl
  | unspawned error hpc =>
      rw [hpc] at htimed
      obtain ⟨w, hw, hlive⟩ := htimed
      exact ⟨w, .live, False, hw, .ready (unspawned_marks error _) False.elim nofun hlive⟩
  | exited result hpc =>
      rw [hpc] at htimed
      obtain ⟨w, hw, hlive⟩ := htimed
      have hreleased : TimedAt run.setup run.release.watcher run.trace .waiting :=
        ⟨w.release, congrArg (Option.map _) hw, PlanWatcher.Live.release hlive⟩
      have hlast : .exited result ∈ run.trace ++ [.exited result] :=
        List.mem_append_right _ (List.mem_singleton.mpr rfl)
      exact ⟨hlast, hreleased.snoc rfl⟩
  | unwatched result watcher hpc hwatcher hopened =>
      rw [hpc] at htimed
      obtain ⟨hexited, w, hw, hlive⟩ := htimed
      rw [hwatcher] at hw
      cases hw
      have hlive' : watcher.Live (dues run.trace) := hlive
      have hearly : At (Asked run.setup run.trace) { watcher with posts := .aborted }
          (dues run.trace) .early := ⟨rfl, hlive'.phase, hlive'.opened hopened⟩
      exact ⟨_, .early, Grants run.setup result, rfl, .ready (finishing_marks _ _)
        (fun hgrants ↦ asked_of_grants hgrants hexited) (fun _ ↦ nofun) hearly⟩
  | stopped terminal inbox hpc =>
      rw [hpc] at htimed
      obtain ⟨w, hw, hlive⟩ := htimed
      have hstopping : TimedAt run.setup run.watcher run.trace
          (.performing .winding .ready (Finish.stop terminal run.setup.output)) :=
        ⟨w, .live, False, hw, .ready (stop_marks terminal _) False.elim nofun hlive⟩
      exact hstopping.snoc rfl
  | ignored inbox stage call resume hpc => exact htimed.snoc rfl
  | interrupted terminal inbox stage call resume hterminal hpc hinbox =>
      rw [hpc] at htimed
      obtain ⟨w, level, granted, hw, hprogram⟩ := htimed
      have hopen := open_of_interrupt hterminal hcalm hpc hinbox hprogram.follows
        (hprogram.stopped rfl)
      have hinterrupted : TimedAt run.setup run.watcher run.trace
          (.performing .winding .ready (Finish.interrupt terminal run.setup.output)) :=
        ⟨w, _, False, hw, .ready (interrupt_marks hopen terminal _) False.elim nofun
          hprogram.reached⟩
      have hnext := hinterrupted.snoc (show Event.due? (.consumed terminal) = none from rfl)
      simpa only [abandon_setup, abandon_watcher, abandon_trace, taken_setup, taken_watcher,
        taken_trace] using hnext
  | suspended hpc hadvance =>
      rw [hpc] at htimed
      obtain ⟨w, level, granted, hw, hprogram⟩ := htimed
      obtain ⟨w', hw', hprogram'⟩ := timed_suspended hadvance hw hprogram
      have hsetup := (advance_awaited hadvance).setup
      exact ⟨w', level, granted, hw', hsetup ▸ hprogram'⟩
  | @answered mode stage call resume poke after answer hpc hadvance =>
      rw [hpc] at htimed
      obtain ⟨w, level, granted, hw, hprogram⟩ := htimed
      obtain ⟨w', hw', hprogram'⟩ := timed_answered hadvance hw hprogram
      have hsetup : after.setup = run.setup := (advance_awaited hadvance).setup
      have hanswered : TimedAt after.setup after.watcher after.trace
          (.performing mode .ready (resume answer)) :=
        ⟨w', level.after call, granted, hw', hsetup ▸ hprogram'⟩
      exact hanswered.snoc rfl
  | concluded finished hpc =>
      rw [hpc] at htimed
      obtain ⟨w, level, granted, hw, hprogram⟩ := htimed
      exact ⟨w, level, hw, hprogram.reached, hprogram.follows⟩
  | reported finished completion hpc =>
      rw [hpc] at htimed
      have hreported : TimedAt run.setup run.watcher run.trace (.reported finished completion) :=
        htimed
      exact hreported.snoc rfl
  | silent finished hpc | heard finished completion answer hpc | removed finished ended hpc
  | left finished ended hpc =>
      rw [hpc] at htimed
      exact htimed

theorem timedAt_of_reachable (h : machine.ReachableBy FailureUndisturbed run) :
    TimedAt run.setup run.watcher run.trace run.pc := by
  apply h.invariant fun run ↦ TimedAt run.setup run.watcher run.trace run.pc
  · rintro _ ⟨setup, rfl⟩
    exact ⟨rfl, rfl⟩
  · intro run action next htimed hcalm hstep
    rcases step_cases hstep with ⟨htask, -⟩ | hserves
    · exact timedAt_of_task htask hstep htimed
    · exact timedAt_of_serves hserves hcalm htimed

theorem At.lawful (h : At asked watcher due level) : Lawful asked due := by
  cases level with
  | live => exact PlanWatcher.Live.lawful h
  | early => exact .inr (.inl h.2.2)
  | frozen => exact .inr (.inl h.2.2.2)
  | pr => exact .inr (.inr (.inl h.2.2))
  | failed => exact .inr (.inr (.inr h.2))

theorem At.still (h : At asked watcher due level) (hlevel : level ≠ .live) : watcher.Still := by
  cases level with
  | live => exact absurd rfl hlevel
  | _ => exact h.1

/-- A failed snapshot fell due exactly where the completion is an error. -/
theorem At.failed_iff {finished : Finished} (h : At asked watcher due level)
    (hends : Ends level finished) :
    (∃ snapshot ∈ due, snapshot.outcome = .failed) ↔ Failing finished := by
  rcases hends with ⟨rfl, hfailing⟩ | ⟨hopen, hnot⟩
  · obtain ⟨-, before, phase, rfl, -⟩ := h
    exact iff_of_true ⟨⟨phase, .failed⟩, by simp, rfl⟩ hfailing
  · refine iff_of_false ?_ hnot
    rintro ⟨snapshot, hmem, hfailed⟩
    have hrunning : snapshot.outcome = .running := by
      cases level with
      | live | failed => exact hopen.elim
      | early => exact (h.2.2.early snapshot hmem).1
      | frozen => exact (h.2.2.2.early snapshot hmem).1
      | pr => exact h.2.2.2.unfailed snapshot hmem
    rw [hrunning] at hfailed
    cases hfailed

/-- The snapshots of a run keep to the law. -/
theorem lawful_of_reachable (h : machine.ReachableBy FailureUndisturbed run) :
    Lawful (Asked run.setup run.trace) (dues run.trace) := by
  have htimed := timedAt_of_reachable h
  cases hpc : run.pc with
  | entered | validating | watching =>
      rw [hpc] at htimed
      exact .inl htimed.2
  | spawning | waiting =>
      rw [hpc] at htimed
      obtain ⟨w, -, hlive⟩ := htimed
      exact hlive.lawful
  | unwatching exited =>
      rw [hpc] at htimed
      obtain ⟨-, w, -, hlive⟩ := htimed
      exact hlive.lawful
  | performing mode stage program =>
      rw [hpc] at htimed
      obtain ⟨w, level, granted, -, hprogram⟩ := htimed
      exact hprogram.reached.lawful
  | reporting | reported | removing | leaving | left =>
      rw [hpc] at htimed
      obtain ⟨w, level, -, hat, -⟩ := htimed
      exact hat.lawful

/-- No snapshot may follow a completion. -/
def Concluded (before : List Event) (event : Event) : Prop :=
  event.due? ≠ none → completions before = []

theorem concluded_append {events : List Event} (h : Justified Concluded run.trace)
    (hevents : ∀ event ∈ events, event.due? = none) :
    Justified Concluded (run.trace ++ events) :=
  h.append (justified_of_forall fun event hevent _ hdue ↦ absurd (hevents event hevent) hdue)

/-- Where a completion was sent the posting task was aborted. -/
theorem still_of_completions (h : machine.ReachableBy FailureUndisturbed run)
    (hsent : completions run.trace ≠ []) :
    ∃ w, run.watcher = some w ∧ w.Still := by
  have htimed := timedAt_of_reachable h
  rw [(sent_of_reachable h.reachable).1] at hsent
  cases hpc : run.pc with
  | reported | removing | leaving | left =>
      rw [hpc] at htimed
      obtain ⟨w, level, hw, hat, hends⟩ := htimed
      refine ⟨w, hw, hat.still ?_⟩
      rintro rfl
      rcases hends with ⟨hfailed, -⟩ | ⟨hopen, -⟩
      · cases hfailed
      · exact hopen
  | _ => rw [hpc] at hsent; exact absurd rfl hsent

/-- Beside a watcher that stands still no snapshot is due. -/
theorem step_still {action : Action} (haction : action.OfTask)
    (hwatcher : run.watcher = some watcher) (hstill : watcher.Still)
    (h : step run action = some next) :
    ∃ events, next.trace = run.trace ++ events ∧ ∀ event ∈ events, event.due? = none := by
  cases action with
  | arrives terminal => cases h; exact ⟨[], (List.append_nil _).symm, nofun⟩
  | exits result => rw [exits_eq_some h]; exact ⟨[], (List.append_nil _).symm, nofun⟩
  | reads bytes =>
      obtain ⟨_, _, _, _, -, rfl⟩ := reads_eq_some h
      exact ⟨[], (List.append_nil _).symm, nofun⟩
  | hangsUp =>
      obtain ⟨_, _, _, -, rfl⟩ := hangsUp_eq_some h
      exact ⟨[], (List.append_nil _).symm, nofun⟩
  | selects | flushes | flushed =>
      obtain ⟨log, -, rfl⟩ := Option.map_eq_some_iff.mp h
      exact ⟨_, rfl, due_eq_none_of_mem_handedOver⟩
  | watches action =>
      obtain ⟨⟨after, new⟩, hstep, rfl⟩ := Option.map_eq_some_iff.mp h
      rw [hwatcher, Option.bind_some] at hstep
      obtain ⟨-, rfl⟩ := PlanWatcher.Still.step hstill hstep
      exact ⟨[], rfl, nofun⟩
  | _ => exact haction.elim

/-- While a program is under way nothing was sent. -/
theorem unsent_of_performing (h : machine.Reachable run) {mode : Mode} {stage : Stage}
    {program : RunProgram Finished} (hpc : run.pc = .performing mode stage program) :
    completions run.trace = [] := by
  rw [(sent_of_reachable h).1, hpc]
  rfl

/-- No snapshot is due behind the completion. -/
theorem concluded_of_reachable (h : machine.ReachableBy FailureUndisturbed run) :
    Justified Concluded run.trace := by
  apply h.invariant_of (machine.ReachableBy FailureUndisturbed)
    (fun run ↦ Justified Concluded run.trace) fun _ ↦ id
  · rintro _ ⟨setup, rfl⟩
    exact justified_nil
  intro run action next hreach hconcluded _ hstep
  rcases step_cases hstep with ⟨htask, hbeside⟩ | hserves
  · by_cases hsent : completions run.trace = []
    · obtain ⟨events, htrace, hevents⟩ := hbeside.trace
      rw [htrace]
      apply hconcluded.append
      rintro before event after rfl -
      rw [completions_append fun other hother ↦
        (hevents other (List.mem_append_left _ hother)).silent, hsent]
    · obtain ⟨w, hw, hstill⟩ := still_of_completions hreach hsent
      obtain ⟨events, htrace, hevents⟩ := step_still htask hw hstill hstep
      rw [htrace]
      exact concluded_append hconcluded hevents
  have hperforming {call : Call} {events : List Event} {mode : Mode} {stage : Stage}
      {resume : call.Answer → RunProgram Finished}
      (hpc : run.pc = .performing mode stage (.call call resume)) (hadded : Added call events) :
      Justified Concluded (run.trace ++ events) := by
    have hsent := unsent_of_performing hreach.reachable hpc
    cases hadded with
    | nothing => rwa [List.append_nil]
    | due | stepped => exact hconcluded.snoc fun _ ↦ hsent
  cases hserves with
  | spawned | exited | stopped | ignored | reported =>
      exact hconcluded.snoc fun hdue ↦ absurd rfl hdue
  | interrupted terminal inbox stage call resume =>
      rw [abandon_trace]
      exact hconcluded.snoc fun hdue ↦ absurd rfl hdue
  | suspended hpc hadvance =>
      obtain ⟨events, htrace, hadded⟩ := (advance_awaited hadvance).trace
      have hnext := hperforming hpc hadded
      rw [← htrace] at hnext
      exact hnext
  | answered hpc hadvance =>
      obtain ⟨events, htrace, hadded⟩ := (advance_awaited hadvance).trace
      have hnext := hperforming hpc hadded
      rw [← htrace] at hnext
      exact hnext.snoc fun hdue ↦ absurd rfl hdue
  | _ => exact hconcluded

/-- The snapshots of a validated run that fall due: the opening one is the first; a failed one falls
due exactly where the run ends with an error, once and as the last, and before the completion; and
the one of the pull request falls due only where it was asked for, once, and after all the others
that are not failed. -/
theorem timeline_law (h : machine.ReachableBy FailureUndisturbed run) :
    (∀ first rest, dues run.trace = first :: rest → first = opening) ∧
    (∀ before snapshot after, dues run.trace = before ++ snapshot :: after →
      snapshot.outcome = .failed →
        after = [] ∧ ∀ earlier ∈ before, earlier.outcome = .running) ∧
    (∀ finished, run.pc.finished = some finished →
      ((∃ snapshot ∈ dues run.trace, snapshot.outcome = .failed) ↔ Failing finished)) ∧
    (∀ before posting after completion, run.trace = before ++ .due posting :: after →
      .completed completion ∉ before) ∧
    (∀ snapshot ∈ dues run.trace, snapshot.phase = .pr → Asked run.setup run.trace) ∧
    ∀ before after, dues run.trace = before ++ pullRequested :: after →
      (∀ earlier ∈ before, earlier.Early) ∧ ∀ later ∈ after, later = ⟨.pr, .failed⟩ := by
  have hlawful := lawful_of_reachable h
  refine ⟨fun _ _ ↦ hlawful.first, fun _ _ _ ↦ hlawful.failed_last, ?_, ?_,
    fun _ ↦ hlawful.asked, ?_⟩
  · intro finished hfinished
    have htimed := timedAt_of_reachable h
    cases hpc : run.pc with
    | reporting | reported | removing | leaving | left =>
        rw [hpc] at htimed hfinished
        cases hfinished
        obtain ⟨w, level, -, hat, hends⟩ := htimed
        exact hat.failed_iff hends
    | _ => rw [hpc] at hfinished; cases hfinished
  · intro before posting after completion hsplit hmem
    have hnone := concluded_of_reachable h before _ after hsplit nofun
    have hsent : completion ∈ completions before := List.mem_filterMap.mpr ⟨_, hmem, rfl⟩
    rw [hnone] at hsent
    cases hsent
  · intro before after hsplit
    obtain ⟨hopened, hafter⟩ := hlawful.requested_once hsplit
    exact ⟨hopened.early, hafter⟩

/-- Ralphex fails, its output is drained, the log closed and the phase read for the last post. -/
def failsUpToPost : List Action :=
  upToSpawn.tail ++ [.exits (.ok ⟨some 1⟩), .takesExit, .unwatched, .pokes .performs, .hangsUp,
    .pokes .completes] ++ closes ++ [.pokes .performs, .pokes .performs]

/-- The plan cannot be read before the deadline of a post. -/
def misses : List Action := [.pokes .performs, .pokes .elapses]

theorem failsUpToPost_undisturbed {last : List Action} (hlast : last = posts ∨ last = misses)
    (action : Action) (hmem : action ∈ failsUpToPost ++ last ++ [.concludes, .reports])
    (run : Run) : FailureUndisturbed run action := by
  rcases hlast with rfl | rfl <;> cases action with
  | validates result =>
      have hok : result = .ok () := by
        simpa [failsUpToPost, upToSpawn, closes, posts, misses] using hmem
      exact hok
  | begins | consumes => simp [failsUpToPost, upToSpawn, closes, posts, misses] at hmem
  | _ => trivial

theorem timeline_law_failed : ∃ run finished, machine.Reachable run ∧
    run.pc.finished = some finished ∧ Failing finished ∧
      dues run.trace = [opening, ⟨.setup, .failed⟩] := by
  let last := machine.exec { enter (native .no) with pc := .validating }
    (failsUpToPost ++ posts ++ [.concludes, .reports])
  have hsome : last.isSome := rfl
  obtain ⟨run, hexec⟩ := Option.isSome_iff_exists.mp hsome
  obtain ⟨hreach, -⟩ :=
    reachableBy_of_exec (by rfl) (failsUpToPost_undisturbed (.inl rfl)) hexec
  have hfinished : last.map (fun run ↦ run.pc.finished.isSome) = some true := rfl
  have hdues : last.map (fun run ↦ dues run.trace) = some [opening, ⟨.setup, .failed⟩] := rfl
  simp only [hexec, Option.map_some, Option.some.injEq] at hfinished hdues
  obtain ⟨finished, hpc⟩ := Option.isSome_iff_exists.mp hfinished
  obtain ⟨-, -, hfailing, -⟩ := timeline_law hreach
  refine ⟨run, finished, hreach.reachable, hpc, (hfailing finished hpc).mp ?_, hdues⟩
  rw [hdues]
  exact ⟨⟨.setup, .failed⟩, by simp, rfl⟩

/-- The snapshots that were handed to the sender, in order. -/
def posted (trace : List Event) : List Snapshot :=
  trace.filterMap fun event ↦
    match event with
    | .due ⟨snapshot, .handed⟩ => some snapshot
    | _ => none

/-- A run ends with an error and no failed snapshot was handed over: the plan could not be read
before the deadline of its last post. -/
theorem failure_not_posted : ¬ ∀ run finished, machine.ReachableBy FailureUndisturbed run →
    run.pc.finished = some finished → Failing finished →
      ∃ snapshot ∈ posted run.trace, snapshot.outcome = .failed := by
  intro hposted
  let last := machine.exec { enter (native .no) with pc := .validating }
    (failsUpToPost ++ misses ++ [.concludes, .reports])
  have hsome : last.isSome := rfl
  obtain ⟨run, hexec⟩ := Option.isSome_iff_exists.mp hsome
  obtain ⟨hreach, -⟩ :=
    reachableBy_of_exec (by rfl) (failsUpToPost_undisturbed (.inr rfl)) hexec
  let completion := failed "nonzero_exit".toList (exitMessage ⟨some 1⟩) []
  have hpc : last.map (fun run ↦ run.pc.finished) =
      some (some (Finish.finished none (Finish.removed completion))) := rfl
  have hnone : last.map (fun run ↦ posted run.trace) = some [opening] := rfl
  simp only [hexec, Option.map_some, Option.some.injEq] at hpc hnone
  obtain ⟨snapshot, hmem, hfailed⟩ := hposted run _ hreach hpc ⟨completion, rfl, rfl⟩
  rw [hnone] at hmem
  rw [List.mem_singleton.mp hmem] at hfailed
  cases hfailed

end RalphexRunner.Run
