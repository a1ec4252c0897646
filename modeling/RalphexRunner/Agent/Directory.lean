import RalphexRunner.Agent.Verdict

/-!
# Who owns the output directory of a run

`execute` makes the directory once the job is valid, and `serve_run` hands it to removal before it
returns, unless `execute` kept it back.  Whether it does is decided deep in `settle`, and a terminal
may still replace what `settle` decided.  A `Housed` run is a run together with what was done about
its directory.

A run keeps its directory back exactly where it reports a failed pull request after it has read a
description: every program `execute` can still be in agrees on the two.
-/

namespace RalphexRunner

open Program

/-- The completion of a failed pull request whose description is kept in a file. -/
def keptFailure (error : PrError) (file : Text) : CompleteRequest :=
  failed error.failReason
    (error.message ++ "; the description finalize wrote is kept at ".toList ++ file) []

def prFailReasons : List Text := ["pr_create".toList, "git_push".toList]

/-- The completion of a run whose pull request could not be opened. -/
def CompleteRequest.OfPullRequest (completion : CompleteRequest) : Prop :=
  completion.failReason ∈ prFailReasons

namespace Run

def makes (run : Run) : Action → Option Text
  | .validates (.ok _) => run.setup.output
  | _ => none

/-- The directory an action hands to removal. -/
def disposes (run : Run) : Action → Option Text
  | .removes =>
      match run.pc with
      | .removing finished _ => finished.output
      | _ => none
  | _ => none

/-- Whether an exchange is the reading of a valid description. -/
def reads? : Exchange Call Call.Answer → Bool
  | ⟨.describe, .ok _⟩ => true
  | _ => false

/-- Whether an event is the reading of a valid description. -/
def Event.reads : Event → Bool
  | .answered exchange => reads? exchange
  | _ => false

def described (trace : List Event) : Bool := trace.any Event.reads

end Run

open Run in
/-- A run, the directory made for it, and what was handed to removal. -/
structure Housed where
  run : Run
  made : Option Text
  removals : List Text

namespace Housed

open Run

def enter (setup : Setup) : Housed := ⟨.enter setup, none, []⟩

/-- The run takes a step, and what it does about its directory is recorded. -/
def step (housed : Housed) (action : Action) : Option Housed :=
  (Run.step housed.run action).map fun run ↦
    { run
      made := housed.made.or (housed.run.makes action)
      removals := housed.removals ++ (housed.run.disposes action).toList }

def machine : Machine Housed Action where
  init housed := ∃ setup, housed = enter setup
  step := step

def There (housed : Housed) (directory : Text) : Prop :=
  housed.made = some directory ∧ directory ∉ housed.removals

end Housed

namespace Run

/-- A closed run keeps the directory exactly where it names the description it has read. -/
def ClosedFate (prFile : Option Text) (read : Bool) (closed : Closed) : Prop :=
  match closed.output with
  | .keep => read = true ∧
      ∃ file error, prFile = some file ∧ closed.completion = keptFailure error file
  | .remove => read = true → ¬ closed.completion.OfPullRequest

/-- What `execute` returns keeps the directory that was made back, and names the description in it,
or gives the directory up and names none. -/
def FinishedFate (made : Option Text) (read : Bool) (finished : Finished) : Prop :=
  (finished.output = none ∧ read = true ∧ ∃ directory error, made = some directory ∧
      finished.completion = some (keptFailure error (directory ++ "/pr.md".toList))) ∨
    finished.output = made ∧ ∀ completion, finished.completion = some completion →
      read = true → ¬ completion.OfPullRequest

/-- A run that has read nothing may end as it likes, as long as it gives the directory up. -/
theorem finishedFate_unread {made : Option Text} {read : Bool} {finished : Finished}
    (houtput : finished.output = made) (hread : read = false) :
    FinishedFate made read finished :=
  .inr ⟨houtput, fun _ _ htrue ↦ absurd (hread.symm.trans htrue) Bool.false_ne_true⟩

/-- Programs that end as `ends` says of what they have read by then. -/
def reading {α : Type} (ends : Bool → α → Prop) : Protocol Call Call.Answer α Bool where
  permits _ _ := True
  promises _ _ _ := True
  move read call answer := read || reads? ⟨call, answer⟩
  ends := ends

section Fate

variable {α : Type} {ends : Bool → α → Prop} {read : Bool} {made : Option Text}

theorem failReason_mem (error : PrError) : error.failReason ∈ prFailReasons := by
  have hcreate : "pr_create".toList ∈ prFailReasons := by decide
  have hpush : "git_push".toList ∈ prFailReasons := by decide
  cases error with
  | list | base | create => exact hcreate
  | push => exact hpush

theorem not_ofPullRequest_done (url : Text) : ¬ (done url).OfPullRequest := by
  change [] ∉ prFailReasons
  decide

theorem not_ofPullRequest_job (error : JobError) (message : Text) :
    ¬ (failed error.failReason message []).OfPullRequest := by
  have hother : ∀ reason ∈ ["ctx_invalid".toList, "plan_not_found".toList, "spawn_failed".toList],
      reason ∉ prFailReasons := by decide
  cases error with
  | ctxInvalid => exact hother _ List.mem_cons_self
  | planNotFound => exact hother _ (List.mem_cons_of_mem _ List.mem_cons_self)
  | spawnFailed | wait =>
      exact hother _ (List.mem_cons_of_mem _ (List.mem_cons_of_mem _ List.mem_cons_self))

theorem not_ofPullRequest_stopped {terminal : Terminal} {completion : CompleteRequest}
    (h : (stopped terminal).1 = some completion) : ¬ completion.OfPullRequest := by
  have hcanceled : "canceled".toList ∉ prFailReasons := by decide
  have hshutdown : "runner_shutdown".toList ∉ prFailReasons := by decide
  cases terminal with
  | cancel => exact Option.some.inj h ▸ hcanceled
  | drain => exact Option.some.inj h ▸ hshutdown
  | gone | versionMismatch => cases h

theorem reading_call {call : Call} {resume : call.Answer → RunProgram α}
    (hrest : ∀ answer, Follows (reading ends) (read || reads? ⟨call, answer⟩) (resume answer)) :
    Follows (reading ends) read (.call call resume) :=
  ⟨trivial, fun answer _ ↦ hrest answer⟩

/-- An await that reads nothing. -/
theorem reading_await {call : Call} {resume : call.Answer → RunProgram α} (hcall : call ≠ .describe)
    (hrest : ∀ answer, Follows (reading ends) read (resume answer)) :
    Follows (reading ends) read (.call call resume) := by
  refine reading_call fun answer ↦ ?_
  have hnone : reads? ⟨call, answer⟩ = false := by
    cases call <;> first | exact absurd rfl hcall | rfl
  rw [hnone, Bool.or_false]
  exact hrest answer

theorem reading_bind {β : Type} {ends : Bool → β → Prop} {program : RunProgram α}
    {next : α → RunProgram β}
    (h : Follows (reading fun read result ↦ Follows (reading ends) read (next result)) read
      program) : Follows (reading ends) read (program >>= next) := Follows.bind h

/-- The commands of a pull request read nothing. -/
theorem commands_reads {program : PrProgram α} (hends : ∀ result, ends read result) :
    Follows (reading ends) read (Finish.commands program) :=
  follows_translate (fun _ ↦ trivial) (fun _ _ ↦ Bool.or_false read) hends

theorem markFailure_reads {finished : Finished} {ends : Bool → Finished → Prop}
    (hends : ends read finished) (completion : Option CompleteRequest) :
    Follows (reading ends) read (Finish.markFailure completion >>= fun _ ↦ .done finished) := by
  rcases Finish.markFailure_cases completion fun _ ↦ .done finished with
    ⟨hnext, -⟩ | ⟨_, -, -, hnext⟩
  · rw [hnext]
    exact hends
  · rw [hnext]
    exact reading_await (by decide) fun phase ↦ reading_await (by simp) fun _ ↦ hends

theorem interrupt_reads (terminal : Terminal) (made : Option Text) (read : Bool) :
    Follows (reading (FinishedFate made)) read (Finish.interrupt terminal made) := by
  rw [Finish.interrupt_eq]
  refine reading_await (by decide) fun _ ↦ markFailure_reads (.inr ⟨rfl, ?_⟩) _
  exact fun completion hcompletion _ ↦ not_ofPullRequest_stopped hcompletion

theorem stop_reads (terminal : Terminal) (made : Option Text) (read : Bool) :
    Follows (reading (FinishedFate made)) read (Finish.stop terminal made) := by
  rw [Finish.stop_eq]
  exact reading_await (by decide) fun _ ↦ reading_await (by decide) fun _ ↦
    interrupt_reads terminal made read

theorem unspawned_reads (error : JobError) (made : Option Text) (read : Bool) :
    Follows (reading (FinishedFate made)) read (Finish.unspawned error made) := by
  rw [Finish.unspawned_eq]
  refine reading_await (by decide) fun _ ↦ reading_await (by decide) fun _ ↦
    markFailure_reads (.inr ⟨rfl, ?_⟩) _
  rintro completion hcompletion -
  exact Option.some.inj hcompletion ▸ not_ofPullRequest_job error error.message

/-- What a pull request is closed with, by what was read for it. -/
theorem closedFate_opened {prFile : Option Text} {written : Option Description} {read : Bool}
    (hread : written.isSome = read) (hfile : written.isSome = true → prFile.isSome = true)
    (opened : Except PrError Text) : ClosedFate prFile read
      (match opened with
        | .ok url => Finish.removed (done url)
        | .error error => Finish.pullRequestFailed error (written.bind fun _ ↦ prFile)) := by
  cases opened with
  | ok url => exact fun _ ↦ not_ofPullRequest_done url
  | error error =>
      cases written with
      | none => exact fun htrue ↦ absurd (hread.trans htrue) (by decide)
      | some description =>
          obtain ⟨file, rfl⟩ := Option.isSome_iff_exists.mp (hfile rfl)
          exact ⟨hread.symm, file, error, rfl, rfl⟩

/-- Opening a pull request once its description was looked for. -/
theorem opened_reads {pullRequest : PullRequest} {tools : PrTools} {branch : Branch}
    {written : Option Description} {read : Bool} (hread : written.isSome = read)
    (hfile : written.isSome = true → pullRequest.prFile.isSome = true) :
    Follows (reading (ClosedFate pullRequest.prFile)) read
      (Finish.commands (Pr.openPullRequest (PrSpec.describe branch pullRequest.origin
        pullRequest.plan pullRequest.runId written) tools) >>= fun opened ↦
          match opened with
          | .ok url => pure (Finish.removed (done url))
          | .error error =>
              pure (Finish.pullRequestFailed error (written.bind fun _ ↦ pullRequest.prFile))) := by
  refine reading_bind (commands_reads fun opened ↦ ?_)
  have hfate := closedFate_opened hread hfile opened
  cases opened with
  | ok url => exact hfate
  | error error => exact hfate

/-- The directory of a run that has a branch is kept as its completion says. -/
theorem branched_reads {pullRequest : PullRequest} {tools : PrTools} {branch : Branch} :
    Follows (reading (ClosedFate pullRequest.prFile)) false
      (Finish.written pullRequest >>= fun written ↦
        Finish.commands (Pr.openPullRequest (PrSpec.describe branch pullRequest.origin
          pullRequest.plan pullRequest.runId written) tools) >>= fun opened ↦
            match opened with
            | .ok url => pure (Finish.removed (done url))
            | .error error =>
                pure (Finish.pullRequestFailed error
                  (written.bind fun _ ↦ pullRequest.prFile))) := by
  unfold Finish.written
  split
  · exact opened_reads rfl fun hsome ↦ absurd hsome (by decide)
  · rename_i file hfile
    refine reading_call fun answer ↦ ?_
    have hsome : pullRequest.prFile.isSome = true := by rw [hfile]; rfl
    cases answer with
    | ok description => exact opened_reads rfl fun _ ↦ hsome
    | error message => exact opened_reads rfl fun _ ↦ hsome

theorem request_reads (pullRequest : PullRequest) (tools : PrTools) :
    Follows (reading (ClosedFate pullRequest.prFile)) false
      (Finish.request pullRequest tools) := by
  unfold Finish.request Finish.pushedBranch
  split
  · exact branched_reads
  · rw [bind_assoc]
    exact reading_bind (commands_reads fun actual ↦ branched_reads)

/-- What is removed without having been read names nothing. -/
theorem closedFate_removed (prFile : Option Text) (completion : CompleteRequest) :
    ClosedFate prFile false (Finish.removed completion) :=
  fun htrue ↦ absurd htrue (by decide)

theorem settle_reads (exited : Except JobError ExitStatus) (pullRequest : PullRequest)
    (tools : PrTools) : Follows (reading (ClosedFate pullRequest.prFile)) false
      (Finish.settle exited pullRequest tools) := by
  unfold Finish.settle
  split
  · exact closedFate_removed pullRequest.prFile _
  · split
    · split
      · exact closedFate_removed pullRequest.prFile _
      · exact reading_await (by decide) fun _ ↦ reading_await (by simp) fun _ ↦
          request_reads pullRequest tools
    · exact reading_await (by decide) fun tail ↦ closedFate_removed pullRequest.prFile _

/-- `execute` acts on what `settle` decided. -/
theorem finishedFate_finished {setup : Setup} {read : Bool} {closed : Closed}
    (h : ClosedFate setup.prFile read closed) :
    FinishedFate setup.output read (Finish.finished setup.output closed) := by
  obtain ⟨completion, fate⟩ := closed
  cases fate with
  | remove =>
      refine .inr ⟨rfl, ?_⟩
      rintro other hother hread
      exact Option.some.inj hother ▸ h hread
  | keep =>
      obtain ⟨hread, file, error, hfile, hcompletion⟩ := h
      obtain ⟨directory, hdirectory, rfl⟩ := Option.map_eq_some_iff.mp hfile
      exact .inl ⟨rfl, hread, directory, error, hdirectory, congrArg some hcompletion⟩

theorem finishing_reads (setup : Setup) (exited : Except JobError ExitStatus) :
    Follows (reading (FinishedFate setup.output)) false (setup.finishing exited) := by
  rw [Setup.finishing_eq]
  refine reading_await (by decide) fun _ ↦ reading_await (by decide) fun _ ↦ reading_bind ?_
  exact (settle_reads exited setup.pullRequest setup.tools).imp fun read closed hfate ↦
    markFailure_reads (finishedFate_finished hfate) _

end Fate

/-- The events say whether a description was read. -/
theorem described_iff {trace : List Event} : described trace = true ↔
    ∃ description, .answered ⟨.describe, .ok description⟩ ∈ trace := by
  rw [described, List.any_eq_true]
  constructor
  · rintro ⟨event, hmem, hreads⟩
    cases event with
    | answered exchange =>
        obtain ⟨call, answer⟩ := exchange
        cases call with
        | describe =>
            cases answer with
            | ok description => exact ⟨description, hmem⟩
            | error message => cases hreads
        | _ => cases hreads
    | _ => cases hreads
  · rintro ⟨description, hmem⟩
    exact ⟨_, hmem, rfl⟩

theorem described_append (trace events : List Event) :
    described (trace ++ events) = (described trace || described events) := List.any_append

theorem described_snoc (trace : List Event) {event : Event} (h : event.reads = false) :
    described (trace ++ [event]) = described trace := by
  rw [described_append, described, described, List.any_cons, h, List.any_nil, Bool.or_false,
    Bool.or_false]

theorem described_of_background {events : List Event} (h : ∀ event ∈ events, event.Background) :
    described events = false := by
  refine List.any_eq_false.mpr fun event hmem ↦ ?_
  have hbackground := h event hmem
  cases event <;> first | exact hbackground.elim | exact Bool.false_ne_true

theorem Added.described {call : Call} {events : List Event} (h : Added call events) :
    described events = false := by
  cases h <;> rfl

theorem described_after {call : Call} {before after events : List Event}
    (htrace : after = before ++ events) (hadded : Added call events) :
    described after = described before := by
  rw [htrace, described_append, hadded.described, Bool.or_false]

end Run

namespace Housed

open Run

variable {housed next : Housed}

/-! ## The invariant -/

/-- What was done about the directory by the time `serve_run` stands where it does. -/
def Housing (setup : Setup) (made : Option Text) (removals : List Text) (read : Bool) : Pc → Prop
  | .entered | .validating => made = none ∧ removals = [] ∧ read = false
  | .watching | .spawning | .waiting | .unwatching _ =>
      made = setup.output ∧ removals = [] ∧ read = false
  | .performing _ _ program =>
      made = setup.output ∧ removals = [] ∧ Follows (reading (FinishedFate made)) read program
  | .reporting finished | .reported finished _ | .removing finished _ =>
      removals = [] ∧ FinishedFate made read finished
  | .leaving finished _ | .left finished _ =>
      removals = finished.output.toList ∧ FinishedFate made read finished

def Kept (housed : Housed) : Prop :=
  Housing housed.run.setup housed.made housed.removals (described housed.run.trace) housed.run.pc

theorem step_eq_some {action : Action} (h : housed.step action = some next) :
    ∃ run, Run.step housed.run action = some run ∧
      next = ⟨run, housed.made.or (housed.run.makes action),
        housed.removals ++ (housed.run.disposes action).toList⟩ := by
  obtain ⟨run, hstep, rfl⟩ := Option.map_eq_some_iff.mp h
  exact ⟨run, hstep, rfl⟩

/-- A step that does nothing about the directory. -/
theorem Kept.quiet {action : Action} {run : Run} (hmakes : housed.run.makes action = none)
    (hdisposes : housed.run.disposes action = none)
    (h : Housing run.setup housed.made housed.removals (described run.trace) run.pc) :
    Kept ⟨run, housed.made.or (housed.run.makes action),
      housed.removals ++ (housed.run.disposes action).toList⟩ := by
  rw [hmakes, hdisposes, Option.or_none, Option.toList_none, List.append_nil]
  exact h

theorem Kept.beside {action : Action} {run : Run} (h : housed.Kept) (htask : action.OfTask)
    (hbeside : Beside housed.run run) :
    Kept ⟨run, housed.made.or (housed.run.makes action),
      housed.removals ++ (housed.run.disposes action).toList⟩ := by
  obtain ⟨hsetup, hpc, events, htrace, hevents⟩ := hbeside
  have hquiet : housed.run.makes action = none ∧ housed.run.disposes action = none := by
    cases action <;> first | exact htask.elim | exact ⟨rfl, rfl⟩
  refine .quiet hquiet.1 hquiet.2 ?_
  rw [hsetup, hpc, htrace, described_append, described_of_background hevents, Bool.or_false]
  exact h

/-- A step of `serve_run` itself. -/
theorem Kept.serves {action : Action} {run : Run} (h : housed.Kept)
    (hserves : Serves housed.run action run) :
    Kept ⟨run, housed.made.or (housed.run.makes action),
      housed.removals ++ (housed.run.disposes action).toList⟩ := by
  unfold Kept at h
  cases hserves with
  | accepted hpc =>
      rw [hpc] at h
      exact .quiet rfl rfl h
  | mismatched hpc =>
      rw [hpc] at h
      obtain ⟨hmade, hremovals, hread⟩ := h
      exact .quiet rfl rfl ⟨hremovals, finishedFate_unread hmade.symm hread⟩
  | validated hpc =>
      rw [hpc] at h
      obtain ⟨hmade, hremovals, hread⟩ := h
      refine ⟨?_, ?_, hread⟩
      · rw [hmade, Option.none_or]
        rfl
      · rw [hremovals]
        rfl
  | invalid error hpc =>
      rw [hpc] at h
      obtain ⟨hmade, hremovals, hread⟩ := h
      exact .quiet rfl rfl ⟨hremovals, finishedFate_unread hmade.symm hread⟩
  | started hpc =>
      rw [hpc] at h
      exact .quiet rfl rfl h
  | spawned hpc =>
      rw [hpc] at h
      refine .quiet rfl rfl ?_
      rw [emit_trace, described_snoc _ rfl]
      exact h
  | unspawned error hpc =>
      rw [hpc] at h
      obtain ⟨hmade, hremovals, -⟩ := h
      refine .quiet rfl rfl ⟨hmade, hremovals, ?_⟩
      rw [hmade]
      exact unspawned_reads error _ _
  | exited result hpc =>
      rw [hpc] at h
      refine .quiet rfl rfl ?_
      rw [emit_trace, described_snoc _ rfl]
      exact h
  | unwatched result watcher hpc =>
      rw [hpc] at h
      obtain ⟨hmade, hremovals, hread⟩ := h
      refine .quiet rfl rfl ⟨hmade, hremovals, ?_⟩
      rw [hmade, hread]
      exact finishing_reads housed.run.setup result
  | stopped terminal inbox hpc =>
      rw [hpc] at h
      obtain ⟨hmade, hremovals, -⟩ := h
      refine .quiet rfl rfl ⟨hmade, hremovals, ?_⟩
      rw [hmade]
      exact stop_reads terminal _ _
  | ignored inbox stage call resume hpc =>
      refine .quiet rfl rfl ?_
      rw [taken_trace, described_snoc _ rfl]
      exact h
  | interrupted terminal inbox stage call resume hterminal hpc =>
      rw [hpc] at h
      obtain ⟨hmade, hremovals, -⟩ := h
      refine .quiet rfl rfl ⟨?_, hremovals, ?_⟩
      · rw [abandon_setup]
        exact hmade
      · rw [hmade]
        exact interrupt_reads terminal _ _
  | @suspended mode stage stage' call resume poke after hpc hadvance =>
      rw [hpc] at h
      obtain ⟨hmade, hremovals, hfollows⟩ := h
      obtain ⟨hsetup, -, -, -, -, -, events, htrace, hadded⟩ := advance_awaited hadvance
      refine .quiet rfl rfl ⟨hmade.trans (congrArg Setup.output hsetup.symm), hremovals, ?_⟩
      rw [← described_after htrace hadded] at hfollows
      exact hfollows
  | @answered mode stage call resume poke after answer hpc hadvance =>
      rw [hpc] at h
      obtain ⟨hmade, hremovals, hfollows⟩ := h
      obtain ⟨hsetup, -, -, -, -, -, events, htrace, hadded⟩ := advance_awaited hadvance
      refine .quiet rfl rfl ⟨hmade.trans (congrArg Setup.output hsetup.symm), hremovals, ?_⟩
      have hlast : described [.answered ⟨call, answer⟩] = reads? ⟨call, answer⟩ :=
        Bool.or_false _
      rw [← described_after htrace hadded] at hfollows
      rw [emit_trace, described_append, hlast]
      exact hfollows.answered answer trivial
  | concluded finished hpc =>
      rw [hpc] at h
      exact .quiet rfl rfl ⟨h.2.1, h.2.2⟩
  | reported finished completion hpc hcompletion =>
      rw [hpc] at h
      refine .quiet rfl rfl ?_
      rw [emit_trace, described_snoc _ rfl]
      exact h
  | silent finished hpc =>
      rw [hpc] at h
      exact .quiet rfl rfl h
  | heard finished completion answer hpc =>
      rw [hpc] at h
      exact .quiet rfl rfl h
  | removed finished ended hpc =>
      rw [hpc] at h
      obtain ⟨hremovals, hfate⟩ := h
      have hdisposes : housed.run.disposes .removes = finished.output := by
        rw [disposes, hpc]
      have hmakes : housed.run.makes .removes = none := rfl
      rw [hdisposes, hmakes, Option.or_none, hremovals, List.nil_append]
      exact ⟨rfl, hfate⟩
  | left finished ended hpc =>
      rw [hpc] at h
      exact .quiet rfl rfl h

theorem reachable_enter (setup : Setup) : machine.Reachable (enter setup) := .init ⟨setup, rfl⟩

theorem kept_of_reachable (h : machine.Reachable housed) : housed.Kept := by
  refine h.invariant _ ?_ fun state action next hkept _ hstep ↦ ?_
  · rintro _ ⟨setup, rfl⟩
    exact ⟨rfl, rfl, rfl⟩
  · obtain ⟨run, hrun, rfl⟩ := step_eq_some hstep
    rcases step_cases hrun with ⟨htask, hbeside⟩ | hserves
    · exact hkept.beside htask hbeside
    · exact hkept.serves hserves

/-- The run of a housed run takes the steps of any other. -/
theorem reachable_run (h : machine.Reachable housed) : Run.machine.Reachable housed.run := by
  refine h.invariant (fun housed ↦ Run.machine.Reachable housed.run) ?_
    fun state action next hreachable _ hstep ↦ ?_
  · rintro _ ⟨setup, rfl⟩
    exact .init ⟨setup, rfl⟩
  · obtain ⟨run, hrun, rfl⟩ := step_eq_some hstep
    exact .step hreachable trivial hrun

theorem keptFailure_ofPullRequest (error : PrError) (file : Text) :
    (keptFailure error file).OfPullRequest := failReason_mem error

/-- Once `serve_run` has returned, the directory that was made is still there exactly where the
completion that was sent is that of a failed pull request and names the description that was read
from it; everywhere else it was handed to removal, once. -/
theorem directory_kept_or_removed (h : machine.Reachable housed) {finished : Finished}
    {ended : RunEnd} (hleft : housed.run.pc = .left finished ended) {directory : Text}
    (hmade : housed.made = some directory) :
    (housed.There directory ↔ ∃ error description,
      .answered ⟨.describe, .ok description⟩ ∈ housed.run.trace ∧
        completions housed.run.trace = [keptFailure error (directory ++ "/pr.md".toList)]) ∧
      (¬ housed.There directory → housed.removals = [directory]) := by
  have hkept := kept_of_reachable h
  have hsent := (sent_of_reachable (reachable_run h)).1
  rw [Kept, hleft] at hkept
  rw [hleft] at hsent
  obtain ⟨hremovals, hfate⟩ := hkept
  rcases hfate with ⟨houtput, hread, other, error, hother, hcompletion⟩ | ⟨houtput, hsilent⟩
  · obtain rfl : other = directory := Option.some.inj (hother.symm.trans hmade)
    have hnone : housed.removals = [] := by rw [hremovals, houtput, Option.toList_none]
    have hthere : housed.There other := ⟨hmade, by rw [hnone]; exact List.not_mem_nil⟩
    obtain ⟨description, hanswered⟩ := described_iff.mp hread
    refine ⟨iff_of_true hthere ⟨error, description, hanswered, ?_⟩, (absurd hthere ·)⟩
    rw [hsent]
    exact congrArg Option.toList hcompletion
  · have hone : housed.removals = [directory] := by
      rw [hremovals, houtput, hmade, Option.toList_some]
    have hgone : ¬ housed.There directory := fun hthere ↦
      hthere.2 (by rw [hone]; exact List.mem_singleton_self directory)
    refine ⟨iff_of_false hgone ?_, fun _ ↦ hone⟩
    rintro ⟨error, description, hanswered, hcompletions⟩
    rw [hsent] at hcompletions
    have hcompletion : finished.completion = some (keptFailure error _) :=
      Option.toList_eq_singleton_iff.mp hcompletions
    exact hsilent _ hcompletion (described_iff.mpr ⟨description, hanswered⟩)
      (keptFailure_ofPullRequest error _)

/-- Ralphex succeeds and describes its pull request, and the pull request cannot be looked up. -/
def lookupFails : List Action :=
  upToSpawn ++ [.exits (.ok ⟨some 0⟩), .takesExit, .unwatched, .pokes .performs, .hangsUp,
    .pokes .completes] ++ closes ++ [.pokes .performs] ++ posts ++
    [.pokes (.describes (.ok ⟨['t'], []⟩)), .pokes .performs, .pokes (.ends (.notRun ['e'])),
      .pokes .performs] ++ posts ++ [.concludes, .reports, .hears (.ok ()), .removes, .leaves]

/-- The run keeps the directory and reports where the description is. -/
theorem directory_kept_or_removed_lookup : ∃ housed finished ended,
    machine.exec (enter { native .yes with output := some ['d'] }) lookupFails = some housed ∧
      housed.run.pc = .left finished ended ∧ housed.made = some ['d'] ∧ housed.removals = [] ∧
        ((housed.There ['d'] ↔ ∃ error description,
          .answered ⟨.describe, .ok description⟩ ∈ housed.run.trace ∧
            completions housed.run.trace = [keptFailure error (['d'] ++ "/pr.md".toList)]) ∧
          (¬ housed.There ['d'] → housed.removals = [['d']])) := by
  have hexec : machine.exec (enter { native .yes with output := some ['d'] }) lookupFails =
      some _ := rfl
  have hreachable := Machine.Reachable.exec (reachable_enter _) hexec
  exact ⟨_, _, _, hexec, rfl, rfl, rfl, directory_kept_or_removed hreachable rfl rfl⟩

end Housed

end RalphexRunner
