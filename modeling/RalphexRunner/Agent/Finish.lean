import RalphexRunner.Progress.Watcher
import RalphexRunner.PullRequest.Sequence

/-!
# The awaits of a run, and the programs made of them

Everything `execute` does after the run was spawned, or could not be, is a straight line of awaits.
`Call` lists them; the programs below are the bodies of `finish`, `settle` and of the paths a
terminal or a failed spawn takes, under the names of `agent.rs`.
-/

namespace RalphexRunner

open Program

inductive Worktree where
  | yes
  | no
  deriving DecidableEq

/-- One await of a run, or one look at its shared state. -/
inductive Call where
  | halt
  | unwatch
  | drainOutput
  | closeLog
  | tail
  | freeze (phase : Phase)
  | phase
  | post (snapshot : Snapshot)
  | step (command : Command)
  | describe
  deriving DecidableEq

/-- What an await returns. -/
abbrev Call.Answer : Call → Type
  | .tail => Text
  | .phase => Phase
  | .step _ => StepOutcome
  | .describe => Except Text Description
  | .halt | .unwatch | .drainOutput | .closeLog | .freeze _ | .post _ => Unit

abbrev RunProgram := Program Call Call.Answer

abbrev await (call : Call) : RunProgram call.Answer := ask call

/-- What becomes of the output directory of a finished run. -/
inductive OutputFate where
  | remove
  | keep
  deriving DecidableEq

structure Closed where
  completion : CompleteRequest
  output : OutputFate
  deriving DecidableEq

/-- What the pull request of a run is opened from. -/
structure PullRequest where
  branch : Branch
  worktree : Worktree
  origin : RunOrigin
  plan : Text
  runId : RunId
  prFile : Option Text
  createPr : CreatePr

/-- What `execute` returns: the completion if there is one, what is left to do, and the output
directory if it is to be removed. -/
structure Finished where
  completion : Option CompleteRequest
  outcome : RunOutcome
  output : Option Text
  deriving DecidableEq

namespace Finish

def postPhase (phase : Phase) : RunProgram Unit := do
  await (.freeze phase)
  await (.post ⟨phase, .running⟩)

/-- Post a snapshot that marks the run as failed. -/
def postFailure : RunProgram Unit := do
  let phase ← await .phase
  await (.post ⟨phase, .failed⟩)

/-- Mark the run as failed where its completion says so. -/
def markFailure : Option CompleteRequest → RunProgram Unit
  | none => pure ()
  | some completion =>
      match completion.status with
      | .error => postFailure
      | .done => pure ()

def removed (completion : CompleteRequest) : Closed := ⟨completion, .remove⟩

/-- A pull request that could not be opened; a description that was read is kept. -/
def pullRequestFailed (error : PrError) : Option Text → Closed
  | none => removed (failed error.failReason error.message [])
  | some kept =>
      ⟨failed error.failReason
        (error.message ++ "; the description finalize wrote is kept at ".toList ++ kept) [], .keep⟩

/-- Run a part of the pull-request sequence. -/
def commands {α : Type} (program : PrProgram α) : RunProgram α :=
  program.translate Call.step fun _ outcome ↦ outcome

/-- The branch to push: the one ralphex left checked out, or the one the run was opened on. -/
def pushedBranch (pullRequest : PullRequest) (tools : PrTools) : RunProgram Branch :=
  match pullRequest.worktree with
  | .yes => pure pullRequest.branch
  | .no => do
      let actual ← commands (Pr.checkedOut tools)
      pure (actual.getD pullRequest.branch)

/-- The description finalize wrote, if it is usable. -/
def written (pullRequest : PullRequest) : RunProgram (Option Description) :=
  match pullRequest.prFile with
  | none => pure none
  | some _ => do
      let read : Except Text Description ← await .describe
      pure read.toOption

/-- The pull request of a run that asked for one. -/
def request (pullRequest : PullRequest) (tools : PrTools) : RunProgram Closed := do
  let branch ← pushedBranch pullRequest tools
  let written ← written pullRequest
  let kept := written.bind fun _ ↦ pullRequest.prFile
  let spec := PrSpec.describe branch pullRequest.origin pullRequest.plan pullRequest.runId written
  let opened ← commands (Pr.openPullRequest spec tools)
  match opened with
  | .ok url => pure (removed (done url))
  | .error error => pure (pullRequestFailed error kept)

/-- The completion of a run that exited. -/
def settle (exited : Except JobError ExitStatus) (pullRequest : PullRequest) (tools : PrTools) :
    RunProgram Closed :=
  match exited with
  | .error error => pure (removed (failed error.failReason error.message []))
  | .ok status =>
      if status.success then
        match pullRequest.createPr with
        | .no => pure (removed (done []))
        | .yes => do
            postPhase .pr
            request pullRequest tools
      else do
        let tail ← await .tail
        pure (removed (failed "nonzero_exit".toList (exitMessage status) tail))

/-- Everything that is left of a run that exited. -/
def finish (exited : Except JobError ExitStatus) (pullRequest : PullRequest) (tools : PrTools) :
    RunProgram Closed := do
  await .drainOutput
  await .closeLog
  let closed ← settle exited pullRequest tools
  markFailure (some closed.completion)
  pure closed

/-- What `execute` makes of a run that finished. -/
def finished (output : Option Text) (closed : Closed) : Finished where
  completion := some closed.completion
  outcome := .continue
  output :=
    match closed.output with
    | .remove => output
    | .keep => none

/-- What `execute` makes of a run a terminal stopped. -/
def stopped (terminal : Terminal) (output : Option Text) : Finished :=
  ⟨(RalphexRunner.stopped terminal).1, (RalphexRunner.stopped terminal).2, output⟩

/-- The log is closed, the failure marked, and the terminal's completion returned. -/
def interrupt (terminal : Terminal) (output : Option Text) : RunProgram Finished := do
  await .closeLog
  markFailure (stopped terminal output).completion
  pure (stopped terminal output)

/-- A terminal came before the exit: the run is halted and drained first. -/
def stop (terminal : Terminal) (output : Option Text) : RunProgram Finished := do
  await .halt
  await .drainOutput
  interrupt terminal output

/-- Ralphex could not be spawned. -/
def unspawned (error : JobError) (output : Option Text) : RunProgram Finished := do
  await .unwatch
  await .closeLog
  let completion := failed error.failReason error.message []
  markFailure (some completion)
  pure ⟨some completion, .continue, output⟩

def refused (completion : CompleteRequest) : Finished := ⟨some completion, .continue, none⟩

variable {α : Type} {completion : CompleteRequest}

theorem postFailure_bind (next : Unit → RunProgram α) :
    (postFailure >>= next) =
      .call .phase fun phase ↦ .call (.post ⟨phase, .failed⟩) fun _ ↦ next () := rfl

theorem markFailure_of_error (h : completion.status = .error) :
    markFailure (some completion) = postFailure := by
  simp only [markFailure, h]

theorem markFailure_of_done (h : completion.status = .done) :
    markFailure (some completion) = .done () := by
  simp only [markFailure, h, pure_eq]

/-- Marking a failure does nothing, or asks for the phase and posts that the run has failed. -/
theorem markFailure_cases (completion : Option CompleteRequest) (next : Unit → RunProgram α) :
    ((markFailure completion >>= next) = next () ∧
      ∀ failed, completion = some failed → failed.status ≠ .error) ∨
    ∃ failed, completion = some failed ∧ failed.status = .error ∧
      (markFailure completion >>= next) =
        .call .phase fun phase ↦ .call (.post ⟨phase, .failed⟩) fun _ ↦ next () := by
  cases completion with
  | none => exact .inl ⟨rfl, fun failed hsome ↦ absurd hsome.symm (Option.some_ne_none failed)⟩
  | some completion =>
      cases hstatus : completion.status with
      | error =>
          rw [markFailure_of_error hstatus, postFailure_bind]
          exact .inr ⟨completion, rfl, hstatus, rfl⟩
      | done =>
          rw [markFailure_of_done hstatus]
          refine .inl ⟨rfl, fun failed hsome herror ↦ ?_⟩
          rw [← Option.some.inj hsome, hstatus] at herror
          cases herror

theorem interrupt_eq (terminal : Terminal) (output : Option Text) :
    interrupt terminal output = .call .closeLog fun _ ↦
      markFailure (RalphexRunner.stopped terminal).1 >>= fun _ ↦
        .done (stopped terminal output) := rfl

theorem stop_eq (terminal : Terminal) (output : Option Text) :
    stop terminal output =
      .call .halt fun _ ↦ .call .drainOutput fun _ ↦ interrupt terminal output := rfl

theorem unspawned_eq (error : JobError) (output : Option Text) :
    unspawned error output = .call .unwatch fun _ ↦ .call .closeLog fun _ ↦
      markFailure (some (failed error.failReason error.message [])) >>= fun _ ↦
        .done ⟨some (failed error.failReason error.message []), .continue, output⟩ := rfl

theorem finish_eq (exited : Except JobError ExitStatus) (pullRequest : PullRequest)
    (tools : PrTools) : finish exited pullRequest tools =
      .call .drainOutput fun _ ↦ .call .closeLog fun _ ↦
        settle exited pullRequest tools >>= fun closed ↦
          markFailure (some closed.completion) >>= fun _ ↦ .done closed := rfl

end Finish

end RalphexRunner
