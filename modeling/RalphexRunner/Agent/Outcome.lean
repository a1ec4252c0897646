import RalphexRunner.Protocol.Types
import RalphexRunner.Text.Chars

/-!
# What a run ends with

The completions the daemon can send, the terminals that can end a run, and what an attached client
is told: the small pure functions of `agent.rs` that every path through a run ends in.
-/

namespace RalphexRunner

def FarmError.message : FarmError → Text
  | .gone => "the farm no longer knows this run".toList
  | .versionMismatch message => "protocol version mismatch: ".toList ++ message
  | .badRequest body => "the farm refused the request: ".toList ++ body
  | .rejected status body => "the farm answered ".toList ++ numeral status ++ ": ".toList ++ body
  | .transport message => "the farm could not be reached: ".toList ++ message
  | .decode message => "the farm's answer could not be decoded: ".toList ++ message

/-- The farm's message where the farm speaks another protocol version. -/
def versionMismatch : FarmError → Option Text
  | .versionMismatch message => some message
  | .gone | .badRequest _ | .rejected _ _ | .transport _ | .decode _ => none

/-- Why a job could not be started or waited for. -/
inductive JobError where
  | ctxInvalid (detail : Text)
  | planNotFound (detail : Text)
  | spawnFailed (detail : Text)
  | wait (detail : Text)
  deriving DecidableEq

def JobError.failReason : JobError → Text
  | .ctxInvalid _ => "ctx_invalid".toList
  | .planNotFound _ => "plan_not_found".toList
  | .spawnFailed _ => "spawn_failed".toList
  | .wait _ => "spawn_failed".toList

def JobError.message : JobError → Text
  | .ctxInvalid detail => "the checkout is unusable: ".toList ++ detail
  | .planNotFound detail => "the plan is unusable: ".toList ++ detail
  | .spawnFailed detail => "ralphex could not be started: ".toList ++ detail
  | .wait detail => "the run could not be waited for: ".toList ++ detail

/-- How a process ended: its code, or none where a signal killed it. -/
structure ExitStatus where
  code : Option ℕ
  deriving DecidableEq

def ExitStatus.success (status : ExitStatus) : Bool := status.code = some 0

def failed (failReason message logTail : Text) : CompleteRequest where
  status := .error
  prUrl := []
  failReason
  message
  logTail

def done (prUrl : Text) : CompleteRequest where
  status := .done
  prUrl
  failReason := []
  message := []
  logTail := []

/-- The completion of a run that was never started because of a shutdown. -/
def shutDown : CompleteRequest :=
  failed "runner_shutdown".toList "the runner shut down before the run started".toList []

/-- The completion of a job that asks for another runtime. -/
def runtimeMismatch (runtime : Text) : CompleteRequest :=
  failed "runtime_mismatch".toList
    ("this runner serves ".toList ++ runtimeName ++ ", the job asks for ".toList ++ runtime) []

def exitMessage (status : ExitStatus) : Text :=
  match status.code with
  | none => "ralphex was killed by a signal".toList
  | some code => "ralphex exited with code ".toList ++ numeral code

@[simp] theorem failed_status (failReason message logTail : Text) :
    (failed failReason message logTail).status = .error := rfl

@[simp] theorem done_status (prUrl : Text) : (done prUrl).status = .done := rfl

/-- What can end a run from outside. -/
inductive Terminal where
  | cancel
  | drain
  | gone
  | versionMismatch (message : Text)
  deriving DecidableEq

/-- What a finished run leaves the agent to do. -/
inductive RunOutcome where
  | continue
  | versionMismatch (message : Text)
  deriving DecidableEq

/-- The completion of a run a terminal stopped, and what is left to do. -/
def stopped : Terminal → Option CompleteRequest × RunOutcome
  | .cancel => (some (failed "canceled".toList "the run was canceled".toList []), .continue)
  | .drain => (some (failed "runner_shutdown".toList
      "the runner shut down while the run was in flight".toList []), .continue)
  | .gone => (none, .continue)
  | .versionMismatch message => (none, .versionMismatch message)

/-- The terminals after which nothing is reported. -/
def Terminal.Silent : Terminal → Prop
  | .cancel => False
  | .drain => False
  | .gone => True
  | .versionMismatch _ => True

instance (terminal : Terminal) : Decidable terminal.Silent := by
  cases terminal <;> unfold Terminal.Silent <;> infer_instance

/-- A terminal leaves no completion exactly where it is silent. -/
theorem stopped_eq_none_iff (terminal : Terminal) :
    (stopped terminal).1 = none ↔ terminal.Silent := by
  cases terminal <;> simp [stopped, Terminal.Silent]

/-- A run a terminal stopped is never reported as done. -/
theorem stopped_status {terminal : Terminal} {completion : CompleteRequest}
    (h : (stopped terminal).1 = some completion) : completion.status = .error := by
  cases terminal <;> simp only [stopped, Option.some.injEq, reduceCtorEq] at h <;> rw [← h] <;> rfl

/-- What the farm's records hold about a run that ended. -/
inductive RunEnd where
  | reported (completion : CompleteRequest)
  | unreported (message : Text)
  | forgotten
  | versionMismatch (message : Text)
  | dropped
  deriving DecidableEq

/-- How far the run in the slot has got. -/
inductive RunState where
  | running
  | finished (ended : RunEnd)
  deriving DecidableEq

def unreported (completion : CompleteRequest) (error : FarmError) : Text :=
  let ended :=
    match completion.status with
    | .done =>
        if completion.prUrl.isEmpty then "done".toList else "done, ".toList ++ completion.prUrl
    | .error => "error, ".toList ++ completion.failReason
  "the run ended ".toList ++ ended ++ ", but the farm did not record it: ".toList ++ error.message

/-- What the farm's answer to a completion leaves on record. -/
def report (completion : CompleteRequest) : Except FarmError Unit → RunEnd
  | .ok () => .reported completion
  | .error .gone => .forgotten
  | .error error => .unreported (unreported completion error)

/-- What is on record of a run that sent no completion. -/
def unsent : RunOutcome → RunEnd
  | .continue => .dropped
  | .versionMismatch message => .versionMismatch message

end RalphexRunner
