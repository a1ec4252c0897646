import RalphexRunner.Protocol.Duration
import RalphexRunner.Text.Utf8

/-!
# The wire types and the constants of the farm protocol

The bodies the daemon exchanges with the farm and the tuning constants, under the names of
`protocol/types.rs`.  A field nothing in the daemon's own logic reads is left out.
-/

namespace RalphexRunner

/-- The runtime class this runner serves. -/
def runtimeName : Text := "native".toList

/-- The largest log chunk the farm accepts in one request. -/
def maxLogChunk : ℕ := 65536

/-- The number of trailing lines kept for a completion's log tail. -/
def logTailLines : ℕ := 100

/-- The byte ceiling of a completion's log tail. -/
def logTailBytes : ℕ := 65536

/-- The byte ceiling of the outgoing log buffer before the oldest bytes are dropped. -/
def logBufferBytes : ℕ := 4 * 1024 * 1024

/-- The number of lines an attaching client replays. -/
def historyLines : ℕ := 2000

/-- The byte ceiling of the replay history. -/
def historyBytes : ℕ := 4 * 1024 * 1024

/-- The lease the farm grants a claimed job. -/
def leaseTtl : Duration := .fromSecs 180 (by decide)

/-- The time the farm holds a claim poll open. -/
def claimWindow : Duration := .fromSecs 25 (by decide)

/-- The time a claim poll may take. -/
def claimTimeout : Duration := .fromSecs (claimWindow.asSecs + 30) (by decide)

/-- The delay before the first retry of a failed call. -/
def retryBaseDelay : Duration := .fromSecs 1 (by decide)

/-- The ceiling the retry delay doubles up to. -/
def retryMaxDelay : Duration := .fromSecs 30 (by decide)

/-- The attempts a retried call makes before it gives up. -/
def retryMaxAttempts : ℕ := 6

/-- The time a single request to the farm may take, the claim poll aside. -/
def requestTimeout : Duration := .fromSecs 30 (by decide)

/-- The time a completion keeps retrying before the lease would expire. -/
def completeBudget : Duration := leaseTtl

/-- The budget a log stream has to flush its remainder while closing. -/
def logCloseTimeout : Duration := .fromSecs 30 (by decide)

/-- The grace between the first and the last signal of a stopped process group. -/
def stopGrace : Duration := .fromSecs 10 (by decide)

/-- The time one plan-progress snapshot may take to reach the farm. -/
def progressPostTimeout : Duration := .fromSecs 10 (by decide)

/-- The time the plan watcher may take to watch its first directories. -/
def watchStartTimeout : Duration := .fromSecs 10 (by decide)

/-- The time the removal of a run's output directory may take before it is left behind. -/
def outputRemoveTimeout : Duration := .fromSecs 10 (by decide)

/-- The time the git that inspects a checkout may take before it is killed. -/
def validateTimeout : Duration := .fromSecs 30 (by decide)

/-- The time one step of the pull-request sequence may take before it is killed. -/
def prStepTimeout : Duration := .fromSecs 120 (by decide)

/-- The number of steps the longest pull-request sequence runs. -/
def prSteps : ℕ := 6

/-- The time the whole pull-request sequence may take. -/
def prBudget : Duration := .fromSecs (prStepTimeout.asSecs * prSteps) (by decide)

/-- The identifier the farm gives a run. -/
structure RunId where
  value : Text
  deriving DecidableEq

/-- The git branch a run works on. -/
structure Branch where
  name : Text
  deriving DecidableEq

/-- The 1-based sequence number of a log chunk. -/
structure Seq where
  value : ℕ
  deriving DecidableEq

/-- The sequence number of a run's first log chunk. -/
def Seq.first : Seq := ⟨1⟩

def Seq.increment (seq : Seq) : Seq := ⟨seq.value + 1⟩

/-- Whether a run ends with a pull request. -/
inductive CreatePr where
  | yes
  | no
  deriving DecidableEq

/-- How a run ended. -/
inductive CompleteStatus where
  | done
  | error
  deriving DecidableEq

/-- The stage of a run the dashboard's timeline shows. -/
inductive Phase where
  | setup
  | tasks
  | review
  | pr
  deriving DecidableEq

/-- A run the farm handed to this runner. -/
structure Job where
  runId : RunId
  identifier : Text
  issueUrl : Text
  title : Text
  planPath : Text
  branch : Branch
  mode : Text
  runtime : Text
  ctx : Text
  createPr : CreatePr
  deriving DecidableEq

/-- The body that finalizes a run. -/
structure CompleteRequest where
  status : CompleteStatus
  prUrl : Text
  failReason : Text
  message : Text
  logTail : Text
  deriving DecidableEq

/-- Why a call to the farm did not succeed. -/
inductive FarmError where
  | gone
  | versionMismatch (message : Text)
  | badRequest (body : Text)
  | rejected (status : ℕ) (body : Text)
  | transport (message : Text)
  | decode (message : Text)
  deriving DecidableEq

end RalphexRunner
