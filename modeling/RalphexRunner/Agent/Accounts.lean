import RalphexRunner.Agent.Holder
import RalphexRunner.Agent.Verdict

/-!
# Every job is accounted for once

The ledger reads off the events what has been done for the job handed over last and not yet given
back: the completions sent for it and the events of its run.  Wherever the holder of the permit
stands, the ledger is what its control point says, so a job is completed once before the permit is
dropped, or not at all where a silent terminal ended its run.
-/

namespace RalphexRunner.Agent

variable {agent next : Agent}

/-- What has been done for a job since it was handed over. -/
structure Stint where
  job : Job
  raised : Bool
  completes : List (RunId × CompleteRequest)
  run : List Run.Event

/-- Whether a shutdown was raised, and the job that was not given back, if there is one. -/
structure Ledger where
  raised : Bool
  stint : Option Stint

def Event.complete? : Event → Option (RunId × CompleteRequest)
  | .completed runId completion => some (runId, completion)
  | .ran runId event => event.completion?.map fun completion ↦ (runId, completion)
  | _ => none

def Event.ran? : Event → Option Run.Event
  | .ran _ event => some event
  | _ => none

def Stint.observe (stint : Stint) (event : Event) : Stint :=
  { stint with
    completes := stint.completes ++ event.complete?.toList
    run := stint.run ++ event.ran?.toList }

def Ledger.observe (ledger : Ledger) : Event → Ledger
  | .hastened => { ledger with raised := true }
  | .handed job => { ledger with stint := some ⟨job, ledger.raised, [], []⟩ }
  | .released => { ledger with stint := none }
  | event => { ledger with stint := ledger.stint.map fun stint ↦ stint.observe event }

def ledger (trace : List Event) : Ledger := trace.foldl Ledger.observe ⟨false, none⟩

def stint (trace : List Event) : Option Stint := (ledger trace).stint

/-- The terminal that ended the run of the job leaves nothing to report. -/
def Stint.Silenced (stint : Stint) : Prop :=
  ∃ terminal, Run.standing stint.run = .settled terminal ∧ terminal.Silent

/-- A job is completed once, or never where a silent terminal ended its run; one that a shutdown
overtook is completed as such and no ralphex is spawned for it. -/
structure Stint.Accounted (stint : Stint) : Prop where
  once : ¬ stint.Silenced → ∃ completion, stint.completes = [(stint.job.runId, completion)]
  never : stint.Silenced → stint.completes = []
  overtaken : stint.raised = true →
    stint.completes = [(stint.job.runId, shutDown)] ∧ .spawned ∉ stint.run

def completesOf (runId : RunId) (trace : List Run.Event) : List (RunId × CompleteRequest) :=
  (Run.completions trace).map fun completion ↦ (runId, completion)

/-- There is no job to account for. -/
def Settled (current : Option Stint) : Prop := current = none

/-- Every job there was is accounted for. -/
def Balanced (current : Option Stint) : Prop := ∀ stint, current = some stint → stint.Accounted

/-- What has been done for the job where its holder stands. -/
def Tenancy.books : Tenancy → Option Stint → Prop
  | .received job | .overtaken job => fun current ↦ ∃ raised, current = some ⟨job, raised, [], []⟩
  | .reported job => fun current ↦
      ∃ raised, current = some ⟨job, raised, [(job.runId, shutDown)], []⟩
  | .accepted job | .announced job => fun current ↦ current = some ⟨job, false, [], []⟩
  | .serving run => fun current ↦ Run.machine.Reachable run ∧
      current = some ⟨run.setup.job, false, completesOf run.setup.job.runId run.trace, run.trace⟩

def LoopPc.books : LoopPc → Place (Option Stint)
  | .top | .acquiring | .pacing | .draining | .exited _ => .outside
  | .queued | .drainQueued => .queued
  | .polling | .claimed => .holding Settled
  | .tenancy stage => .holding stage.books
  | .stopping _ _ | .freeing _ _ | .dropping _ => .holding Balanced

def RequestPc.books : RequestPc → Place (Option Stint)
  | .absent | .arrived _ | .subscribing _ | .selecting _ | .finished => .outside
  | .queued _ | .backingOut => .queued
  | .granted _ | .checked _ | .opening _ | .titling _ | .asking _ => .holding Settled
  | .tenancy _ stage => .holding stage.books
  | .starting _ _ run => .holding (Tenancy.serving run).books
  | .freeing _ _ | .dropping _ => .holding Balanced

end RalphexRunner.Agent
