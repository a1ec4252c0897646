import RalphexRunner.Progress.Tracker
import RalphexRunner.Semantics.Task

/-!
# The plan watcher and the snapshot poster

One task posts every snapshot of a run until the watcher is stopped: the opening one, whose reading
and posting share a deadline, and then one for each request it takes.  A snapshot is read from the
disk first and handed to the sender after that, unless its deadline passes before; what became of a
snapshot is what a step returns beside the watcher.
-/

namespace RalphexRunner

/-- What a snapshot says of the run. -/
inductive Outcome where
  | running
  | failed
  deriving DecidableEq

/-- A plan-progress snapshot, without the tasks read from the plan. -/
structure Snapshot where
  phase : Phase
  outcome : Outcome
  deriving DecidableEq

/-- What becomes of a snapshot that is due: it is handed to the sender, or its deadline passes while
the plan is still being read. -/
inductive Fate where
  | handed
  | missed
  deriving DecidableEq

structure Due where
  snapshot : Snapshot
  fate : Fate
  deriving DecidableEq

/-- How far one post has got: the plan is being read, or the snapshot was handed to the sender. -/
inductive PostStage where
  | reading
  | handed
  deriving DecidableEq

/-- Where the posting task stands. -/
inductive Poster where
  | opening (stage : PostStage)
  | checking
  | asleep
  | taken
  | posting (snapshot : Snapshot) (stage : PostStage)
  deriving DecidableEq

/-- The snapshot every run begins with. -/
def opening : Snapshot := ⟨.setup, .running⟩

/-- The watcher of a run: its tracker, its two tasks, and whether the opening snapshot is over. -/
structure PlanWatcher where
  tracker : PhaseTracker
  events : Task Unit
  posts : Task Poster
  opened : Bool

namespace PlanWatcher

/-- A watcher whose tasks have just been spawned. -/
def start : PlanWatcher := ⟨.new, .running (), .running (.opening .reading), false⟩

/-- What the two tasks can do. -/
inductive Action where
  | changes
  | reads
  | answered
  | elapses
  | checks
  | wakes
  | begins
  deriving DecidableEq

/-- The posting task goes on. -/
def goOn (watcher : PlanWatcher) (poster : Poster) : PlanWatcher :=
  { watcher with posts := .running poster }

/-- The opening snapshot is over: the channel `stop` waits for is answered. -/
def open_ (watcher : PlanWatcher) : PlanWatcher := { watcher.goOn .checking with opened := true }

/-- One step of a task, and the snapshots whose fate it decides. -/
def step (watcher : PlanWatcher) (action : Action) : Option (PlanWatcher × List Due) :=
  match action, watcher.events, watcher.posts with
  | .changes, .running (), _ =>
      some ({ watcher with tracker := watcher.tracker.requests }, [])
  | .reads, _, .running (.opening .reading) =>
      some (watcher.goOn (.opening .handed), [⟨opening, .handed⟩])
  | .reads, _, .running (.posting snapshot .reading) =>
      some (watcher.goOn (.posting snapshot .handed), [⟨snapshot, .handed⟩])
  | .answered, _, .running (.opening .handed) => some (watcher.open_, [])
  | .answered, _, .running (.posting _ .handed) => some (watcher.goOn .checking, [])
  | .elapses, _, .running (.opening .reading) => some (watcher.open_, [⟨opening, .missed⟩])
  | .elapses, _, .running (.opening .handed) => some (watcher.open_, [])
  | .checks, _, .running .checking =>
      match watcher.tracker.takeRequest with
      | (.pending, tracker) => some ({ watcher with tracker }.goOn .taken, [])
      | (.idle, tracker) => some ({ watcher with tracker }.goOn .asleep, [])
  | .wakes, _, .running .asleep =>
      watcher.tracker.wakes.map fun tracker ↦ ({ watcher with tracker }.goOn .checking, [])
  | .begins, _, .running .taken =>
      some (watcher.goOn (.posting ⟨watcher.tracker.phase, .running⟩ .reading), [])
  | _, _, _ => none

/-- The head of `stop`: the events task is aborted. -/
def release (watcher : PlanWatcher) : PlanWatcher := { watcher with events := .aborted }

/-- The rest of `stop`: once the opening snapshot is over the posting task is aborted. -/
def stopped (watcher : PlanWatcher) : Option PlanWatcher :=
  if watcher.opened then some { watcher with posts := .aborted } else none

end PlanWatcher

end RalphexRunner
