import RalphexRunner.Progress.Watcher
import RalphexRunner.Semantics.Fairness
import RalphexRunner.Semantics.Signal

/-!
# The steps between a request for a snapshot and its post

A request is made in two halves: it is set pending under the lock of the tracker, and the poster is
notified after the lock is let go.  The poster prepares to be notified, takes the request, and
sleeps only where none was pending.  The loop that follows the events of the plan requests a
snapshot once the plan has been quiet, or once a directory was attached.  `Wakeups` is all of this
up to the stop of the watcher, with every half a step of its own.

Nothing is lost as long as the loop runs.  It ends where attaching directories fails, or where no
more events can come; what it waited for to become quiet is then never requested.
-/

namespace RalphexRunner

/-- What was modified. -/
inductive ModifyKind where
  | data
  | name
  | any
  | metadata
  | other
  deriving DecidableEq

inductive EventKind where
  | create
  | modify (kind : ModifyKind)
  | remove
  | any
  | access
  | other
  deriving DecidableEq

/-- A change the file system reports: its kind, and the file names of its paths. -/
structure PlanEvent where
  kind : EventKind
  names : List (Option (List UInt8))
  deriving DecidableEq

/-- A file can be another after such a change. -/
def EventKind.changes : EventKind → Bool
  | .create | .modify .data | .modify .name | .remove => true
  | .modify .any | .modify .metadata | .modify .other | .any | .access | .other => false

/-- The event changes a file named like the plan. -/
def namesPlan (event : PlanEvent) (name : List UInt8) : Bool :=
  event.kind.changes && event.names.any fun named ↦ named = some name

inductive Attachment where
  | attached
  | detached
  deriving DecidableEq

/-- Whether the plan's directory and its sibling of completed plans are watched. -/
structure Watches where
  directory : Attachment
  completed : Attachment
  deriving DecidableEq

namespace Watches

def attachment (watches : Watches) : Attachment :=
  match watches.directory, watches.completed with
  | .attached, .attached => .attached
  | .attached, .detached | .detached, .attached | .detached, .detached => .detached

/-- One more try to watch what is not watched yet, and whether it attached anything. -/
def attach (watches : Watches) (directory completed : Attachment) : Watches × Attachment :=
  let next : Watches :=
    ⟨if watches.directory = .attached then .attached else directory,
      if watches.completed = .attached then .attached else completed⟩
  (next, if next = watches then .detached else .attached)

end Watches

/-- Where the loop that follows the events stands. -/
inductive FollowStage where
  | selecting
  | reattaching
  | notifying
  deriving DecidableEq

/-- The loop that follows the events, with the instant the plan counts as quiet. -/
structure Follower where
  stage : FollowStage
  watches : Watches
  deadline : Option ℕ
  deriving DecidableEq

/-- Where the posting task stands; inside `requested` the signal says how far it has got. -/
inductive Posting where
  | opening (stage : PostStage)
  | requested
  | taken
  | posting (snapshot : Snapshot) (stage : PostStage)
  deriving DecidableEq

/-- The post goes from the reading of the plan to the sender. -/
def Posting.hands : Posting → Option Posting
  | .opening .reading => some (.opening .handed)
  | .posting snapshot .reading => some (.posting snapshot .handed)
  | .opening .handed | .requested | .taken | .posting _ .handed => none

/-- The name of the plan's file, and the quiet time before a snapshot is requested. -/
structure PlanWatch where
  name : List UInt8
  debounce : ℕ

/-- A plan watcher before it is stopped.  The phase of the last snapshot begun, and whether an event
named the plan that no request was made for, are not in the source. -/
structure Wakeups where
  phase : Phase
  signal : Signal
  poster : Posting
  follower : Option Follower
  now : ℕ
  begun : Phase
  planned : Bool

namespace Wakeups

/-- A watcher whose tasks have just been spawned, with the directories watched so far, or without
a watcher. -/
def start (watches : Option Watches) : Wakeups where
  phase := .setup
  signal := .new
  poster := .opening .reading
  follower := watches.map fun watches ↦ ⟨.selecting, watches, none⟩
  now := 0
  begun := .setup
  planned := false

/-- The phase a marker moves the run to, where that counts as a change. -/
def moved (phase : Phase) : Marker → Option Phase
  | .taskIteration => some .tasks
  | .review => if phase = .review then none else some .review

/-- The locked half of `observe`: the phase moves and a request is pending. -/
def observes (state : Wakeups) (line : Text) : Wakeups :=
  match (marker line).bind (moved state.phase) with
  | none => state
  | some phase => { state with phase, signal := state.signal.raises }

/-- The locked half of `request`. -/
def requests (state : Wakeups) : Wakeups := { state with signal := state.signal.raises }

/-- The requests the loop itself still has to notify the poster of. -/
def loopOwes (state : Wakeups) : ℕ :=
  match state.follower with
  | some ⟨.notifying, _, _⟩ => 1
  | _ => 0

/-- The other half, of anybody but the loop. -/
def notifies (state : Wakeups) : Option Wakeups :=
  if state.loopOwes < state.signal.owing then
    state.signal.notifies.map fun signal ↦ { state with signal }
  else none

/-- A post is over, and the next request is waited for. -/
def awaits (state : Wakeups) : Option Wakeups :=
  state.signal.enters.map fun signal ↦ { state with signal, poster := .requested }

/-- The plan was read: the snapshot is handed to the sender. -/
def reads (state : Wakeups) : Option Wakeups :=
  state.poster.hands.map fun poster ↦ { state with poster }

/-- The plan could not be read. -/
def fails (state : Wakeups) : Option Wakeups :=
  match state.poster with
  | .opening .reading | .posting _ .reading => state.awaits
  | _ => none

/-- The farm answered the post, whatever it said. -/
def answered (state : Wakeups) : Option Wakeups :=
  match state.poster with
  | .opening .handed | .posting _ .handed => state.awaits
  | _ => none

/-- The opening snapshot runs out of time. -/
def elapses (state : Wakeups) : Option Wakeups :=
  match state.poster with
  | .opening _ => state.awaits
  | _ => none

def prepares (state : Wakeups) : Option Wakeups :=
  if state.poster = .requested then state.signal.prepares.map fun signal ↦ { state with signal }
  else none

/-- The request is taken, if there is one. -/
def checks (state : Wakeups) : Option Wakeups :=
  if state.poster = .requested then
    state.signal.checks.map fun signal ↦ { state with
      signal
      poster := if state.signal.raised then .taken else .requested }
  else none

def polls (state : Wakeups) : Option Wakeups :=
  if state.poster = .requested then state.signal.polls.map fun signal ↦ { state with signal }
  else none

/-- The phase is read, and a snapshot of it begun. -/
def begins (state : Wakeups) : Option Wakeups :=
  match state.poster with
  | .taken => some { state with
      poster := .posting ⟨state.phase, .running⟩ .reading
      begun := state.phase }
  | _ => none

/-- What the loop is given: an event or an error of the file system, or that no more can come. -/
inductive Received where
  | closed
  | error
  | event (event : PlanEvent)
  deriving DecidableEq

/-- The loop goes on after what it was given, attaching directories where some are not. -/
def continues (follower : Follower) : Follower :=
  { follower with
    stage := if follower.watches.attachment = .detached then .reattaching else .selecting }

def receives (watch : PlanWatch) (state : Wakeups) (received : Received) : Option Wakeups :=
  match state.follower with
  | some ⟨.selecting, watches, deadline⟩ =>
      match received with
      | .closed => some { state with follower := none }
      | .error => some { state with follower := some (continues ⟨.selecting, watches, deadline⟩) }
      | .event event =>
          if namesPlan event watch.name then
            some { state with
              follower := some (continues ⟨.selecting, watches, some (state.now + watch.debounce)⟩)
              planned := true }
          else some { state with follower := some (continues ⟨.selecting, watches, deadline⟩) }
  | _ => none

/-- The plan has been quiet: the deadline is cleared and a request is pending. -/
def quiets (state : Wakeups) : Option Wakeups :=
  match state.follower with
  | some ⟨.selecting, watches, some deadline⟩ =>
      if deadline ≤ state.now then
        some { state.requests with
          follower := some ⟨.notifying, watches, none⟩
          planned := false }
      else none
  | _ => none

/-- It is time for another try to attach what is detached. -/
def retries (state : Wakeups) : Option Wakeups :=
  match state.follower with
  | some ⟨.selecting, watches, deadline⟩ =>
      if watches.attachment = .detached then
        some { state with follower := some ⟨.reattaching, watches, deadline⟩ }
      else none
  | _ => none

/-- The try is over, or the task it ran in has failed; a directory it attached is worth a
request. -/
def reattaches (state : Wakeups) (tried : Option (Attachment × Attachment)) : Option Wakeups :=
  match state.follower, tried with
  | some ⟨.reattaching, _, _⟩, none => some { state with follower := none }
  | some ⟨.reattaching, watches, deadline⟩, some (directory, completed) =>
      match watches.attach directory completed with
      | (watches, .attached) =>
          some { state.requests with follower := some ⟨.notifying, watches, deadline⟩ }
      | (watches, .detached) =>
          some { state with follower := some ⟨.selecting, watches, deadline⟩ }
  | _, _ => none

/-- The loop's half of a request that notifies the poster. -/
def signals (state : Wakeups) : Option Wakeups :=
  match state.follower with
  | some ⟨.notifying, watches, deadline⟩ =>
      state.signal.notifies.map fun signal ↦ { state with
        signal
        follower := some ⟨.selecting, watches, deadline⟩ }
  | _ => none

/-! ## Every interleaving -/

inductive Action where
  | observes (line : Text)
  | requests
  | notifies
  | reads
  | fails
  | answered
  | elapses
  | prepares
  | checks
  | polls
  | begins
  | receives (received : Received)
  | quiets
  | retries
  | reattaches (tried : Option (Attachment × Attachment))
  | signals
  | passes (nanos : ℕ)
  deriving DecidableEq

def step (watch : PlanWatch) (state : Wakeups) : Action → Option Wakeups
  | .observes line => some (state.observes line)
  | .requests => some state.requests
  | .notifies => state.notifies
  | .reads => state.reads
  | .fails => state.fails
  | .answered => state.answered
  | .elapses => state.elapses
  | .prepares => state.prepares
  | .checks => state.checks
  | .polls => state.polls
  | .begins => state.begins
  | .receives received => receives watch state received
  | .quiets => state.quiets
  | .retries => state.retries
  | .reattaches tried => state.reattaches tried
  | .signals => state.signals
  | .passes nanos => some { state with now := state.now + nanos }

/-- Whose step it is, of those a pending request can wait for. -/
def Action.party : Action → Option Signal.Party
  | .notifies | .signals => some .producers
  | .reads | .fails | .answered | .elapses | .prepares | .checks | .polls | .begins =>
      some .consumer
  | .observes _ | .requests | .receives _ | .quiets | .retries | .reattaches _ | .passes _ => none

def machine (watch : PlanWatch) : Machine Wakeups Action where
  init state := ∃ watches, state = start watches
  step := step watch

end Wakeups

end RalphexRunner
