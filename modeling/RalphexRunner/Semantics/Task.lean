import Mathlib.Tactic.Common

/-!
# Spawned tasks and their join handles

A spawned task runs until it ends by itself or is aborted.  Its one handle is kept somewhere until
an owner takes it out to await the task.  The await ends in one of three ways: the task is joined,
the owner gives up and aborts it, or the await itself is dropped.  Dropping a handle detaches the
task without ending it, and from then on nobody can end it.
-/

namespace RalphexRunner

variable {τ : Type*}

/-- How far a task has got; a running one has a local state. -/
inductive Task (τ : Type*) where
  | running (local_ : τ)
  | ended
  | aborted
  deriving DecidableEq

def Task.Settled : Task τ → Prop
  | .running _ => False
  | .ended => True
  | .aborted => True

instance (task : Task τ) : Decidable task.Settled := by
  cases task <;> unfold Task.Settled <;> infer_instance

@[simp] theorem Task.not_settled_running (local_ : τ) : ¬ (Task.running local_).Settled := id

@[simp] theorem Task.settled_ended : (Task.ended : Task τ).Settled := trivial

@[simp] theorem Task.settled_aborted : (Task.aborted : Task τ).Settled := trivial

def Task.abort : Task τ → Task τ
  | .running _ => .aborted
  | .ended => .ended
  | .aborted => .aborted

/-- Where the join handle is. -/
inductive Handle where
  | kept
  | awaited
  | dropped
  deriving DecidableEq

/-- A task together with its handle. -/
structure Spawned (τ : Type*) where
  task : Task τ
  handle : Handle
  deriving DecidableEq

namespace Spawned

/-- A task that has just been spawned. -/
def start (local_ : τ) : Spawned τ := ⟨.running local_, .kept⟩

/-- Take the handle out to await the task; `none` where it is already gone. -/
def take (spawned : Spawned τ) : Option (Spawned τ) :=
  if spawned.handle = .kept then some { spawned with handle := .awaited } else none

/-- The await sees the task settled. -/
def join (spawned : Spawned τ) : Option (Spawned τ) :=
  if spawned.handle = .awaited ∧ spawned.task.Settled then some { spawned with handle := .dropped }
  else none

/-- The await runs out of time over a task that is still running, and aborts it. -/
def expire (spawned : Spawned τ) : Option (Spawned τ) :=
  if spawned.handle = .awaited ∧ ¬ spawned.task.Settled then some ⟨.aborted, .dropped⟩ else none

/-- The await is dropped, and the handle with it. -/
def detach (spawned : Spawned τ) : Spawned τ :=
  if spawned.handle = .awaited then { spawned with handle := .dropped } else spawned

/-- The task takes a step of its own. -/
def run (spawned : Spawned τ) (task : Task τ) : Spawned τ := { spawned with task := task }

/-- The task, still running, took a step of its own. -/
def Ticks (spawned next : Spawned τ) : Prop :=
  ∃ local_ task, spawned.task = .running local_ ∧ next = spawned.run task

/-- The task took a step of its own at most; its handle stayed where it was. -/
def Runs (spawned next : Spawned τ) : Prop := next = spawned ∨ spawned.Ticks next

/-- Where the handle of a task is that its owner awaits once: kept before the await, awaited
during it, and of no use after it. -/
def Held (spawned : Spawned τ) (awaiting : Prop) : (awaited : Bool) → Prop
  | false => (awaiting ∧ spawned.handle = .awaited) ∨ (¬ awaiting ∧ spawned.handle = .kept)
  | true => spawned.task.Settled

variable {spawned next : Spawned τ}

/-- A task that is settled takes no step. -/
theorem Ticks.not_settled (h : spawned.Ticks next) : ¬ spawned.task.Settled := by
  obtain ⟨local_, _, htask, -⟩ := h
  rw [htask]
  exact id

theorem Runs.handle (h : spawned.Runs next) : next.handle = spawned.handle := by
  rcases h with rfl | ⟨_, _, -, rfl⟩
  · rfl
  · rfl

theorem Runs.eq_of_settled (h : spawned.Runs next) (hsettled : spawned.task.Settled) :
    next = spawned :=
  h.resolve_right fun hticks ↦ hticks.not_settled hsettled

theorem Held.runs {awaiting : Prop} {awaited : Bool} (h : spawned.Held awaiting awaited)
    (hruns : spawned.Runs next) : next.Held awaiting awaited := by
  cases awaited with
  | false =>
      unfold Held
      rw [hruns.handle]
      exact h
  | true =>
      have hsettled : spawned.task.Settled := h
      rw [hruns.eq_of_settled hsettled]
      exact h

theorem Held.settled_of_take {awaiting : Prop} {awaited : Bool}
    (h : spawned.Held awaiting awaited) (hnot : ¬ awaiting) (htake : spawned.take = none) :
    spawned.task.Settled := by
  cases awaited with
  | true => exact h
  | false =>
      have hkept : spawned.handle = .kept := by
        rcases h with ⟨hawaiting, -⟩ | ⟨-, hkept⟩
        · exact absurd hawaiting hnot
        · exact hkept
      rw [take, if_pos hkept] at htake
      cases htake

theorem Held.congr {awaiting awaiting' : Prop} {awaited : Bool} (h : spawned.Held awaiting awaited)
    (hiff : awaiting ↔ awaiting') : spawned.Held awaiting' awaited := by
  rwa [← propext hiff]

theorem take_eq_some : spawned.take = some next ↔
    spawned.handle = .kept ∧ next = { spawned with handle := .awaited } := by
  unfold take
  split <;> simp_all [eq_comm]

theorem Held.take {awaiting : Prop} {awaited : Bool} (h : spawned.Held awaiting awaited)
    (htake : spawned.take = some next) : next.Held True awaited := by
  obtain ⟨-, rfl⟩ := take_eq_some.mp htake
  cases awaited with
  | true => exact h
  | false => exact .inl ⟨trivial, rfl⟩

theorem join_eq_some : spawned.join = some next ↔ spawned.handle = .awaited ∧
    spawned.task.Settled ∧ next = { spawned with handle := .dropped } := by
  unfold join
  split <;> simp_all [eq_comm]

theorem expire_eq_some : spawned.expire = some next ↔
    spawned.handle = .awaited ∧ ¬ spawned.task.Settled ∧ next = ⟨.aborted, .dropped⟩ := by
  unfold expire
  split <;> simp_all [eq_comm]

/-- A join leaves a settled task. -/
theorem settled_of_join (h : spawned.join = some next) : next.task.Settled := by
  obtain ⟨-, hsettled, rfl⟩ := join_eq_some.mp h
  exact hsettled

/-- So does an await that ran out of time. -/
theorem settled_of_expire (h : spawned.expire = some next) : next.task.Settled := by
  obtain ⟨-, -, rfl⟩ := expire_eq_some.mp h
  trivial

end Spawned

end RalphexRunner
