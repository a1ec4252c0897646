import Mathlib.Data.List.Basic

/-!
# Machines with labelled actions

A machine is a set of initial states and a partial step function: `step state action` is the state
after the action, or `none` where the action is not possible.  Everything that can happen in some
order is an action, so an interleaving of several tasks is one list of actions.

`ReachableBy allowed` collects the states of the runs whose every step is `allowed`; `Reachable`
puts no condition on the steps.  An invariant is proved once per step and lifted to runs by
`ReachableBy.invariant`.
-/

namespace RalphexRunner

variable {σ α : Type*}

/-- The initial states of a system and what each of its actions does. -/
structure Machine (σ α : Type*) where
  init : σ → Prop
  step : σ → α → Option σ

namespace Machine

/-- Perform the actions in order; `none` as soon as one of them is not possible. -/
def exec (machine : Machine σ α) (state : σ) : List α → Option σ
  | [] => some state
  | action :: rest => (machine.step state action).bind fun next ↦ machine.exec next rest

@[simp] theorem exec_nil (machine : Machine σ α) (state : σ) :
    machine.exec state [] = some state := rfl

theorem exec_cons (machine : Machine σ α) (state : σ) (action : α) (rest : List α) :
    machine.exec state (action :: rest) =
      (machine.step state action).bind fun next ↦ machine.exec next rest := rfl

theorem exec_append (machine : Machine σ α) (state : σ) (first second : List α) :
    machine.exec state (first ++ second) =
      (machine.exec state first).bind fun middle ↦ machine.exec middle second := by
  induction first generalizing state with
  | nil => rfl
  | cons action rest ih =>
      simp only [List.cons_append, exec_cons]
      cases machine.step state action with
      | none => rfl
      | some next => simpa using ih next

/-- The states of the runs in which every step satisfies `allowed` where it is taken. -/
inductive ReachableBy (machine : Machine σ α) (allowed : σ → α → Prop) : σ → Prop
  | init {state : σ} : machine.init state → machine.ReachableBy allowed state
  | step {state next : σ} {action : α} : machine.ReachableBy allowed state →
      allowed state action → machine.step state action = some next →
        machine.ReachableBy allowed next

/-- The states of all runs. -/
abbrev Reachable (machine : Machine σ α) : σ → Prop :=
  machine.ReachableBy fun _ _ ↦ True

variable {machine : Machine σ α} {allowed : σ → α → Prop}

/-- What holds initially and survives every allowed step holds in every state reached. -/
theorem ReachableBy.invariant (inv : σ → Prop)
    (hinit : ∀ state, machine.init state → inv state)
    (hstep : ∀ state action next, inv state → allowed state action →
      machine.step state action = some next → inv next)
    {state : σ} (h : machine.ReachableBy allowed state) : inv state := by
  induction h with
  | init hs => exact hinit _ hs
  | step _ hallowed hs ih => exact hstep _ _ _ ih hallowed hs

/-- An invariant may be proved under invariants that are already known. -/
theorem ReachableBy.invariant_of (known inv : σ → Prop)
    (hknown : ∀ state, machine.ReachableBy allowed state → known state)
    (hinit : ∀ state, machine.init state → inv state)
    (hstep : ∀ state action next, known state → inv state → allowed state action →
      machine.step state action = some next → inv next)
    {state : σ} (h : machine.ReachableBy allowed state) : inv state := by
  induction h with
  | init hs => exact hinit _ hs
  | step hreach hallowed hs ih => exact hstep _ _ _ (hknown _ hreach) ih hallowed hs

theorem ReachableBy.mono {weaker : σ → α → Prop}
    (hweaker : ∀ state action, allowed state action → weaker state action)
    {state : σ} (h : machine.ReachableBy allowed state) : machine.ReachableBy weaker state :=
  h.invariant _ (fun _ hs ↦ .init hs)
    (fun _ _ _ ih hallowed hs ↦ .step ih (hweaker _ _ hallowed) hs)

theorem ReachableBy.reachable {state : σ} (h : machine.ReachableBy allowed state) :
    machine.Reachable state :=
  h.mono fun _ _ _ ↦ trivial

/-- Actions that are allowed everywhere lead from a reachable state to a reachable state. -/
theorem ReachableBy.exec {state next : σ} {actions : List α}
    (h : machine.ReachableBy allowed state)
    (hallowed : ∀ action ∈ actions, ∀ state, allowed state action)
    (hexec : machine.exec state actions = some next) : machine.ReachableBy allowed next := by
  induction actions generalizing state with
  | nil =>
      simp only [exec_nil, Option.some.injEq] at hexec
      exact hexec ▸ h
  | cons action rest ih =>
      rw [exec_cons, Option.bind_eq_some_iff] at hexec
      obtain ⟨middle, hstep, hrest⟩ := hexec
      exact ih (.step h (hallowed action List.mem_cons_self state) hstep)
        (fun other hother ↦ hallowed other (List.mem_cons_of_mem action hother)) hrest

theorem Reachable.exec {state next : σ} {actions : List α} (h : machine.Reachable state)
    (hexec : machine.exec state actions = some next) : machine.Reachable next :=
  ReachableBy.exec h (fun _ _ _ ↦ trivial) hexec

/-- What survives every step from a reachable state survives every run from it. -/
theorem Reachable.exec_invariant (inv : σ → Prop)
    (hstep : ∀ state action next, machine.Reachable state → inv state →
      machine.step state action = some next → inv next)
    {state next : σ} {actions : List α} (h : machine.Reachable state) (hinv : inv state)
    (hexec : machine.exec state actions = some next) : inv next := by
  induction actions generalizing state with
  | nil =>
      simp only [exec_nil, Option.some.injEq] at hexec
      exact hexec ▸ hinv
  | cons action rest ih =>
      rw [exec_cons, Option.bind_eq_some_iff] at hexec
      obtain ⟨middle, hmiddle, hrest⟩ := hexec
      exact ih (.step h trivial hmiddle) (hstep _ _ _ h hinv hmiddle) hrest

/-- One step of a run, with what was done before it and after it. -/
structure Moment (machine : Machine σ α) (start : σ) (actions : List α) (finish : σ) where
  earlier : List α
  action : α
  later : List α
  before : σ
  after : σ
  split : actions = earlier ++ action :: later
  reached : machine.exec start earlier = some before
  taken : machine.step before action = some after
  followed : machine.exec after later = some finish

namespace Moment

variable {start finish : σ} {actions : List α}

def first {action : α} {rest : List α} {next : σ} (taken : machine.step start action = some next)
    (followed : machine.exec next rest = some finish) :
    machine.Moment start (action :: rest) finish :=
  ⟨[], action, rest, start, next, rfl, rfl, taken, followed⟩

/-- A step of a run is a step of the run that has one step more before it. -/
def delayed {action : α} {rest : List α} {next : σ} (taken : machine.step start action = some next)
    (moment : machine.Moment next rest finish) : machine.Moment start (action :: rest) finish where
  earlier := action :: moment.earlier
  action := moment.action
  later := moment.later
  before := moment.before
  after := moment.after
  split := congrArg (List.cons action) moment.split
  reached := by
    rw [exec_cons, taken]
    exact moment.reached
  taken := moment.taken
  followed := moment.followed

theorem action_mem (moment : machine.Moment start actions finish) : moment.action ∈ actions := by
  obtain ⟨earlier, action, later, before, after, rfl, reached, taken, followed⟩ := moment
  exact List.mem_append_right earlier List.mem_cons_self

theorem reachable (moment : machine.Moment start actions finish) (h : machine.Reachable start) :
    machine.Reachable moment.before :=
  Reachable.exec h moment.reached

theorem reachable_after (moment : machine.Moment start actions finish)
    (h : machine.Reachable start) : machine.Reachable moment.after :=
  .step (moment.reachable h) trivial moment.taken

end Moment

/-- What holds until one of the steps that end it holds in the last state of a run, or the run has
such a step. -/
theorem Reachable.exec_until (pending : σ → Prop) (ends : σ → α → σ → Prop)
    (hstep : ∀ state action next, machine.Reachable state → pending state →
      machine.step state action = some next → pending next ∨ ends state action next)
    {start finish : σ} {actions : List α} (h : machine.Reachable start) (hstart : pending start)
    (hexec : machine.exec start actions = some finish) :
    pending finish ∨ ∃ moment : machine.Moment start actions finish,
      pending moment.before ∧ ends moment.before moment.action moment.after := by
  induction actions generalizing start with
  | nil =>
      simp only [exec_nil, Option.some.injEq] at hexec
      exact .inl (hexec ▸ hstart)
  | cons action rest ih =>
      rw [exec_cons, Option.bind_eq_some_iff] at hexec
      obtain ⟨middle, htaken, hrest⟩ := hexec
      rcases hstep _ _ _ h hstart htaken with hmiddle | hends
      · rcases ih (.step h trivial htaken) hmiddle hrest with hfinish | ⟨moment, hmoment⟩
        · exact .inl hfinish
        · exact .inr ⟨moment.delayed htaken, hmoment⟩
      · exact .inr ⟨.first htaken hrest, hstart, hends⟩

end Machine

end RalphexRunner
