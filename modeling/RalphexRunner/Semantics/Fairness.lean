import Mathlib.Tactic.Choose
import RalphexRunner.Semantics.Transition

/-!
# Endless runs in which nobody is held up for ever

A party of a machine is served fairly in an endless run if, whenever it could act from some time on,
it does act.  `Endless.eventually` is the rule for what such a run must reach: a number that no step
raises, and for each state one party that can act and whose every action lowers the number.  Such
runs exist: `Endless.exists_fair`.

Where every state short of a goal has a step that lowers the number, `exec_to` is a run to it.
-/

namespace RalphexRunner

namespace Machine

variable {σ α : Type*}

/-- Where every state short of the goal has an allowed step that lowers the rank, an allowed run
leads to the goal. -/
theorem exec_to {machine : Machine σ α} {allowed : α → Prop} {goal : σ → Prop}
    (pending : σ → Prop) (rank : σ → ℕ)
    (hnext : ∀ state, pending state → ¬ goal state → ∃ action next, allowed action ∧
      machine.step state action = some next ∧ pending next ∧ rank next < rank state)
    {state : σ} (h : pending state) : ∃ actions next, (∀ action ∈ actions, allowed action) ∧
      machine.exec state actions = some next ∧ pending next ∧ goal next := by
  induction hrank : rank state using Nat.strongRecOn generalizing state with
  | ind bound ih =>
  by_cases hgoal : goal state
  · exact ⟨[], state, fun _ hmem ↦ absurd hmem List.not_mem_nil, rfl, h, hgoal⟩
  · obtain ⟨action, middle, hallowed, hstep, hpending, hlower⟩ := hnext state h hgoal
    obtain ⟨actions, next, hrest, hexec, hafter⟩ := ih (rank middle) (hrank ▸ hlower) hpending rfl
    refine ⟨action :: actions, next, ?_, ?_, hafter⟩
    · intro other hother
      rcases List.mem_cons.mp hother with rfl | hother
      · exact hallowed
      · exact hrest other hother
    · rw [exec_cons, hstep]
      exact hexec

/-- A run that goes on for ever. -/
structure Endless (machine : Machine σ α) where
  state : ℕ → σ
  action : ℕ → α
  steps : ∀ time, machine.step (state time) (action time) = some (state (time + 1))

namespace Endless

variable {machine : Machine σ α} {run : machine.Endless}

/-- Whoever `acts` is not held up for ever. -/
def Fair (run : machine.Endless) (acts : α → Prop) : Prop :=
  ∀ time, (∀ later ≥ time, ∃ action next, acts action ∧
      machine.step (run.state later) action = some next) →
    ∃ later ≥ time, acts (run.action later)

variable {ι : Type*} {acts : ι → α → Prop} {pending goal : σ → Prop} {rank : σ → ℕ}
  {helper : σ → ι}

/-- The step reaches the goal or lowers the rank, or it changes neither the rank nor whom the goal
waits for and is not by that party. -/
def Nears (acts : ι → α → Prop) (pending goal : σ → Prop) (rank : σ → ℕ) (helper : σ → ι)
    (state : σ) (action : α) (next : σ) : Prop :=
  goal next ∨ pending next ∧ (rank next < rank state ∨
    rank next = rank state ∧ helper next = helper state ∧ ¬ acts (helper state) action)

/-- As long as the rank stays, so does whom the goal waits for, and that party does not act. -/
theorem stays (hstep : ∀ state action next, pending state →
      machine.step state action = some next → Nears acts pending goal rank helper state action next)
    {time : ℕ} (hpending : pending (run.state time))
    (hgoal : ∀ later > time, ¬ goal (run.state later))
    (hrank : ∀ later > time, pending (run.state later) →
      ¬ rank (run.state later) < rank (run.state time)) {later : ℕ} (hle : time ≤ later) :
    pending (run.state later) ∧ rank (run.state later) = rank (run.state time) ∧
      helper (run.state later) = helper (run.state time) ∧
      ¬ acts (helper (run.state time)) (run.action later) := by
  have hnext : ∀ now ≥ time, pending (run.state now) →
      rank (run.state now) = rank (run.state time) →
      pending (run.state (now + 1)) ∧ rank (run.state (now + 1)) = rank (run.state now) ∧
        helper (run.state (now + 1)) = helper (run.state now) ∧
        ¬ acts (helper (run.state now)) (run.action now) := by
    intro now hnow hheld hsame
    have hlater : now + 1 > time := Nat.lt_succ_of_le hnow
    rcases hstep _ _ _ hheld (run.steps now) with hdone | ⟨hstill, hlower | hkept⟩
    · exact absurd hdone (hgoal _ hlater)
    · exact absurd (hsame ▸ hlower) (hrank _ hlater hstill)
    · exact ⟨hstill, hkept⟩
  have hheld : pending (run.state later) ∧ rank (run.state later) = rank (run.state time) ∧
      helper (run.state later) = helper (run.state time) := by
    induction hle with
    | refl => exact ⟨hpending, rfl, rfl⟩
    | step hle ih =>
        have hkept := hnext _ hle ih.1 ih.2.1
        exact ⟨hkept.1, hkept.2.1.trans ih.2.1, hkept.2.2.1.trans ih.2.2⟩
  have hidle := (hnext later hle hheld.1 hheld.2.1).2.2.2
  exact ⟨hheld.1, hheld.2.1, hheld.2.2, hheld.2.2 ▸ hidle⟩

/-- The rule, by induction on the rank: if it is never lowered, one party could act for ever and
does not. -/
theorem eventually (hfair : ∀ party, run.Fair (acts party))
    (henabled : ∀ state, pending state →
      ∃ action next, acts (helper state) action ∧ machine.step state action = some next)
    (hstep : ∀ state action next, pending state →
      machine.step state action = some next → Nears acts pending goal rank helper state action next)
    {time : ℕ} (hpending : pending (run.state time)) :
    ∃ later > time, goal (run.state later) := by
  induction hmeasure : rank (run.state time) using Nat.strongRecOn generalizing time with
  | ind measure ih =>
      by_cases hgoal : ∃ later > time, goal (run.state later)
      · exact hgoal
      by_cases hlower : ∃ later > time, pending (run.state later) ∧
          rank (run.state later) < rank (run.state time)
      · obtain ⟨lower, hlater, hheld, hless⟩ := hlower
        obtain ⟨later, hafter, hdone⟩ := ih _ (hmeasure ▸ hless) hheld rfl
        exact ⟨later, Nat.lt_trans hlater hafter, hdone⟩
      have hstays := fun later (hle : time ≤ later) ↦ stays hstep hpending
        (fun later hlater hdone ↦ hgoal ⟨later, hlater, hdone⟩)
        (fun later hlater hheld hless ↦ hlower ⟨later, hlater, hheld, hless⟩) hle
      have hable : ∀ later ≥ time, ∃ action next, acts (helper (run.state time)) action ∧
          machine.step (run.state later) action = some next := by
        intro later hle
        have hheld := hstays later hle
        exact hheld.2.2.1 ▸ henabled _ hheld.1
      obtain ⟨later, hle, hacts⟩ := hfair _ time hable
      exact absurd hacts (hstays later hle).2.2.2

/-- Where something can always happen, a run that holds nobody up starts in every state: the parties
take turns. -/
theorem exists_fair (acts : ι → α → Prop) {turn : ℕ → ι}
    (hturn : ∀ party time, ∃ later ≥ time, turn later = party)
    (hnext : ∀ state, ∃ action next, machine.step state action = some next) (start : σ) :
    ∃ run : machine.Endless, run.state 0 = start ∧ ∀ party, run.Fair (acts party) := by
  have hserve : ∀ time state, ∃ action next, machine.step state action = some next ∧
      ((∃ able next, acts (turn time) able ∧ machine.step state able = some next) →
        acts (turn time) action) := by
    intro time state
    by_cases hable : ∃ able next, acts (turn time) able ∧ machine.step state able = some next
    · obtain ⟨action, next, hacts, hstep⟩ := hable
      exact ⟨action, next, hstep, fun _ ↦ hacts⟩
    · obtain ⟨action, next, hstep⟩ := hnext state
      exact ⟨action, next, hstep, fun h ↦ absurd h hable⟩
  choose action next hstep hacts using hserve
  let state : ℕ → σ := Nat.rec start next
  refine ⟨⟨state, fun time ↦ action time (state time), fun time ↦ hstep time (state time)⟩, rfl, ?_⟩
  intro party time hable
  obtain ⟨later, hle, rfl⟩ := hturn party time
  exact ⟨later, hle, hacts later (state later) (hable later hle)⟩

end Endless

end Machine

end RalphexRunner
