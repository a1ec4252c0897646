import RalphexRunner.Protocol.Types

/-!
# The retry loop of the farm client

`retrying` repeats a call until it succeeds, fails for good, or its policy gives up, and sleeps a
doubling, capped delay between two attempts.  What the attempts come to and how long each takes is
a sequence the loop reads one by one; time passes by the attempts and the sleeps alone.

The budget is checked after an attempt and before the sleep, so the loop overruns it by one sleep
and one attempt at most.  Instants are nanoseconds of the sleeper's clock; the counter of attempts,
which a budget never reads, is a plain number.
-/

namespace RalphexRunner

variable {τ : Type*}

/-- What bounds a retried call. -/
inductive RetryPolicy where
  | attempts (limit : ℕ)
  | budget (budget : Duration)

def FarmError.isRetryable : FarmError → Bool
  | .transport _ => true
  | .rejected status _ => 500 ≤ status
  | .gone => false
  | .versionMismatch _ => false
  | .badRequest _ => false
  | .decode _ => false

/-- The delay that follows `delay`, doubling up to the ceiling. -/
def nextDelay (delay : Duration) : Duration :=
  if h : retryMaxDelay.nanos < delay.nanos * 2 then retryMaxDelay
  else ⟨delay.nanos * 2, Nat.lt_of_le_of_lt (Nat.not_lt.mp h) retryMaxDelay.representable⟩

/-- What one attempt comes to, and the nanoseconds it takes. -/
structure Attempt (τ : Type*) where
  result : Except FarmError τ
  took : ℕ

/-- A success, or an error no retry can mend. -/
def Attempt.final (attempt : Attempt τ) : Bool :=
  match attempt.result with
  | .ok _ => true
  | .error error => !error.isRetryable

namespace Retry

/-- The loop between two attempts. -/
structure State where
  attempts : ℕ
  delay : Duration
  now : ℕ
  slept : List Duration

/-- What the loop returned, after how many attempts and which sleeps, and when. -/
structure Outcome (τ : Type*) where
  result : Except FarmError τ
  attempts : ℕ
  now : ℕ
  slept : List Duration

/-- Whether a policy allows no further attempt. -/
def exhausted (policy : RetryPolicy) (attempts elapsed : ℕ) : Bool :=
  match policy with
  | .attempts limit => limit ≤ attempts
  | .budget budget => budget.nanos ≤ elapsed

/-- One turn of the loop: the outcome, or the loop before its next attempt. -/
def turn (policy : RetryPolicy) (started : ℕ) (attempt : Attempt τ) (state : State) :
    Outcome τ ⊕ State :=
  let now := state.now + attempt.took
  let attempts := state.attempts + 1
  let returned := .inl ⟨attempt.result, attempts, now, state.slept⟩
  match attempt.result with
  | .ok _ => returned
  | .error error =>
      if !error.isRetryable then returned
      else if exhausted policy attempts (now - started) then returned
      else .inr
        { attempts := attempts
          delay := nextDelay state.delay
          now := now + state.delay.nanos
          slept := state.slept ++ [state.delay] }

/-- The loop from a state on, for at most `fuel` attempts. -/
def retryingFrom (policy : RetryPolicy) (operation : ℕ → Attempt τ) (started : ℕ) :
    ℕ → State → Option (Outcome τ)
  | 0, _ => none
  | fuel + 1, state =>
      match turn policy started (operation state.attempts) state with
      | .inl outcome => some outcome
      | .inr next => retryingFrom policy operation started fuel next

/-- The loop before its first attempt. -/
def start (started : ℕ) : State := ⟨0, retryBaseDelay, started, []⟩

end Retry

open Retry in
/-- `FarmClient::retrying`: the attempts in order from the instant `started` on. -/
def retrying (policy : RetryPolicy) (operation : ℕ → Attempt τ) (started fuel : ℕ) :
    Option (Outcome τ) :=
  retryingFrom policy operation started fuel (start started)

namespace Retry

/-- The delay between two attempts, by how many came before it. -/
def backoff : ℕ → Duration
  | 0 => retryBaseDelay
  | count + 1 => nextDelay (backoff count)

/-- The attempt that ends any loop: the first that is final. -/
def FirstFinal (operation : ℕ → Attempt τ) (index : ℕ) : Prop :=
  (operation index).final = true ∧ ∀ earlier < index, (operation earlier).final = false

/-- The loop returns `outcome`, however many attempts it is given beyond those it needs. -/
def Returns (policy : RetryPolicy) (operation : ℕ → Attempt τ) (started : ℕ)
    (outcome : Outcome τ) : Prop :=
  ∃ needed, ∀ fuel, needed ≤ fuel → retrying policy operation started fuel = some outcome

theorem nanos_nextDelay (delay : Duration) :
    (nextDelay delay).nanos = min (delay.nanos * 2) retryMaxDelay.nanos := by
  unfold nextDelay
  split
  · rename_i hover
    exact (Nat.min_eq_right (Nat.le_of_lt hover)).symm
  · rename_i hbelow
    exact (Nat.min_eq_left (Nat.not_lt.mp hbelow)).symm

theorem nanos_backoff (count : ℕ) :
    (backoff count).nanos = min (2 ^ count * nanosPerSec) retryMaxDelay.nanos := by
  induction count with
  | zero => rfl
  | succ count ih =>
      rw [backoff, nanos_nextDelay, ih, Nat.pow_succ, Nat.mul_right_comm]
      omega

theorem backoff_bounds (count : ℕ) :
    nanosPerSec ≤ (backoff count).nanos ∧ (backoff count).nanos ≤ retryMaxDelay.nanos := by
  have hone : nanosPerSec ≤ 2 ^ count * nanosPerSec :=
    Nat.le_mul_of_pos_left _ (Nat.two_pow_pos count)
  have hceiling : nanosPerSec ≤ retryMaxDelay.nanos := by decide
  rw [nanos_backoff]
  exact ⟨Nat.le_min.mpr ⟨hone, hceiling⟩, Nat.min_le_right _ _⟩

section Turn

variable {policy : RetryPolicy} {operation : ℕ → Attempt τ} {started : ℕ} {state : State}

/-- What one turn does: it returns with what a final or last attempt came to, or sleeps. -/
inductive Turned (policy : RetryPolicy) (started : ℕ) (attempt : Attempt τ) (state : State) :
    Outcome τ ⊕ State → Prop
  | returned : (attempt.final = true ∨
        exhausted policy (state.attempts + 1) (state.now + attempt.took - started) = true) →
      Turned policy started attempt state
        (.inl ⟨attempt.result, state.attempts + 1, state.now + attempt.took, state.slept⟩)
  | slept : attempt.final = false →
      exhausted policy (state.attempts + 1) (state.now + attempt.took - started) = false →
      Turned policy started attempt state (.inr
        { attempts := state.attempts + 1
          delay := nextDelay state.delay
          now := state.now + attempt.took + state.delay.nanos
          slept := state.slept ++ [state.delay] })

/-- A turn returns or sleeps as it should. -/
theorem turn_turned (policy : RetryPolicy) (started : ℕ) (attempt : Attempt τ) (state : State) :
    Turned policy started attempt state (turn policy started attempt state) := by
  unfold turn
  dsimp only
  split
  · rename_i value hresult
    exact .returned (.inl (by rw [Attempt.final, hresult]))
  · rename_i error hresult
    have hfinal : attempt.final = !error.isRetryable := by rw [Attempt.final, hresult]
    rw [← hfinal]
    split
    · exact .returned (.inl ‹_›)
    · split
      · exact .returned (.inr ‹_›)
      · exact .slept (Bool.eq_false_iff.mpr ‹_›) (Bool.eq_false_iff.mpr ‹_›)

/-- The loop before an attempt: none so far was final, the delays doubled, and the policy left
room for this one. -/
structure Going (policy : RetryPolicy) (operation : ℕ → Attempt τ) (started : ℕ)
    (state : State) : Prop where
  earlier : ∀ index < state.attempts, (operation index).final = false
  delay : state.delay = backoff state.attempts
  slept : state.slept = (List.range state.attempts).map backoff
  clock : started ≤ state.now
  within : ∀ budget, policy = .budget budget →
    state.now < started + budget.nanos + retryMaxDelay.nanos
  below : ∀ limit, policy = .attempts limit → 0 < limit → state.attempts < limit

theorem start_going (policy : RetryPolicy) (operation : ℕ → Attempt τ) (started : ℕ) :
    Going policy operation started (start started) := by
  have hceiling : 0 < retryMaxDelay.nanos := by decide
  refine ⟨fun index hindex ↦ absurd hindex (Nat.not_lt_zero _), rfl, rfl, Nat.le_refl _,
    fun budget _ ↦ ?_, fun limit _ hlimit ↦ hlimit⟩
  simp only [start]
  omega

/-- A turn that sleeps keeps the loop going. -/
theorem Going.turn {next : State} (h : Going policy operation started state)
    (hturn : Turned policy started (operation state.attempts) state (.inr next)) :
    Going policy operation started next ∧ state.now + nanosPerSec ≤ next.now := by
  cases hturn with
  | slept hfinal hexhausted =>
      have hbounds := backoff_bounds state.attempts
      have hclock := h.clock
      refine ⟨⟨fun index hindex ↦ ?_, ?_, ?_, ?_, fun budget hbudget ↦ ?_,
        fun limit hlimit _ ↦ ?_⟩, ?_⟩
      · rcases Nat.lt_succ_iff_lt_or_eq.mp hindex with hearlier | rfl
        · exact h.earlier index hearlier
        · exact hfinal
      · rw [h.delay]
        rfl
      · rw [h.slept, h.delay, List.range_succ, List.map_append]
        rfl
      · dsimp only
        omega
      · subst hbudget
        have hleft : ¬ budget.nanos ≤ state.now + (operation state.attempts).took - started := by
          simpa [exhausted] using hexhausted
        dsimp only
        rw [h.delay]
        omega
      · subst hlimit
        simpa [exhausted] using hexhausted
      · dsimp only
        rw [h.delay]
        omega

/-! ## The whole loop -/

/-- What is true of a loop that returned. -/
structure Returned (policy : RetryPolicy) (operation : ℕ → Attempt τ) (started : ℕ)
    (outcome : Outcome τ) : Prop where
  counted : 0 < outcome.attempts
  earlier : ∀ index, index + 1 < outcome.attempts → (operation index).final = false
  result : outcome.result = (operation (outcome.attempts - 1)).result
  ended : (operation (outcome.attempts - 1)).final = true ∨
    exhausted policy outcome.attempts (outcome.now - started) = true
  slept : outcome.slept = (List.range (outcome.attempts - 1)).map backoff
  within : ∀ budget, policy = .budget budget →
    outcome.now - started < budget.nanos + retryMaxDelay.nanos + requestTimeout.nanos
  below : ∀ limit, policy = .attempts limit → 0 < limit → outcome.attempts ≤ limit

theorem Going.returned {outcome : Outcome τ} (h : Going policy operation started state)
    (htook : ∀ index, (operation index).took ≤ requestTimeout.nanos)
    (hturn : Turned policy started (operation state.attempts) state (.inl outcome)) :
    Returned policy operation started outcome := by
  cases hturn with
  | returned hended =>
      refine ⟨Nat.succ_pos _, fun index hindex ↦ h.earlier index (Nat.lt_of_succ_lt_succ hindex),
        rfl, hended, h.slept, fun budget hbudget ↦ ?_, fun limit hlimit hpos ↦ ?_⟩
      · have hwithin := h.within budget hbudget
        have hlast := htook state.attempts
        have hclock := h.clock
        dsimp only
        omega
      · exact h.below limit hlimit hpos

/-- What the loop returns it returns at the right attempt. -/
theorem retryingFrom_returned {outcome : Outcome τ} {fuel : ℕ}
    (h : Going policy operation started state)
    (htook : ∀ index, (operation index).took ≤ requestTimeout.nanos)
    (hreturns : retryingFrom policy operation started fuel state = some outcome) :
    Returned policy operation started outcome := by
  induction fuel generalizing state with
  | zero => cases hreturns
  | succ fuel ih =>
      have hturned := turn_turned policy started (operation state.attempts) state
      rw [retryingFrom] at hreturns
      cases hturn : turn policy started (operation state.attempts) state with
      | inl returned =>
          rw [hturn] at hreturns hturned
          cases hreturns
          exact h.returned htook hturned
      | inr next =>
          rw [hturn] at hreturns hturned
          exact ih (h.turn hturned).1 hreturns

/-- More attempts than the loop needs change nothing. -/
theorem retryingFrom_mono {outcome : Outcome τ} {fuel more : ℕ}
    (h : retryingFrom policy operation started fuel state = some outcome) (hmore : fuel ≤ more) :
    retryingFrom policy operation started more state = some outcome := by
  induction fuel generalizing state more with
  | zero => cases h
  | succ fuel ih =>
      cases more with
      | zero => exact absurd hmore (Nat.not_succ_le_zero _)
      | succ more =>
          rw [retryingFrom] at h ⊢
          cases hturn : turn policy started (operation state.attempts) state with
          | inl returned => rwa [hturn] at h
          | inr next =>
              rw [hturn] at h
              exact ih h (Nat.le_of_succ_le_succ hmore)

/-- A loop that is given one attempt more returns if it returns from wherever that leaves it. -/
theorem returns_of_turn {fuel : ℕ} (h : ∀ next,
    Turned policy started (operation state.attempts) state (.inr next) →
      ∃ outcome, retryingFrom policy operation started fuel next = some outcome) :
    ∃ outcome, retryingFrom policy operation started (fuel + 1) state = some outcome := by
  have hturned := turn_turned policy started (operation state.attempts) state
  rw [retryingFrom]
  cases hturn : turn policy started (operation state.attempts) state with
  | inl outcome => exact ⟨outcome, rfl⟩
  | inr next => exact h next (hturn ▸ hturned)

/-- A loop returns that is given one attempt more than its sleeps fit the budget. -/
theorem budget_returns {budget : Duration} {fuel : ℕ}
    (h : Going (.budget budget) operation started state)
    (hfuel : started + budget.nanos ≤ state.now + fuel * nanosPerSec) :
    ∃ outcome, retryingFrom (.budget budget) operation started (fuel + 1) state = some outcome := by
  induction fuel generalizing state with
  | zero =>
      refine returns_of_turn fun next hturned ↦ ?_
      cases hturned with
      | slept _ hexhausted =>
          have hleft : ¬ budget.nanos ≤
              state.now + (operation state.attempts).took - started := by
            simpa [exhausted] using hexhausted
          omega
  | succ fuel ih =>
      refine returns_of_turn fun next hturned ↦ ?_
      obtain ⟨hgoing, hlater⟩ := h.turn hturned
      refine ih hgoing ?_
      rw [Nat.succ_mul] at hfuel
      omega

/-- So does one that is given as many attempts as its policy. -/
theorem attempts_returns {limit fuel : ℕ}
    (hfuel : limit ≤ state.attempts + fuel + 1) :
    ∃ outcome, retryingFrom (.attempts limit) operation started (fuel + 1) state =
      some outcome := by
  induction fuel generalizing state with
  | zero =>
      refine returns_of_turn fun next hturned ↦ ?_
      cases hturned with
      | slept _ hexhausted =>
          have hleft : state.attempts + 1 < limit := by simpa [exhausted] using hexhausted
          omega
  | succ fuel ih =>
      refine returns_of_turn fun next hturned ↦ ?_
      cases hturned with
      | slept => exact ih (by dsimp only; omega)

theorem returned_of_retrying {outcome : Outcome τ} {fuel : ℕ}
    (htook : ∀ index, (operation index).took ≤ requestTimeout.nanos)
    (h : retrying policy operation started fuel = some outcome) :
    Returned policy operation started outcome :=
  retryingFrom_returned (start_going policy operation started) htook h

theorem returns_of_retrying {outcome : Outcome τ} {fuel : ℕ}
    (h : retrying policy operation started fuel = some outcome) :
    Returns policy operation started outcome :=
  ⟨fuel, fun _ hmore ↦ retryingFrom_mono h hmore⟩

/-- No loop makes an attempt after the first final one. -/
theorem Returned.le_first {outcome : Outcome τ} (h : Returned policy operation started outcome)
    {index : ℕ} (hfirst : FirstFinal operation index) : outcome.attempts ≤ index + 1 := by
  by_contra hbeyond
  have hearlier := h.earlier index (Nat.lt_of_not_le hbeyond)
  rw [hfirst.1] at hearlier
  cases hearlier

/-- A loop returns at the first final attempt, or gives up after a last one that is not. -/
theorem Returned.first_or {outcome : Outcome τ} (h : Returned policy operation started outcome) :
    FirstFinal operation (outcome.attempts - 1) ∨
      ((operation (outcome.attempts - 1)).final = false ∧
        exhausted policy outcome.attempts (outcome.now - started) = true) := by
  have hcounted := h.counted
  cases hfinal : (operation (outcome.attempts - 1)).final with
  | true => exact .inl ⟨hfinal, fun index hindex ↦ h.earlier index (by omega)⟩
  | false =>
      rcases h.ended with hended | hended
      · rw [hfinal] at hended
        cases hended
      · exact .inr ⟨rfl, hended⟩

theorem Returned.slept_nanos {outcome : Outcome τ} (h : Returned policy operation started outcome) :
    outcome.slept.map Duration.nanos = (List.range (outcome.attempts - 1)).map fun count ↦
      min (2 ^ count * nanosPerSec) retryMaxDelay.nanos := by
  rw [h.slept, List.map_map]
  exact List.map_congr_left fun count _ ↦ nanos_backoff count

/-- A call whose attempts are counted makes the fewest it can. -/
theorem Returned.attempts_eq {limit : ℕ} (hlimit : 0 < limit) {outcome : Outcome τ}
    (h : Returned (.attempts limit) operation started outcome) :
    (∀ index, FirstFinal operation index → outcome.attempts = min limit (index + 1)) ∧
      ((∀ index, (operation index).final = false) → outcome.attempts = limit) := by
  have hcounted := h.counted
  have hbelow := h.below limit rfl hlimit
  have hexhausted (hgone : exhausted (.attempts limit) outcome.attempts (outcome.now - started)
      = true) : outcome.attempts = limit :=
    Nat.le_antisymm hbelow (by simpa [exhausted] using hgone)
  refine ⟨fun index hfirst ↦ ?_, fun hnone ↦ ?_⟩
  · have hle := h.le_first hfirst
    rcases h.first_or with hlast | ⟨-, hgone⟩
    · have hge : index ≤ outcome.attempts - 1 := by
        by_contra hbefore
        have hearlier := hfirst.2 _ (Nat.lt_of_not_le hbefore)
        rw [hlast.1] at hearlier
        cases hearlier
      omega
    · have hsame := hexhausted hgone
      omega
  · rcases h.first_or with hlast | ⟨-, hgone⟩
    · rw [FirstFinal, hnone] at hlast
      cases hlast.1
    · exact hexhausted hgone

end Turn

/-- What `retrying` does with some attempts, from some instant on. -/
structure Law (operation : ℕ → Attempt τ) (started : ℕ) : Prop where
  /-- It returns what its last attempt came to, which is the first final one or, where none of its
  attempts is final, the one at which its policy gave up; and it never goes past a final one. -/
  result : ∀ policy fuel outcome, retrying policy operation started fuel = some outcome →
    0 < outcome.attempts ∧ outcome.result = (operation (outcome.attempts - 1)).result ∧
      (FirstFinal operation (outcome.attempts - 1) ∨
        ((operation (outcome.attempts - 1)).final = false ∧
          exhausted policy outcome.attempts (outcome.now - started) = true)) ∧
      ∀ index, FirstFinal operation index → outcome.attempts ≤ index + 1
  /-- The sleep after the attempt `count` is two to the `count` seconds, up to the ceiling. -/
  delays : ∀ policy fuel outcome, retrying policy operation started fuel = some outcome →
    outcome.slept.map Duration.nanos = (List.range (outcome.attempts - 1)).map fun count ↦
      min (2 ^ count * nanosPerSec) retryMaxDelay.nanos
  /-- Under a budget it returns, never gives up early, and overruns the budget by less than one
  sleep and one attempt. -/
  budget : ∀ budget, ∃ outcome, Returns (.budget budget) operation started outcome ∧
    outcome.now - started < budget.nanos + retryMaxDelay.nanos + requestTimeout.nanos ∧
      ((operation (outcome.attempts - 1)).final = false → budget.nanos ≤ outcome.now - started)
  /-- Under a number of attempts it returns after that many, or at the first final one. -/
  attempts : ∀ limit, 0 < limit →
    ∃ outcome, Returns (.attempts limit) operation started outcome ∧
      (∀ index, FirstFinal operation index → outcome.attempts = min limit (index + 1)) ∧
        ((∀ index, (operation index).final = false) → outcome.attempts = limit)

/-- **The retry loop.** -/
theorem retrying_law (operation : ℕ → Attempt τ) (started : ℕ)
    (htook : ∀ index, (operation index).took ≤ requestTimeout.nanos) : Law operation started where
  result policy fuel outcome h := by
    have hreturned := returned_of_retrying htook h
    exact ⟨hreturned.counted, hreturned.result, hreturned.first_or,
      fun index hfirst ↦ hreturned.le_first hfirst⟩
  delays policy fuel outcome h := (returned_of_retrying htook h).slept_nanos
  budget budget := by
    obtain ⟨outcome, h⟩ := budget_returns (start_going (.budget budget) operation started)
      (show started + budget.nanos ≤ started + budget.nanos * nanosPerSec from
        Nat.add_le_add_left (Nat.le_mul_of_pos_right _ Duration.nanosPerSec_pos) started)
    have hreturned := returned_of_retrying htook h
    refine ⟨outcome, returns_of_retrying h, hreturned.within budget rfl, fun hgave ↦ ?_⟩
    rcases hreturned.ended with hended | hended
    · rw [hgave] at hended
      cases hended
    · simpa [exhausted] using hended
  attempts limit hlimit := by
    obtain ⟨outcome, h⟩ :
        ∃ outcome, retrying (.attempts limit) operation started (limit + 1) = some outcome :=
      attempts_returns (by omega)
    exact ⟨outcome, returns_of_retrying h, (returned_of_retrying htook h).attempts_eq hlimit⟩

theorem retrying_law_gone :
    Law (fun index ↦ if index = 0 then ⟨.error (.transport []), 5⟩ else ⟨.ok (), 7⟩) 3 :=
  retrying_law _ 3 fun index ↦ by
    split <;> decide

end Retry

end RalphexRunner
