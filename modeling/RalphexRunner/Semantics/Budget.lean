import RalphexRunner.Semantics.Program

/-!
# Programs that keep within a budget

A `Tariff` prices the requests of a program: a price may depend on a state that the requests move
along, and a reserve must be left after each request for whoever breaks the program off there.
`Tariff.paying` is the protocol of a program that pays for what it asks, and `counting` that of a
program that asks a limited number of times.
-/

namespace RalphexRunner

/-- What requests cost, and what must be left after each. -/
structure Tariff (κ σ : Type) where
  price : σ → κ → ℕ
  after : σ → κ → σ
  reserve : σ → ℕ

namespace Program

variable {κ κ' σ α : Type} {Ans : κ → Type} {Ans' : κ' → Type}

/-- Every request is paid out of a budget that the reserve is left of. -/
def paying (tariff : Tariff κ σ) (ends : σ × ℕ → α → Prop) : Protocol κ Ans α (σ × ℕ) where
  permits state request :=
    tariff.price state.1 request + tariff.reserve (tariff.after state.1 request) ≤ state.2
  promises _ _ _ := True
  move state request _ :=
    (tariff.after state.1 request, state.2 - tariff.price state.1 request)
  ends := ends

/-- A number of requests is left. -/
def counting : Protocol κ Ans α ℕ where
  permits left _ := 0 < left
  promises _ _ _ := True
  move left _ _ := left - 1
  ends _ _ := True

theorem counting_call {request : κ} {resume : Ans request → Program κ Ans α} {left : ℕ}
    (h : ∀ answer, Follows counting left (resume answer)) :
    Follows counting (left + 1) (.call request resume) :=
  ⟨Nat.succ_pos left, fun answer _ ↦ h answer⟩

theorem counting_mono {program : Program κ Ans α} {left more : ℕ} (hle : left ≤ more)
    (h : Follows counting left program) : Follows counting more program := by
  induction program generalizing left more with
  | done result => trivial
  | call request resume ih =>
      exact ⟨Nat.lt_of_lt_of_le h.1 hle, fun answer _ ↦
        ih answer (Nat.sub_le_sub_right hle 1) (h.answered answer trivial)⟩

/-- A program asks at most as often as it is counted to. -/
theorem length_le_of_counting {program rest : Program κ Ans α} {left : ℕ}
    {history : List (Exchange κ Ans)} (h : Follows counting left program)
    (hreaches : Reaches program history rest) : history.length ≤ left := by
  suffices hboth : history.length ≤ left ∧ Follows counting (left - history.length) rest from
    hboth.1
  induction hreaches with
  | start => exact ⟨Nat.zero_le left, h⟩
  | answered answer _ ih =>
      obtain ⟨-, hrest⟩ := ih
      have hleft : 0 < left - _ := hrest.1
      rw [List.length_append, List.length_singleton, ← Nat.sub_sub]
      exact ⟨by omega, hrest.answered answer trivial⟩

section Paying

variable {tariff : Tariff κ σ} {ends : σ × ℕ → α → Prop} {state : σ} {budget : ℕ}

/-- What is paid for a request is gone from the budget. -/
theorem paying_call {request : κ} {resume : Ans request → Program κ Ans α}
    (hpaid : tariff.price state request + tariff.reserve (tariff.after state request) ≤ budget)
    (hrest : ∀ answer, Follows (paying tariff ends)
      (tariff.after state request, budget - tariff.price state request) (resume answer)) :
    Follows (paying tariff ends) (state, budget) (.call request resume) :=
  ⟨hpaid, fun answer _ ↦ hrest answer⟩

/-- The second part of a composition is paid for with what the first leaves. -/
theorem paying_bind {β : Type} {program : Program κ Ans β} {next : β → Program κ Ans α}
    (h : Follows (paying tariff fun state result ↦ Follows (paying tariff ends) state (next result))
      (state, budget) program) : Follows (paying tariff ends) (state, budget) (program >>= next) :=
  Follows.bind h

end Paying

/-- A limited number of requests of one price, none of which moves the state, is paid for by as
many prices and goes on with what is left. -/
theorem paying_translate {tariff : Tariff κ' σ} {ends : σ × ℕ → α → Prop} {state : σ}
    {price left rest budget : ℕ} {request' : κ → κ'}
    {answer : ∀ request, Ans' (request' request) → Ans request} {program : Program κ Ans α}
    (hprice : ∀ request, tariff.price state (request' request) = price)
    (hafter : ∀ request, tariff.after state (request' request) = state)
    (hreserve : tariff.reserve state ≤ rest) (hbudget : left * price + rest ≤ budget)
    (hends : ∀ budget result, rest ≤ budget → ends (state, budget) result)
    (h : Follows counting left program) :
    Follows (paying tariff ends) (state, budget) (program.translate request' answer) := by
  have hless {left budget : ℕ} (hleft : 0 < left) (hbudget : left * price + rest ≤ budget) :
      price + ((left - 1) * price + rest) ≤ budget := by
    calc
      _ = (left - 1 + 1) * price + rest := by
        rw [Nat.add_mul, Nat.one_mul]
        omega
      _ ≤ budget := by rwa [Nat.sub_add_cancel hleft]
  refine Follows.translate
    (fun left paid ↦ ∃ budget, paid = (state, budget) ∧ left * price + rest ≤ budget) ?_ ?_ ?_ ?_ h
  · intro left _ request ⟨budget, hpaid, hbudget⟩ hleft
    subst hpaid
    change tariff.price state (request' request) +
      tariff.reserve (tariff.after state (request' request)) ≤ budget
    have hrest := hless hleft hbudget
    rw [hprice, hafter]
    omega
  · intro left _ request given ⟨budget, hpaid, hbudget⟩ hleft _
    subst hpaid
    have hrest := hless hleft hbudget
    refine ⟨trivial, budget - price, ?_, Nat.le_sub_of_add_le' hrest⟩
    exact Prod.ext (hafter request) (congrArg (budget - ·) (hprice request))
  · intro left _ result ⟨budget, hpaid, hbudget⟩ _
    subst hpaid
    exact hends budget result (Nat.le_of_add_left_le hbudget)
  · exact ⟨budget, rfl, hbudget⟩

end Program

end RalphexRunner
