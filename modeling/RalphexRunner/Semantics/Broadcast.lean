import Mathlib.Data.List.Basic
import Mathlib.Tactic.Common

/-!
# A lossy broadcast channel

A channel keeps the last `capacity` values sent.  A receiver reads them in order from where it
subscribed; one that fell behind is told how many values it missed and continues with the oldest
value kept.  `Covers` relates what a receiver was told to the values sent: every value is delivered
or counted, in order, and none twice.
-/

namespace RalphexRunner.Broadcast

variable {α : Type*}

/-- What one receive returns. -/
inductive Received (α : Type*) where
  | item (value : α)
  | lagged (missed : ℕ)
  | empty
  deriving DecidableEq

/-- One receive at the position `next` of everything sent so far, and the position after it. -/
def recv (capacity : ℕ) (sent : List α) (next : ℕ) : Received α × ℕ :=
  if next + capacity < sent.length then
    (.lagged (sent.length - capacity - next), sent.length - capacity)
  else
    match sent[next]? with
    | some value => (.item value, next + 1)
    | none => (.empty, next)

/-- What a receiver is told: a value, or the number of values it missed. -/
inductive Delivery (α : Type*) where
  | item (value : α)
  | skipped (missed : ℕ)
  deriving DecidableEq

/-- The deliveries of one receive. -/
def Received.deliveries : Received α → List (Delivery α)
  | .item value => [.item value]
  | .lagged missed => [.skipped missed]
  | .empty => []

/-- The deliveries account for the values, in order: each is delivered, or lies in a block that is
counted. -/
inductive Covers : List (Delivery α) → List α → Prop
  | nil : Covers [] []
  | item {deliveries : List (Delivery α)} {values : List α} (value : α) :
      Covers deliveries values → Covers (.item value :: deliveries) (value :: values)
  | skipped {deliveries : List (Delivery α)} {values : List α} (block : List α) :
      block ≠ [] → Covers deliveries values →
        Covers (.skipped block.length :: deliveries) (block ++ values)

theorem Covers.append {first second : List (Delivery α)} {values others : List α}
    (hfirst : Covers first values) (hsecond : Covers second others) :
    Covers (first ++ second) (values ++ others) := by
  induction hfirst with
  | nil => exact hsecond
  | item value _ ih => exact .item value ih
  | skipped block hblock _ ih =>
      rw [List.append_assoc]
      exact .skipped block hblock ih

theorem Covers.mem {deliveries : List (Delivery α)} {values : List α} (h : Covers deliveries values)
    {value : α} (hvalue : .item value ∈ deliveries) : value ∈ values := by
  induction h with
  | nil => cases hvalue
  | item first _ ih =>
      rcases List.mem_cons.mp hvalue with hfirst | hrest
      · cases hfirst
        exact List.mem_cons_self
      · exact List.mem_cons_of_mem _ (ih hrest)
  | skipped block _ _ ih =>
      rcases List.mem_cons.mp hvalue with hfirst | hrest
      · cases hfirst
      · exact List.mem_append_right _ (ih hrest)

/-- A count never exceeds the number of values. -/
theorem Covers.missed_le {deliveries : List (Delivery α)} {values : List α}
    (h : Covers deliveries values) {missed : ℕ} (hmissed : .skipped missed ∈ deliveries) :
    missed ≤ values.length := by
  induction h with
  | nil => cases hmissed
  | item value _ ih =>
      rcases List.mem_cons.mp hmissed with hfirst | hrest
      · cases hfirst
      · exact Nat.le_succ_of_le (ih hrest)
  | skipped block _ _ ih =>
      rw [List.length_append]
      rcases List.mem_cons.mp hmissed with hfirst | hrest
      · cases hfirst
        exact Nat.le_add_right _ _
      · exact Nat.le_add_left_of_le (ih hrest)

/-- The values sent from one position to another. -/
def between (sent : List α) (start next : ℕ) : List α := (sent.take next).drop start

@[simp] theorem between_self (sent : List α) (start : ℕ) : between sent start start = [] := by
  rw [between, List.drop_eq_nil_iff, List.length_take]
  exact Nat.min_le_left _ _

theorem length_between {sent : List α} {start next : ℕ} (hsent : next ≤ sent.length) :
    (between sent start next).length = next - start := by
  rw [between, List.length_drop, List.length_take, Nat.min_eq_left hsent]

theorem mem_of_mem_between {sent : List α} {start next : ℕ} {value : α}
    (h : value ∈ between sent start next) : value ∈ sent :=
  List.mem_of_mem_take (List.mem_of_mem_drop h)

theorem between_append {sent : List α} {start middle next : ℕ} (hstart : start ≤ middle)
    (hnext : middle ≤ next) (hsent : next ≤ sent.length) :
    between sent start next = between sent start middle ++ between sent middle next := by
  have hsplit : sent.take next = sent.take middle ++ between sent middle next := by
    rw [between, ← List.take_append_drop middle (sent.take next), List.take_take,
      Nat.min_eq_left hnext, List.drop_left' (by rw [List.length_take]; omega)]
  have hlength : (sent.take middle).length = middle := by
    rw [List.length_take]
    omega
  rw [between, hsplit, List.drop_append_of_le_length (by omega)]
  rfl

/-- What is sent later does not change what was sent between two earlier positions. -/
theorem between_sent_append {sent : List α} (more : List α) {start next : ℕ}
    (hsent : next ≤ sent.length) : between (sent ++ more) start next = between sent start next := by
  rw [between, List.take_append_of_le_length hsent, between]

/-- One receive accounts for exactly the values it moves past. -/
theorem recv_covers (capacity : ℕ) {sent : List α} {next : ℕ} (hnext : next ≤ sent.length) :
    next ≤ (recv capacity sent next).2 ∧ (recv capacity sent next).2 ≤ sent.length ∧
      Covers (recv capacity sent next).1.deliveries
        (between sent next (recv capacity sent next).2) := by
  unfold recv
  split
  · rename_i hlag
    refine ⟨by omega, by omega, ?_⟩
    have hlength : (between sent next (sent.length - capacity)).length =
        sent.length - capacity - next := length_between (Nat.sub_le _ _)
    have hblock : between sent next (sent.length - capacity) ≠ [] := by
      rw [← List.length_pos_iff, hlength]
      omega
    simpa only [hlength, List.append_nil, Received.deliveries] using
      Covers.skipped (between sent next (sent.length - capacity)) hblock .nil
  · split
    · rename_i value hvalue
      obtain ⟨hlt, hget⟩ := List.getElem?_eq_some_iff.mp hvalue
      refine ⟨by omega, hlt, ?_⟩
      have hone : between sent next (next + 1) = [value] := by
        rw [between, List.take_add_one, hvalue, List.drop_left' (by rw [List.length_take]; omega)]
        rfl
      rw [hone]
      exact .item value .nil
    · refine ⟨Nat.le_refl _, hnext, ?_⟩
      rw [between_self]
      exact .nil

/-- A receiver that fell behind the ring is told so. -/
theorem recv_lagged {capacity : ℕ} {sent : List α} {next : ℕ}
    (h : next + capacity < sent.length) : recv capacity sent next =
      (.lagged (sent.length - capacity - next), sent.length - capacity) :=
  if_pos h

/-- A receive that finds something moves on. -/
theorem lt_of_recv {capacity : ℕ} {sent : List α} {next : ℕ}
    (h : (recv capacity sent next).1 ≠ .empty) : next < (recv capacity sent next).2 := by
  unfold recv at h ⊢
  split
  · omega
  · rename_i hkept
    rw [if_neg hkept] at h
    split at h
    · exact Nat.lt_succ_self next
    · exact absurd rfl h

/-- A receive that finds nothing has caught up. -/
theorem next_eq_of_empty {capacity : ℕ} {sent : List α} {next : ℕ} (hnext : next ≤ sent.length)
    (h : (recv capacity sent next).1 = .empty) : next = sent.length := by
  unfold recv at h
  split at h
  · cases h
  · split at h
    · cases h
    · rename_i hnone
      exact Nat.le_antisymm hnext (List.getElem?_eq_none_iff.mp hnone)

end RalphexRunner.Broadcast
