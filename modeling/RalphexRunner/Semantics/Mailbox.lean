import Mathlib.Data.List.Basic

/-!
# A bounded channel

A send waits while the channel is full, and the value of a send nobody is left to receive is lost.
A channel that is never sent more than it holds makes nobody wait, whoever stops receiving and
whenever that is.
-/

namespace RalphexRunner

/-- A channel with room for `capacity` values, and whether its receiver is gone. -/
structure Mailbox (τ : Type*) where
  capacity : ℕ
  queue : List τ
  dropped : Bool

namespace Mailbox

variable {τ : Type*}

def new (capacity : ℕ) : Mailbox τ := ⟨capacity, [], false⟩

/-- The channel behind a send; `none` while the send waits. -/
def send (mailbox : Mailbox τ) (value : τ) : Option (Mailbox τ) :=
  if mailbox.dropped then some mailbox
  else if mailbox.queue.length < mailbox.capacity then
    some { mailbox with queue := mailbox.queue ++ [value] }
  else none

/-- The first value and the channel behind it; `none` while there is none. -/
def recv (mailbox : Mailbox τ) : Option (τ × Mailbox τ) :=
  match mailbox.queue with
  | [] => none
  | value :: queue => some (value, { mailbox with queue })

/-- The receiver is dropped, and with it what it did not receive. -/
def drop (mailbox : Mailbox τ) : Mailbox τ := { mailbox with queue := [], dropped := true }

/-- A channel of the given size that was sent no more than `sent` values. -/
structure Within (mailbox : Mailbox τ) (capacity sent : ℕ) : Prop where
  size : mailbox.capacity = capacity
  queued : mailbox.queue.length ≤ sent

variable {mailbox next : Mailbox τ} {capacity sent : ℕ} {value : τ}

theorem within_new : (new capacity : Mailbox τ).Within capacity 0 := ⟨rfl, Nat.le_refl 0⟩

/-- A channel that has been sent less than it holds takes one more value at once. -/
theorem Within.isSome_send (h : mailbox.Within capacity sent) (hroom : sent < capacity)
    (value : τ) : (mailbox.send value).isSome = true := by
  have hqueue : mailbox.queue.length < mailbox.capacity := by
    rw [h.size]
    exact Nat.lt_of_le_of_lt h.queued hroom
  unfold send
  rw [if_pos hqueue]
  split
  · rfl
  · rfl

theorem Within.send (h : mailbox.Within capacity sent) (hsend : mailbox.send value = some next) :
    next.Within capacity (sent + 1) := by
  unfold Mailbox.send at hsend
  split at hsend
  · rw [← Option.some.inj hsend]
    exact ⟨h.size, Nat.le_succ_of_le h.queued⟩
  · split at hsend
    · rw [← Option.some.inj hsend]
      refine ⟨h.size, ?_⟩
      rw [List.length_append]
      exact Nat.succ_le_succ h.queued
    · exact absurd hsend (Option.some_ne_none next).symm

theorem Within.recv (h : mailbox.Within capacity sent)
    (hrecv : mailbox.recv = some (value, next)) : next.Within capacity sent := by
  unfold Mailbox.recv at hrecv
  split at hrecv
  · exact absurd hrecv (Option.some_ne_none _).symm
  · rename_i first queue hqueue
    rw [← (Prod.mk.inj (Option.some.inj hrecv)).2]
    have hlength := h.queued
    rw [hqueue] at hlength
    exact ⟨h.size, Nat.le_of_succ_le hlength⟩

theorem Within.drop (h : mailbox.Within capacity sent) : mailbox.drop.Within capacity sent :=
  ⟨h.size, Nat.zero_le sent⟩

end Mailbox

end RalphexRunner
