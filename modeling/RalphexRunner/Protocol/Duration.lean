import Mathlib.Algebra.Ring.Nat
import Mathlib.Tactic.Common

/-!
# Spans of time

A `Duration` is a number of nanoseconds whose whole seconds fit 64 bits.  The sum of two durations
need not be one; the operator the source writes panics there, and `checkedAdd` has no value.

An `Instant` is a reading of the monotonic clock, whose whole seconds are signed: 63 bits are left
for them.  A moment that far off is none, and adding a duration panics there as well.
-/

namespace RalphexRunner

def nanosPerSec : ℕ := 1000000000

/-- The first number of seconds that 64 bits do not hold. -/
def secsBound : ℕ := 2 ^ 64

/-- A span of time. -/
@[ext] structure Duration where
  nanos : ℕ
  representable : nanos < secsBound * nanosPerSec
  deriving DecidableEq

namespace Duration

theorem nanosPerSec_pos : 0 < nanosPerSec := by decide

def fromSecs (seconds : ℕ) (h : seconds < secsBound) : Duration :=
  ⟨seconds * nanosPerSec, Nat.mul_lt_mul_of_pos_right h nanosPerSec_pos⟩

@[simp] theorem nanos_fromSecs (seconds : ℕ) (h : seconds < secsBound) :
    (fromSecs seconds h).nanos = seconds * nanosPerSec := rfl

/-- The whole seconds of a span. -/
def asSecs (duration : Duration) : ℕ := duration.nanos / nanosPerSec

theorem asSecs_lt (duration : Duration) : duration.asSecs < secsBound := by
  have h := duration.representable
  rw [Nat.mul_comm] at h
  exact Nat.div_lt_of_lt_mul h

@[simp] theorem asSecs_fromSecs (seconds : ℕ) (h : seconds < secsBound) :
    (fromSecs seconds h).asSecs = seconds := by
  rw [asSecs, fromSecs, Nat.mul_div_cancel _ nanosPerSec_pos]

instance : LE Duration := ⟨fun first second ↦ first.nanos ≤ second.nanos⟩

instance (first second : Duration) : Decidable (first ≤ second) :=
  inferInstanceAs (Decidable (first.nanos ≤ second.nanos))

theorem le_def {first second : Duration} : first ≤ second ↔ first.nanos ≤ second.nanos := Iff.rfl

def IsWhole (duration : Duration) : Prop := nanosPerSec ∣ duration.nanos

theorem isWhole_fromSecs {seconds : ℕ} (h : seconds < secsBound) : (fromSecs seconds h).IsWhole :=
  Nat.dvd_mul_left nanosPerSec seconds

theorem IsWhole.nanos_eq {duration : Duration} (h : duration.IsWhole) :
    duration.nanos = duration.asSecs * nanosPerSec := (Nat.div_mul_cancel h).symm

/-- The sum of two spans, where it is one. -/
def checkedAdd (first second : Duration) : Option Duration :=
  if h : first.nanos + second.nanos < secsBound * nanosPerSec then
    some ⟨first.nanos + second.nanos, h⟩
  else none

theorem checkedAdd_eq_some {first second sum : Duration} : first.checkedAdd second = some sum ↔
    sum.nanos = first.nanos + second.nanos := by
  unfold checkedAdd
  split
  · rw [Option.some_inj, Duration.ext_iff, eq_comm]
  · rename_i hover
    refine ⟨nofun, fun hsum ↦ absurd sum.representable ?_⟩
    rwa [hsum]

/-- A sum that is a duration is found. -/
theorem isSome_checkedAdd {first second : Duration} : (first.checkedAdd second).isSome ↔
    first.nanos + second.nanos < secsBound * nanosPerSec := by
  unfold checkedAdd
  split
  · exact iff_of_true rfl ‹_›
  · exact iff_of_false (by nofun) ‹_›

/-- The sum of a span and the spans of a list, added from the left, where every sum is one. -/
def checkedSum (first : Duration) (spans : List Duration) : Option Duration :=
  spans.foldlM checkedAdd first

/-- A sum that can be computed is the sum of the nanoseconds. -/
theorem checkedSum_eq_some {spans : List Duration} {first total : Duration} :
    first.checkedSum spans = some total ↔
      total.nanos = first.nanos + (spans.map Duration.nanos).sum := by
  induction spans generalizing first with
  | nil => rw [checkedSum, List.foldlM_nil, Option.pure_def, Option.some_inj, Duration.ext_iff,
      eq_comm, List.map_nil, List.sum_nil, Nat.add_zero]
  | cons span rest ih =>
      rw [checkedSum, List.foldlM_cons, Option.bind_eq_bind, Option.bind_eq_some_iff,
        List.map_cons, List.sum_cons, ← Nat.add_assoc]
      constructor
      · rintro ⟨middle, hmiddle, hrest⟩
        rw [← checkedAdd_eq_some.mp hmiddle]
        exact ih.mp hrest
      · intro htotal
        have hfits : first.nanos + span.nanos < secsBound * nanosPerSec := by
          have hbound := total.representable
          omega
        exact ⟨⟨_, hfits⟩, checkedAdd_eq_some.mpr rfl, ih.mpr htotal⟩

end Duration

/-- The first number of seconds that a signed number of 64 bits does not hold. -/
def instantBound : ℕ := 2 ^ 63

/-- A reading of the monotonic clock. -/
@[ext] structure Instant where
  nanos : ℕ
  representable : nanos < instantBound * nanosPerSec

namespace Instant

instance : LE Instant := ⟨fun first second ↦ first.nanos ≤ second.nanos⟩

instance (first second : Instant) : Decidable (first ≤ second) :=
  inferInstanceAs (Decidable (first.nanos ≤ second.nanos))

/-- The moment a span later, where it is one. -/
def checkedAdd (now : Instant) (span : Duration) : Option Instant :=
  if h : now.nanos + span.nanos < instantBound * nanosPerSec then some ⟨now.nanos + span.nanos, h⟩
  else none

theorem checkedAdd_eq_some {now later : Instant} {span : Duration} :
    now.checkedAdd span = some later ↔ later.nanos = now.nanos + span.nanos := by
  unfold checkedAdd
  split
  · rw [Option.some_inj, Instant.ext_iff, eq_comm]
  · rename_i hover
    refine ⟨nofun, fun hlater ↦ absurd later.representable ?_⟩
    rwa [hlater]

theorem isSome_checkedAdd {now : Instant} {span : Duration} : (now.checkedAdd span).isSome ↔
    now.nanos + span.nanos < instantBound * nanosPerSec := by
  unfold checkedAdd
  split
  · exact iff_of_true rfl ‹_›
  · exact iff_of_false (by nofun) ‹_›

end Instant

end RalphexRunner
