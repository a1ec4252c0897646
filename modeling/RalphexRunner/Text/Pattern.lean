import Mathlib.Algebra.Ring.Nat
import Mathlib.Data.List.Basic
import Mathlib.Data.List.TakeWhile
import Mathlib.Tactic.Common

/-!
# Anchored patterns

A pattern is matched from the start of a list by backtracking: a repetition takes as many items as
it can and gives them back one by one, a lazy one takes as few as it can, and the first way through
the pattern is the match.  `captures` returns what the groups of the pattern matched, in order.

Backtracking is only needed where what follows a repetition could start with an item of it.  The
equations below say so: in all other places a repetition is `takeWhile` and what follows sees
`dropWhile`.
-/

namespace RalphexRunner

variable {α β : Type*}

/-- A pattern over items of a type, without an anchor at its start. -/
inductive Pattern (α : Type*) where
  | nothing
  | one (set : α → Bool)
  | seq (first second : Pattern α)
  | either (first second : Pattern α)
  | many (least : ℕ) (most : Option ℕ) (set : α → Bool)
  | few (least : ℕ) (set : α → Bool)
  | group (inner : Pattern α)
  | finish

namespace Pattern

/-- Items of a set, as many as can be, before what follows. -/
def takeMany (set : α → Bool) (next : List α → Option β) : ℕ → Option ℕ → List α → Option β
  | least, _, [] => if least = 0 then next [] else none
  | least, most, item :: rest =>
      (if set item = true ∧ most ≠ some 0 then
          takeMany set next (least - 1) (most.map (· - 1)) rest
        else none).or
      (if least = 0 then next (item :: rest) else none)

/-- Items of a set, as few as can be, before what follows. -/
def takeFew (set : α → Bool) (next : List α → Option β) : ℕ → List α → Option β
  | least, [] => if least = 0 then next [] else none
  | least, item :: rest =>
      (if least = 0 then next (item :: rest) else none).or
      (if set item = true then takeFew set next (least - 1) rest else none)

/-- Match a pattern from the start of some items, then what follows. -/
def run : Pattern α → (List α → Option (List (List α))) → List α → Option (List (List α))
  | nothing, next, items => next items
  | one set, next, items =>
      match items with
      | [] => none
      | item :: rest => if set item then next rest else none
  | seq first second, next, items => first.run (second.run next) items
  | either first second, next, items => (first.run next items).or (second.run next items)
  | many least most set, next, items => takeMany set next least most items
  | few least set, next, items => takeFew set next least items
  | group inner, next, items =>
      inner.run (fun rest ↦
        (next rest).map fun groups ↦ items.take (items.length - rest.length) :: groups) items
  | finish, next, items => if items.isEmpty then next items else none

/-- The groups of a pattern that matches some items from their start. -/
def captures (pattern : Pattern α) (items : List α) : Option (List (List α)) :=
  pattern.run (fun _ ↦ some []) items

def isMatch (pattern : Pattern α) (items : List α) : Bool := (pattern.captures items).isSome

/-- The patterns one after the other. -/
def sequence : List (Pattern α) → Pattern α
  | [] => nothing
  | [last] => last
  | first :: rest => seq first (sequence rest)

/-- The items themselves. -/
def literal [DecidableEq α] (items : List α) : Pattern α :=
  sequence (items.map fun item ↦ one fun other ↦ other = item)

section Repetition

variable {set : α → Bool} {next : List α → Option β}

/-- A repetition gives nothing back where what follows fails behind fewer items whenever it fails
behind all of them. -/
theorem takeMany_eq (h : ∀ item rest, set item = true → next (rest.dropWhile set) = none →
    next (item :: rest) = none) (least : ℕ) (items : List α) :
    takeMany set next least none items =
      if least ≤ (items.takeWhile set).length then next (items.dropWhile set) else none := by
  induction items generalizing least with
  | nil => simp [takeMany]
  | cons item rest ih =>
      rw [takeMany]
      by_cases hset : set item = true
      · rw [if_pos ⟨hset, by simp⟩, Option.map_none, ih, List.takeWhile_cons_of_pos hset,
          List.dropWhile_cons_of_pos hset, List.length_cons]
        cases hnext : next (rest.dropWhile set) with
        | none => simp [h item rest hset hnext]
        | some found =>
            by_cases hleast : least ≤ (rest.takeWhile set).length + 1
            · rw [if_pos (by omega), if_pos hleast, Option.some_or]
            · rw [if_neg (by omega), if_neg hleast, if_neg (by omega), Option.none_or]
      · rw [if_neg fun hboth ↦ hset hboth.1, List.takeWhile_cons_of_neg hset,
          List.dropWhile_cons_of_neg hset, Option.none_or]
        simp

/-- What follows cannot start with an item of the set. -/
def Stuck (set : α → Bool) (next : List α → Option β) : Prop :=
  ∀ item rest, set item = true → next (item :: rest) = none

theorem takeMany_of_stuck (h : Stuck set next) (least : ℕ) (items : List α) :
    takeMany set next least none items =
      if least ≤ (items.takeWhile set).length then next (items.dropWhile set) else none :=
  takeMany_eq (fun item rest hset _ ↦ h item rest hset) least items

/-- A bounded repetition fails where the set goes on past its bound. -/
theorem takeMany_bounded (h : Stuck set next) (most : ℕ) (items : List α) :
    takeMany set next 0 (some most) items =
      if (items.takeWhile set).length ≤ most then next (items.dropWhile set) else none := by
  induction items generalizing most with
  | nil => simp [takeMany]
  | cons item rest ih =>
      rw [takeMany, if_pos rfl]
      by_cases hset : set item = true
      · rw [h item rest hset, Option.or_none, List.takeWhile_cons_of_pos hset,
          List.dropWhile_cons_of_pos hset, List.length_cons]
        cases most with
        | zero => simp
        | succ most =>
            rw [if_pos ⟨hset, by simp⟩, Option.map_some, Nat.add_sub_cancel, ih]
            simp only [Nat.add_le_add_iff_right]
      · rw [if_neg fun hboth ↦ hset hboth.1, List.takeWhile_cons_of_neg hset,
          List.dropWhile_cons_of_neg hset, Option.none_or]
        simp

/-- Where what follows cannot start with an item of the set, a lazy repetition takes all of
them. -/
theorem takeFew_of_stuck (h : Stuck set next) (least : ℕ) (items : List α) :
    takeFew set next least items =
      if least ≤ (items.takeWhile set).length then next (items.dropWhile set) else none := by
  induction items generalizing least with
  | nil => simp [takeFew]
  | cons item rest ih =>
      rw [takeFew]
      by_cases hset : set item = true
      · rw [h item rest hset, if_pos hset, ih, List.takeWhile_cons_of_pos hset,
          List.dropWhile_cons_of_pos hset, List.length_cons, ite_self, Option.none_or]
        congr 1
        exact propext (by omega)
      · rw [if_neg hset, List.takeWhile_cons_of_neg hset, List.dropWhile_cons_of_neg hset,
          Option.or_none]
        simp

/-- One item more at the end makes no difference to a repetition that what follows does not see it
by, unless the items end with the repetition. -/
theorem takeMany_append {γ : Type*} {view : β → γ} {last : α}
    (h : ∀ items, (next (items ++ [last])).map view = (next items).map view)
    (hend : next [] = none) (least : ℕ) (items : List α) :
    (takeMany set next least none (items ++ [last])).map view =
      (takeMany set next least none items).map view := by
  induction items generalizing least with
  | nil =>
      have hlast : (next [last]).map view = none := by
        rw [← List.nil_append [last], h [], hend]
        rfl
      rw [List.nil_append, takeMany, takeMany, takeMany, hend, ite_self, ite_self, Option.none_or,
        ite_self]
      split
      · exact hlast
      · rfl
  | cons item rest ih =>
      rw [List.cons_append, takeMany, takeMany, Option.map_or, Option.map_or]
      congr 1
      · split
        · exact ih (least - 1)
        · rfl
      · split
        · exact h (item :: rest)
        · rfl

end Repetition

theorem run_seq (first second : Pattern α) (next : List α → Option (List (List α)))
    (items : List α) : (seq first second).run next items = first.run (second.run next) items := rfl

theorem run_one (set : α → Bool) (next : List α → Option (List (List α))) (item : α)
    (rest : List α) :
    (one set).run next (item :: rest) = if set item then next rest else none := rfl

/-- A literal matches what begins with it. -/
theorem run_literal [DecidableEq α] (opening : List α) (next : List α → Option (List (List α)))
    (items : List α) : (literal opening).run next items =
      if opening.isPrefixOf items then next (items.drop opening.length) else none := by
  induction opening generalizing items with
  | nil => rfl
  | cons first rest ih =>
      have hcons : (literal (first :: rest)).run next items =
          (one fun other ↦ decide (other = first)).run ((literal rest).run next) items := by
        cases rest <;> rfl
      rw [hcons]
      cases items with
      | nil => rfl
      | cons item items =>
          rw [run_one, ih, List.isPrefixOf_cons_cons]
          by_cases hitem : item = first
          · rw [if_pos (by simpa using hitem), hitem]
            simp
          · rw [if_neg (by simpa using hitem), if_neg (by simp [Ne.symm hitem])]

/-- A group of all that is left, where every item of it is in the set. -/
theorem run_group_rest (set : α → Bool) (items : List α) :
    (sequence [group (many 0 none set), finish]).run (fun _ ↦ some []) items =
      if items.all set then some [items] else none := by
  have hstuck : Stuck set fun rest ↦
      ((finish.run (fun _ ↦ some []) rest).map fun groups ↦
        items.take (items.length - rest.length) :: groups) := fun _ _ _ ↦ rfl
  have hrun := takeMany_of_stuck hstuck 0 items
  rw [if_pos (Nat.zero_le _)] at hrun
  refine hrun.trans ?_
  by_cases hall : items.all set = true
  · have hnone : items.dropWhile set = [] := by
      rw [List.dropWhile_eq_nil_iff]
      simpa using hall
    rw [if_pos hall, hnone]
    simp [run]
  · have hsome : items.dropWhile set ≠ [] := by
      rw [Ne, List.dropWhile_eq_nil_iff]
      simpa using hall
    rw [if_neg hall, run, if_neg (by simpa using hsome)]
    rfl

end Pattern

end RalphexRunner
