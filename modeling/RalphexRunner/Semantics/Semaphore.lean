import Mathlib.Data.List.Nodup
import Mathlib.Logic.Function.Basic

/-!
# A semaphore with one permit, and what it guards

The parties that asked for the permit stand in a line in the order they came.  The head of the line
holds the permit; a party that leaves the line, whether it drops the permit or gives up waiting,
leaves it to the next one.

`Place` is what a party's own control point says about its place in the line and, where it holds the
permit, about the value the permit guards.  `Guards` is the invariant that ties the places of all
parties to the line and to the value; there is one rule for each thing a party can do.
-/

namespace RalphexRunner

variable {π σ : Type*}

/-- A line in which nobody stands twice. -/
structure Semaphore (π : Type*) where
  line : List π
  nodup : line.Nodup

namespace Semaphore

/-- A semaphore nobody asked for. -/
def free : Semaphore π := ⟨[], List.nodup_nil⟩

/-- The party with the permit. -/
def holder (semaphore : Semaphore π) : Option π := semaphore.line.head?

variable {semaphore : Semaphore π} {party other : π}

theorem mem_of_holder (h : semaphore.holder = some party) :
    party ∈ semaphore.line :=
  List.mem_of_mem_head? h

theorem holder_eq_none_iff :
    semaphore.holder = none ↔ semaphore.line = [] :=
  List.head?_eq_none_iff

variable [DecidableEq π]

/-- Stand at the end of the line. -/
def enqueue (semaphore : Semaphore π) (party : π) : Semaphore π :=
  if h : party ∈ semaphore.line then semaphore
  else ⟨semaphore.line ++ [party], by
    have hdisjoint : List.Disjoint semaphore.line [party] :=
      List.disjoint_singleton.mpr h
    exact semaphore.nodup.append (List.nodup_singleton party) hdisjoint⟩

/-- Drop the permit, or the place in the line. -/
def leave (semaphore : Semaphore π) (party : π) : Semaphore π :=
  ⟨semaphore.line.erase party, semaphore.nodup.erase party⟩

theorem enqueue_line (h : party ∉ semaphore.line) :
    (semaphore.enqueue party).line = semaphore.line ++ [party] := by
  rw [enqueue, dif_neg h]

theorem mem_leave_iff :
    other ∈ (semaphore.leave party).line ↔ other ≠ party ∧ other ∈ semaphore.line :=
  semaphore.nodup.mem_erase_iff

/-- Whoever has the permit keeps it when another party joins the line. -/
theorem holder_enqueue (h : semaphore.holder = some other) :
    (semaphore.enqueue party).holder = some other := by
  unfold enqueue
  split
  · exact h
  · exact List.head?_append_of_ne_nil _ (List.ne_nil_of_mem (mem_of_holder h)) |>.trans h

/-- Whoever has the permit keeps it when another party leaves the line. -/
theorem holder_leave (h : semaphore.holder = some other) (hne : other ≠ party) :
    (semaphore.leave party).holder = some other := by
  obtain ⟨line, nodup⟩ := semaphore
  cases line with
  | nil => cases h
  | cons head rest =>
      cases h
      show ((other :: rest).erase party).head? = some other
      rw [List.erase_cons_tail (by simpa using hne), List.head?_cons]

/-- Those who stand before a party, the one with the permit first. -/
def ahead (semaphore : Semaphore π) (party : π) : List π :=
  semaphore.line.takeWhile fun other ↦ other ≠ party

theorem ahead_eq {front back : List π} (h : semaphore.line = front ++ party :: back) :
    semaphore.ahead party = front := by
  have hnodup : (front ++ party :: back).Nodup := h ▸ semaphore.nodup
  have hnot : party ∉ front := fun hmem ↦
    List.disjoint_of_nodup_append hnodup hmem List.mem_cons_self
  have hfront : ∀ other ∈ front, decide (other ≠ party) = true := by
    intro other hmem
    exact decide_eq_true fun hsame ↦ hnot (hsame ▸ hmem)
  rw [ahead, h, List.takeWhile_append_of_pos hfront, List.takeWhile_cons_of_neg (by simp),
    List.append_nil]

theorem line_eq_ahead (h : party ∈ semaphore.line) :
    ∃ back, semaphore.line = semaphore.ahead party ++ party :: back := by
  obtain ⟨front, back, hline⟩ := List.append_of_mem h
  exact ⟨back, (ahead_eq hline).symm ▸ hline⟩

theorem ahead_subset : semaphore.ahead party ⊆ semaphore.line :=
  (List.takeWhile_prefix _).subset

/-- Whoever has the permit stands before everybody else. -/
theorem mem_ahead_of_holder (h : semaphore.holder = some other) (hne : other ≠ party) :
    other ∈ semaphore.ahead party := by
  obtain ⟨rest, hline⟩ := List.head?_eq_some_iff.mp h
  have hpos : decide (other ≠ party) = true := decide_eq_true hne
  rw [ahead, hline, List.takeWhile_cons, if_pos hpos]
  exact List.mem_cons_self

/-- Nobody who joins the line stands before those who are in it. -/
theorem ahead_enqueue (h : party ∈ semaphore.line) :
    (semaphore.enqueue other).ahead party = semaphore.ahead party := by
  by_cases hmem : other ∈ semaphore.line
  · rw [enqueue, dif_pos hmem]
  · obtain ⟨back, hline⟩ := line_eq_ahead h
    have hjoined : (semaphore.enqueue other).line =
        semaphore.ahead party ++ party :: (back ++ [other]) := by
      rw [enqueue_line hmem, ← List.cons_append, ← List.append_assoc, ← hline]
    exact ahead_eq hjoined

/-- Nobody overtakes where a party leaves the line. -/
theorem ahead_leave (h : party ∈ (semaphore.leave other).line) :
    (semaphore.leave other).ahead party ⊆ semaphore.ahead party := by
  obtain ⟨hne, hmem⟩ := mem_leave_iff.mp h
  obtain ⟨back, hline⟩ := line_eq_ahead hmem
  have hleft : (semaphore.leave other).line =
      (semaphore.ahead party ++ party :: back).erase other :=
    congrArg (fun line ↦ line.erase other) hline
  by_cases hahead : other ∈ semaphore.ahead party
  · rw [List.erase_append_left _ hahead] at hleft
    rw [ahead_eq hleft]
    exact List.erase_subset
  · have hkeeps : ¬ (party == other) = true := by simpa using hne
    rw [List.erase_append_right _ hahead, List.erase_cons_tail hkeeps] at hleft
    rw [ahead_eq hleft]
    exact List.Subset.refl _

/-- Those who wait for the party with the permit. -/
def waiting (semaphore : Semaphore π) : List π := semaphore.line.tail

/-- A party that drops the permit leaves it to the first of those who wait. -/
theorem leave_line (h : semaphore.holder = some party) :
    (semaphore.leave party).line = semaphore.waiting := by
  obtain ⟨rest, hline⟩ := List.head?_eq_some_iff.mp h
  have hleft : (semaphore.leave party).line = (party :: rest).erase party :=
    congrArg (fun line ↦ line.erase party) hline
  rw [hleft, waiting, hline]
  exact List.erase_cons_head party rest

theorem notMem_waiting (h : semaphore.holder = some party) : party ∉ semaphore.waiting := by
  rw [← leave_line h]
  exact fun hmem ↦ (mem_leave_iff.mp hmem).1 rfl

theorem mem_waiting (h : semaphore.holder = some party) (hmem : other ∈ semaphore.line)
    (hne : other ≠ party) : other ∈ semaphore.waiting := by
  rw [← leave_line h]
  exact mem_leave_iff.mpr ⟨hne, hmem⟩

end Semaphore

/-- Where a party stands; a party with the permit claims something about the guarded value. -/
inductive Place (σ : Type*) where
  | outside
  | queued
  | holding (claim : σ → Prop)

/-- The line agrees with where a party says it stands. -/
def Place.Fits (semaphore : Semaphore π) (party : π) : Place σ → Prop
  | .outside => party ∉ semaphore.line
  | .queued => party ∈ semaphore.line
  | .holding _ => semaphore.holder = some party

/-- The line agrees with all parties, and the value with the claim of the party that holds the
permit, or with `idle` where no party does. -/
structure Guards (semaphore : Semaphore π) (place : π → Place σ) (idle : σ → Prop) (value : σ) :
    Prop where
  fits : ∀ party, (place party).Fits semaphore party
  kept : ∀ party claim, place party = .holding claim → claim value
  idle : (∀ party claim, place party ≠ .holding claim) → idle value

namespace Guards

variable {semaphore : Semaphore π} {place : π → Place σ} {idle claim claim' : σ → Prop}
  {value value' : σ} {party other : π}

/-- Nobody is in the line of a semaphore that is free. -/
theorem start (hplace : ∀ party, place party = .outside) (hidle : idle value) :
    Guards .free place idle value where
  fits party := by
    rw [hplace]
    exact List.not_mem_nil
  kept party claim hholding := by
    rw [hplace] at hholding
    cases hholding
  idle _ := hidle

theorem holder (h : Guards semaphore place idle value) (hplace : place party = .holding claim) :
    semaphore.holder = some party := by
  have hfits := h.fits party
  rwa [hplace] at hfits

/-- At most one party holds the permit. -/
theorem only (h : Guards semaphore place idle value) (hparty : place party = .holding claim)
    (hother : place other = .holding claim') : party = other :=
  Option.some.inj ((h.holder hparty).symm.trans (h.holder hother))

/-- Where the head of the line is no party that knows it holds the permit, no party does. -/
theorem idle_of_holder (h : Guards semaphore place idle value)
    (hholder : semaphore.holder = some party) (hplace : ∀ claim, place party ≠ .holding claim) :
    idle value := by
  apply h.idle
  intro other claim hother
  have hsame : party = other := Option.some.inj (hholder.symm.trans (h.holder hother))
  exact hplace claim (hsame ▸ hother)

/-- Where a party without the permit is the only one that could have it, the value is idle. -/
theorem idle_of_others (h : Guards semaphore place idle value)
    (hplace : ∀ claim, place party ≠ .holding claim)
    (hothers : ∀ other claim, other ≠ party → place other ≠ .holding claim) : idle value := by
  apply h.idle
  intro other claim hother
  by_cases hsame : other = party
  · exact hplace claim (hsame ▸ hother)
  · exact hothers other claim hsame hother

/-- A free semaphore guards an idle value. -/
theorem idle_of_free (h : Guards semaphore place idle value) (hfree : semaphore.holder = none) :
    idle value := by
  apply h.idle
  intro party claim hplace
  rw [h.holder hplace] at hfree
  cases hfree

variable [DecidableEq π]

/-- One party moves: it fits its new place, and the others still fit theirs. -/
theorem update {semaphore' : Semaphore π} {moved : Place σ} (hself : moved.Fits semaphore' party)
    (hothers : ∀ other, other ≠ party → (place other).Fits semaphore' other)
    (hclaim : ∀ claim, moved = .holding claim → claim value')
    (hkept : ∀ other claim, other ≠ party → place other = .holding claim → claim value')
    (hidle : (∀ claim, moved ≠ .holding claim) →
      (∀ other claim, other ≠ party → place other ≠ .holding claim) → idle value') :
    Guards semaphore' (Function.update place party moved) idle value' where
  fits other := by
    by_cases hsame : other = party
    · subst hsame
      rwa [Function.update_self]
    · rw [Function.update_of_ne hsame]
      exact hothers other hsame
  kept other claim hother := by
    by_cases hsame : other = party
    · rw [hsame, Function.update_self] at hother
      exact hclaim claim hother
    · rw [Function.update_of_ne hsame] at hother
      exact hkept other claim hsame hother
  idle hnobody := by
    apply hidle
    · intro claim
      have hnot := hnobody party claim
      rwa [Function.update_self] at hnot
    · intro other claim hne
      have hnot := hnobody other claim
      rwa [Function.update_of_ne hne] at hnot

/-- A party joins the line. -/
theorem enqueue (h : Guards semaphore place idle value) (hplace : place party = .outside) :
    Guards (semaphore.enqueue party) (Function.update place party .queued) idle value := by
  have hout : party ∉ semaphore.line := by
    have hfits := h.fits party
    rwa [hplace] at hfits
  have hline := Semaphore.enqueue_line hout
  apply update
  · show party ∈ (semaphore.enqueue party).line
    rw [hline]
    exact List.mem_append_right _ List.mem_cons_self
  · intro other hne
    have hfits := h.fits other
    cases hother : place other with
    | outside =>
        rw [hother] at hfits
        show other ∉ (semaphore.enqueue party).line
        rw [hline, List.mem_append, List.mem_singleton]
        exact fun hmem ↦ hmem.elim hfits hne
    | queued =>
        rw [hother] at hfits
        show other ∈ (semaphore.enqueue party).line
        rw [hline]
        exact List.mem_append_left _ hfits
    | holding claim =>
        rw [hother] at hfits
        exact Semaphore.holder_enqueue hfits
  · exact nofun
  · exact fun other claim _ hother ↦ h.kept other claim hother
  · exact fun _ hnobody ↦ h.idle_of_others (by rw [hplace]; nofun) hnobody

/-- The head of the line learns that it has the permit. -/
theorem win (h : Guards semaphore place idle value) (hplace : place party = .queued)
    (hholder : semaphore.holder = some party) (hclaim : idle value → claim value) :
    Guards semaphore (Function.update place party (.holding claim)) idle value := by
  have hidle : idle value := h.idle_of_holder hholder fun claim ↦ by rw [hplace]; nofun
  apply update
  · exact hholder
  · exact fun other _ ↦ h.fits other
  · intro claim' hsame
    cases hsame
    exact hclaim hidle
  · exact fun other claim' _ hother ↦ h.kept other claim' hother
  · exact fun _ _ ↦ hidle

/-- A party takes the permit of an empty line at once. -/
theorem acquire (h : Guards semaphore place idle value) (hplace : place party = .outside)
    (hfree : semaphore.holder = none) (hclaim : idle value → claim value) :
    Guards (semaphore.enqueue party) (Function.update place party (.holding claim)) idle value := by
  have hjoined := h.enqueue hplace
  have hline : semaphore.line = [] := Semaphore.holder_eq_none_iff.mp hfree
  have hholder : (semaphore.enqueue party).holder = some party := by
    rw [Semaphore.holder, Semaphore.enqueue_line (by rw [hline]; exact List.not_mem_nil), hline]
    rfl
  have hwon := hjoined.win (Function.update_self party _ place) hholder hclaim
  rwa [Function.update_idem] at hwon

/-- The party with the permit changes the value, and what it claims of it. -/
theorem write (h : Guards semaphore place idle value) (hplace : place party = .holding claim)
    (hclaim : claim' value') :
    Guards semaphore (Function.update place party (.holding claim')) idle value' := by
  apply update
  · exact h.holder hplace
  · exact fun other _ ↦ h.fits other
  · intro claim'' hsame
    cases hsame
    exact hclaim
  · exact fun other claim'' hne hother ↦ absurd (h.only hother hplace) hne
  · exact fun hnot _ ↦ absurd rfl (hnot claim')

/-- The others fit their places when a party leaves the line. -/
theorem fits_leave (h : Guards semaphore place idle value) (hne : other ≠ party) :
    (place other).Fits (semaphore.leave party) other := by
  have hfits := h.fits other
  cases hother : place other with
  | outside =>
      rw [hother] at hfits
      exact fun hmem ↦ hfits (Semaphore.mem_leave_iff.mp hmem).2
  | queued =>
      rw [hother] at hfits
      exact Semaphore.mem_leave_iff.mpr ⟨hne, hfits⟩
  | holding claim =>
      rw [hother] at hfits
      exact Semaphore.holder_leave hfits hne

theorem outside_leave : (Place.outside : Place σ).Fits (semaphore.leave party) party :=
  fun hmem ↦ (Semaphore.mem_leave_iff.mp hmem).1 rfl

/-- A party gives up waiting. -/
theorem cancel (h : Guards semaphore place idle value) (hplace : place party = .queued) :
    Guards (semaphore.leave party) (Function.update place party .outside) idle value := by
  apply update
  · exact outside_leave
  · exact fun other hne ↦ h.fits_leave hne
  · exact nofun
  · exact fun other claim _ hother ↦ h.kept other claim hother
  · exact fun _ hnobody ↦ h.idle_of_others (by rw [hplace]; nofun) hnobody

/-- The party with the permit drops it and leaves an idle value behind. -/
theorem drop (h : Guards semaphore place idle value) (hplace : place party = .holding claim)
    (hidle : idle value') :
    Guards (semaphore.leave party) (Function.update place party .outside) idle value' := by
  apply update
  · exact outside_leave
  · exact fun other hne ↦ h.fits_leave hne
  · exact nofun
  · exact fun other claim' hne hother ↦ absurd (h.only hother hplace) hne
  · exact fun _ _ ↦ hidle

/-- What one step of a party may do to its place, the line and the value. -/
inductive Moves (semaphore : Semaphore π) (party : π) (idle : σ → Prop) (value : σ) :
    Place σ → Semaphore π → Place σ → σ → Prop
  | rest {place : Place σ} : Moves semaphore party idle value place semaphore place value
  | enqueue :
      Moves semaphore party idle value .outside (semaphore.enqueue party) .queued value
  | acquire {claim : σ → Prop} (hfree : semaphore.holder = none)
      (hclaim : idle value → claim value) :
      Moves semaphore party idle value .outside (semaphore.enqueue party) (.holding claim) value
  | win {claim : σ → Prop} (hholder : semaphore.holder = some party)
      (hclaim : idle value → claim value) :
      Moves semaphore party idle value .queued semaphore (.holding claim) value
  | write {claim claim' : σ → Prop} {value' : σ} (hclaim : claim value → claim' value') :
      Moves semaphore party idle value (.holding claim) semaphore (.holding claim') value'
  | cancel : Moves semaphore party idle value .queued (semaphore.leave party) .outside value
  | drop {claim : σ → Prop} {value' : σ} (hidle : claim value → idle value') :
      Moves semaphore party idle value (.holding claim) (semaphore.leave party) .outside value'

/-- The invariant survives every step of a party. -/
theorem moves {semaphore' : Semaphore π} {before after : Place σ}
    (h : Guards semaphore place idle value) (hplace : place party = before)
    (hmoves : Moves semaphore party idle value before semaphore' after value') :
    Guards semaphore' (Function.update place party after) idle value' := by
  cases hmoves with
  | rest =>
      rw [← hplace, Function.update_eq_self]
      exact h
  | enqueue => exact h.enqueue hplace
  | acquire hfree hclaim => exact h.acquire hplace hfree hclaim
  | win hholder hclaim => exact h.win hplace hholder hclaim
  | write hclaim => exact h.write hplace (hclaim (h.kept party _ hplace))
  | cancel => exact h.cancel hplace
  | drop hidle => exact h.drop hplace (hidle (h.kept party _ hplace))

end Guards

end RalphexRunner
