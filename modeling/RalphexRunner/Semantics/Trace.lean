import Mathlib.Data.List.Basic

/-!
# Traces whose events are justified by what came before them

`Justified P trace` says that every event of a trace stands in the relation `P` to the events
before it.  A trace grows at its end, so it stays justified where the new events are.
`Heeded P trace` says the same of the events after it, from the other end.
-/

namespace RalphexRunner

variable {ε : Type*} {P Q : List ε → ε → Prop} {trace events : List ε} {event : ε}

/-- An element of a list that grew by one is the new one, or splits the list as it was. -/
theorem split_snoc {trace before after : List ε} {event last : ε}
    (h : trace ++ [last] = before ++ event :: after) :
    (after = [] ∧ before = trace ∧ event = last) ∨
      ∃ inner, after = inner ++ [last] ∧ trace = before ++ event :: inner := by
  rcases List.eq_nil_or_concat after with rfl | ⟨inner, other, rfl⟩
  · obtain ⟨hbefore, hlast⟩ := List.append_inj' h rfl
    cases hlast
    exact .inl ⟨rfl, hbefore.symm, rfl⟩
  · have hinner : trace ++ [last] = (before ++ event :: inner) ++ [other] := by simpa using h
    obtain ⟨htrace, hlast⟩ := List.append_inj' hinner rfl
    cases hlast
    exact .inr ⟨inner, List.concat_eq_append .., htrace⟩

/-- Every event is allowed by the events before it. -/
def Justified (P : List ε → ε → Prop) (trace : List ε) : Prop :=
  ∀ before event after, trace = before ++ event :: after → P before event

theorem justified_nil : Justified P ([] : List ε) := by
  intro before event after h
  simp at h

theorem Justified.snoc (h : Justified P trace) (hevent : P trace event) :
    Justified P (trace ++ [event]) := by
  intro before other after hsplit
  rcases split_snoc hsplit with ⟨-, rfl, rfl⟩ | ⟨inner, -, htrace⟩
  · exact hevent
  · exact h before other inner htrace

theorem justified_singleton (h : P [] event) : Justified P [event] := justified_nil.snoc h

theorem justified_of_forall (h : ∀ event ∈ events, ∀ before, P before event) :
    Justified P events := by
  rintro before event after rfl
  exact h event (by simp) before

/-- Events that are justified by the trace and by each other may follow it. -/
theorem Justified.append (h : Justified P trace)
    (hevents : Justified (fun earlier event ↦ P (trace ++ earlier) event) events) :
    Justified P (trace ++ events) := by
  intro before event after hsplit
  rcases List.append_eq_append_iff.mp hsplit with ⟨earlier, rfl, hlater⟩ | ⟨later, hbefore, hafter⟩
  · exact hevents earlier event after hlater
  · cases later with
    | nil =>
        rw [List.append_nil] at hbefore
        have hfirst : P (trace ++ []) event := hevents [] event after hafter.symm
        rwa [List.append_nil, hbefore] at hfirst
    | cons first rest =>
        rw [List.cons_append, List.cons.injEq] at hafter
        obtain ⟨rfl, -⟩ := hafter
        exact h before event rest hbefore

/-- Every event is followed as it asks for. -/
def Heeded (Q : ε → List ε → Prop) (trace : List ε) : Prop :=
  ∀ before event after, trace = before ++ event :: after → Q event after

theorem heeded_nil {Q : ε → List ε → Prop} : Heeded Q [] := by
  intro before event after h
  simp at h

theorem Heeded.cons {Q : ε → List ε → Prop} (h : Heeded Q trace) (hevent : Q event trace) :
    Heeded Q (event :: trace) := by
  intro before other after hsplit
  rcases List.cons_eq_append_iff.mp hsplit with ⟨rfl, hsame⟩ | ⟨more, rfl, htrace⟩
  · cases hsame
    exact hevent
  · exact h more other after htrace

end RalphexRunner
