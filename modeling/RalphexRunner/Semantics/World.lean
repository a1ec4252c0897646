import RalphexRunner.Semantics.Program

/-!
# Programs and the world they act on

An `Effect` says what a request can be answered in a world and what the world is afterwards.
`Runs` follows a program and its world through a history of answered requests, wherever it is cut
short.  `Keeps` says of a program that the world is safe whenever it is looked at, and that the
program ends only as it may: it is proved by walking along the program, with `Keeps.bind` and
`Keeps.imp` as rules, and `Keeps.runs` takes it to every run.
-/

namespace RalphexRunner

namespace Program

variable {κ ω : Type} {Ans : κ → Type} {α β : Type}

/-- What a request can be answered in a world, and the world afterwards. -/
abbrev Effect (κ : Type) (Ans : κ → Type) (ω : Type) :=
  ω → (request : κ) → Ans request → ω → Prop

/-- What is left of a program and of its world after a history of answered requests. -/
inductive Runs (effect : Effect κ Ans ω) (world : ω) (program : Program κ Ans α) :
    List (Exchange κ Ans) → ω → Program κ Ans α → Prop
  | start : Runs effect world program [] world program
  | answered {history : List (Exchange κ Ans)} {middle after : ω} {request : κ}
      {resume : Ans request → Program κ Ans α} (answer : Ans request) :
      Runs effect world program history middle (.call request resume) →
        effect middle request answer after →
          Runs effect world program (history ++ [⟨request, answer⟩]) after (resume answer)

variable {effect : Effect κ Ans ω} {world after : ω} {program rest : Program κ Ans α}
  {history : List (Exchange κ Ans)}

/-- A run of a program that asks starts with its first answer. -/
theorem Runs.called {request : κ} {resume : Ans request → Program κ Ans α} {answer : Ans request}
    {middle : ω} (heffect : effect world request answer middle)
    (h : Runs effect middle (resume answer) history after rest) :
    Runs effect world (.call request resume) (⟨request, answer⟩ :: history) after rest := by
  induction h with
  | start => exact .answered answer .start heffect
  | answered given _ hgiven ih => exact .answered given ih hgiven

/-- The history of a run starts with the first request. -/
theorem Runs.of_call {request : κ} {resume : Ans request → Program κ Ans α}
    (h : Runs effect world (.call request resume) history after rest) :
    (history = [] ∧ after = world ∧ rest = .call request resume) ∨
      ∃ answer middle tail, history = ⟨request, answer⟩ :: tail ∧
        effect world request answer middle ∧
          Runs effect middle (resume answer) tail after rest := by
  induction h with
  | start => exact .inl ⟨rfl, rfl, rfl⟩
  | answered given _ hgiven ih =>
      rcases ih with ⟨rfl, rfl, hrest⟩ | ⟨answer, middle, tail, rfl, heffect, htail⟩
      · cases hrest
        exact .inr ⟨given, _, [], rfl, hgiven, .start⟩
      · exact .inr ⟨answer, middle, tail ++ [_], rfl, heffect, .answered given htail hgiven⟩

theorem Runs.of_done {result : α} (h : Runs effect world (.done result) history after rest) :
    history = [] ∧ after = world ∧ rest = .done result := by
  induction h with
  | start => exact ⟨rfl, rfl, rfl⟩
  | answered _ _ _ ih => cases ih.2.2

/-- On every path the world is safe whenever it is looked at, and the program ends as it may. -/
def Keeps (effect : Effect κ Ans ω) (safe : ω → Prop) (ends : ω → α → Prop) :
    ω → Program κ Ans α → Prop
  | world, .done result => safe world ∧ ends world result
  | world, .call request resume => safe world ∧ ∀ answer after,
      effect world request answer after → Keeps effect safe ends after (resume answer)

variable {safe : ω → Prop} {ends : ω → α → Prop}

theorem Keeps.now (h : Keeps effect safe ends world program) : safe world := by
  cases program with
  | done result => exact h.1
  | call request resume => exact h.1

/-- The rule of consequence. -/
theorem Keeps.imp {weaker : ω → α → Prop} (h : Keeps effect safe ends world program)
    (hends : ∀ world result, safe world → ends world result → weaker world result) :
    Keeps effect safe weaker world program := by
  induction program generalizing world with
  | done result => exact ⟨h.1, hends world result h.1 h.2⟩
  | call request resume ih =>
      exact ⟨h.1, fun answer after heffect ↦ ih answer (h.2 answer after heffect)⟩

/-- The rule of composition: the first part may end wherever the second can go on. -/
theorem Keeps.bind {ends : ω → β → Prop} {next : α → Program κ Ans β}
    (h : Keeps effect safe (fun world result ↦ Keeps effect safe ends world (next result)) world
      program) : Keeps effect safe ends world (program >>= next) := by
  induction program generalizing world with
  | done result => exact h.2
  | call request resume ih =>
      exact ⟨h.1, fun answer after heffect ↦ ih answer (h.2 answer after heffect)⟩

/-- What a program keeps to, every run of it keeps to. -/
theorem Keeps.runs (h : Keeps effect safe ends world program)
    (hruns : Runs effect world program history after rest) :
    Keeps effect safe ends after rest := by
  induction hruns with
  | start => exact h
  | answered answer _ heffect ih => exact ih.2 answer _ heffect

end Program

end RalphexRunner
