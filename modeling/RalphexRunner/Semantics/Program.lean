import Mathlib.Tactic.Common

/-!
# Programs that ask and go on with the answer

A `Program` is the rest of an asynchronous function: it is done with a result, or it asks for one
thing and goes on with what it is answered.  Dropping the future of such a function drops the rest
of its program.

`Reaches` follows a program through a history of answered requests.  A `Protocol` is a state that
requests move along, with the requests each state permits, what may be assumed of an answer, and the
results a program may end with; `Follows` says that a program keeps to it on every path, and
`Follows.bind` and `Follows.answered` are the rules it is proved and used by.
-/

namespace RalphexRunner

/-- The rest of a function that awaits answers to its requests. -/
inductive Program (κ : Type) (Ans : κ → Type) (α : Type)
  | done (result : α)
  | call (request : κ) (resume : Ans request → Program κ Ans α)

namespace Program

variable {κ κ' : Type} {Ans : κ → Type} {Ans' : κ' → Type} {α β : Type}

/-- Continue with the result of a program. -/
def bind (program : Program κ Ans α) (next : α → Program κ Ans β) : Program κ Ans β :=
  match program with
  | .done result => next result
  | .call request resume => .call request fun answer ↦ (resume answer).bind next

instance : Monad (Program κ Ans) where
  pure := .done
  bind := bind

/-- Ask for one thing. -/
def ask (request : κ) : Program κ Ans (Ans request) := .call request .done

/-- The same program over another signature. -/
def translate (request' : κ → κ') (answer : ∀ request, Ans' (request' request) → Ans request) :
    Program κ Ans α → Program κ' Ans' α
  | .done result => .done result
  | .call request resume =>
      .call (request' request) fun given ↦
        (resume (answer request given)).translate request' answer

@[simp] theorem pure_eq (result : α) : (pure result : Program κ Ans α) = .done result := rfl

@[simp] theorem done_bind (result : α) (next : α → Program κ Ans β) :
    (Program.done result >>= next) = next result := rfl

@[simp] theorem call_bind (request : κ) (resume : Ans request → Program κ Ans α)
    (next : α → Program κ Ans β) :
    (Program.call request resume >>= next) =
      .call request fun answer ↦ resume answer >>= next := rfl

@[simp] theorem ask_bind (request : κ) (next : Ans request → Program κ Ans β) :
    (ask request >>= next) = .call request next := rfl

theorem bind_assoc {γ : Type} (program : Program κ Ans α) (next : α → Program κ Ans β)
    (last : β → Program κ Ans γ) :
    ((program >>= next) >>= last) = (program >>= fun result ↦ next result >>= last) := by
  induction program with
  | done result => rfl
  | call request resume ih => exact congrArg (Program.call request) (funext ih)

/-- A request together with its answer. -/
abbrev Exchange (κ : Type) (Ans : κ → Type) := Σ request : κ, Ans request

/-- What is left of a program after a history of answered requests. -/
inductive Reaches (program : Program κ Ans α) : List (Exchange κ Ans) → Program κ Ans α → Prop
  | start : Reaches program [] program
  | answered {history : List (Exchange κ Ans)} {request : κ}
      {resume : Ans request → Program κ Ans α} (answer : Ans request) :
      Reaches program history (.call request resume) →
        Reaches program (history ++ [⟨request, answer⟩]) (resume answer)

/-- The history of a program that asks starts with its first answer. -/
theorem Reaches.of_call {request : κ} {resume : Ans request → Program κ Ans α}
    {history : List (Exchange κ Ans)} {rest : Program κ Ans α}
    (h : Reaches (.call request resume) history rest) :
    (history = [] ∧ rest = .call request resume) ∨
      ∃ answer tail, history = ⟨request, answer⟩ :: tail ∧ Reaches (resume answer) tail rest := by
  induction h with
  | start => exact .inl ⟨rfl, rfl⟩
  | answered given _ ih =>
      rcases ih with ⟨rfl, hrest⟩ | ⟨answer, tail, rfl, htail⟩
      · cases hrest
        exact .inr ⟨given, [], rfl, .start⟩
      · exact .inr ⟨answer, tail ++ [_], rfl, .answered given htail⟩

theorem Reaches.of_done {result : α} {history : List (Exchange κ Ans)} {rest : Program κ Ans α}
    (h : Reaches (.done result) history rest) : history = [] ∧ rest = .done result := by
  induction h with
  | start => exact ⟨rfl, rfl⟩
  | answered _ _ ih => cases ih.2

theorem Reaches.of_returned {result finished : α} {history : List (Exchange κ Ans)}
    (h : Reaches (.done result) history (.done finished)) : history = [] ∧ finished = result := by
  obtain ⟨hhistory, hend⟩ := h.of_done
  cases hend
  exact ⟨hhistory, rfl⟩

/-- A program under way in a composition is either still in its first part, or has finished it. -/
theorem Reaches.of_bind {program : Program κ Ans α} {next : α → Program κ Ans β}
    {history : List (Exchange κ Ans)} {rest : Program κ Ans β}
    (h : Reaches (program >>= next) history rest) :
    (∃ left, Reaches program history left ∧ rest = left >>= next) ∨
      ∃ first second result, history = first ++ second ∧ Reaches program first (.done result) ∧
        Reaches (next result) second rest := by
  induction h with
  | start => exact .inl ⟨program, .start, rfl⟩
  | answered answer _ ih =>
      rcases ih with ⟨left, hleft, hrest⟩ | ⟨first, second, result, rfl, hfirst, hsecond⟩
      · cases left with
        | done result =>
            refine .inr ⟨_, [⟨_, answer⟩], result, rfl, hleft, ?_⟩
            have hnext : next result = _ := hrest.symm
            rw [hnext]
            exact .answered answer .start
        | call request resume =>
            cases hrest
            exact .inl ⟨resume answer, .answered answer hleft, rfl⟩
      · exact .inr ⟨first, second ++ [⟨_, answer⟩], result, List.append_assoc .., hfirst,
          .answered answer hsecond⟩

/-- A composition that is done has finished both its parts. -/
theorem Reaches.bind_done {program : Program κ Ans α} {next : α → Program κ Ans β}
    {history : List (Exchange κ Ans)} {result : β}
    (h : Reaches (program >>= next) history (.done result)) :
    ∃ first second middle, history = first ++ second ∧ Reaches program first (.done middle) ∧
      Reaches (next middle) second (.done result) := by
  rcases h.of_bind with ⟨left, hleft, hdone⟩ | ⟨first, second, middle, hsplit, hfirst, hsecond⟩
  · cases left with
    | done middle =>
        have hnext : next middle = .done result := hdone.symm
        refine ⟨history, [], middle, (List.append_nil history).symm, hleft, ?_⟩
        rw [hnext]
        exact .start
    | call request resume => cases hdone
  · exact ⟨first, second, middle, hsplit, hfirst, hsecond⟩

theorem Reaches.called {request : κ} {resume : Ans request → Program κ Ans α}
    {answer : Ans request} {history : List (Exchange κ Ans)} {rest : Program κ Ans α}
    (h : Reaches (resume answer) history rest) :
    Reaches (.call request resume) (⟨request, answer⟩ :: history) rest := by
  induction h with
  | start => exact .answered answer .start
  | answered given _ ih => exact .answered given ih

/-- The history and the result of a program whose requests are answered by a function. -/
def answeredBy (answers : ∀ request, Ans request) :
    Program κ Ans α → List (Exchange κ Ans) × α
  | .done result => ([], result)
  | .call request resume =>
      let rest := (resume (answers request)).answeredBy answers
      (⟨request, answers request⟩ :: rest.1, rest.2)

/-- However its requests are answered, a program comes to its end. -/
theorem reaches_answeredBy (answers : ∀ request, Ans request) (program : Program κ Ans α) :
    Reaches program (program.answeredBy answers).1 (.done (program.answeredBy answers).2) := by
  induction program with
  | done result => exact .start
  | call request resume ih => exact (ih (answers request)).called

/-- What a program whose requests are answered by a function comes to. -/
def result (answers : ∀ request, Ans request) (program : Program κ Ans α) : α :=
  (program.answeredBy answers).2

@[simp] theorem result_done (answers : ∀ request, Ans request) (value : α) :
    (Program.done value : Program κ Ans α).result answers = value := rfl

@[simp] theorem result_call (answers : ∀ request, Ans request) (request : κ)
    (resume : Ans request → Program κ Ans α) :
    (Program.call request resume).result answers = (resume (answers request)).result answers := rfl

@[simp] theorem result_bind (answers : ∀ request, Ans request) (program : Program κ Ans α)
    (next : α → Program κ Ans β) :
    (program >>= next).result answers = (next (program.result answers)).result answers := by
  induction program with
  | done value => rfl
  | call request resume ih => exact ih (answers request)

/-! ## Protocols -/

/-- What a program may ask for, what it may assume of the answers, and how it may end. -/
structure Protocol (κ : Type) (Ans : κ → Type) (α σ : Type) where
  permits : σ → κ → Prop
  promises : σ → (request : κ) → Ans request → Prop
  move : σ → (request : κ) → Ans request → σ
  ends : σ → α → Prop

/-- The program keeps to the protocol on every path. -/
def Follows {σ : Type} (protocol : Protocol κ Ans α σ) : σ → Program κ Ans α → Prop
  | state, .done result => protocol.ends state result
  | state, .call request resume => protocol.permits state request ∧
      ∀ answer, protocol.promises state request answer →
        Follows protocol (protocol.move state request answer) (resume answer)

variable {σ : Type} {protocol : Protocol κ Ans α σ} {state : σ}

/-- The rule of an answer. -/
theorem Follows.answered {request : κ} {resume : Ans request → Program κ Ans α}
    (h : Follows protocol state (.call request resume)) (answer : Ans request)
    (hpromise : protocol.promises state request answer) :
    Follows protocol (protocol.move state request answer) (resume answer) :=
  h.2 answer hpromise

/-- The rule of consequence. -/
theorem Follows.imp {ends : σ → α → Prop} {program : Program κ Ans α}
    (h : Follows protocol state program)
    (hends : ∀ state result, protocol.ends state result → ends state result) :
    Follows { protocol with ends } state program := by
  induction program generalizing state with
  | done result => exact hends state result h
  | call request resume ih =>
      exact ⟨h.1, fun answer hpromise ↦ ih answer (h.2 answer hpromise)⟩

/-- The rule of composition: the first part may end wherever the second can go on. -/
theorem Follows.bind {protocol : Protocol κ Ans β σ} {program : Program κ Ans α}
    {next : α → Program κ Ans β}
    (h : Follows ⟨protocol.permits, protocol.promises, protocol.move,
      fun state result ↦ Follows protocol state (next result)⟩ state program) :
    Follows protocol state (program >>= next) := by
  induction program generalizing state with
  | done result => exact h
  | call request resume ih =>
      exact ⟨h.1, fun answer hpromise ↦ ih answer (h.2 answer hpromise)⟩

/-- A state that permits every request, stays as it is and may end with every result is kept to by
every program. -/
theorem follows_of_stable (hpermits : ∀ request, protocol.permits state request)
    (hmove : ∀ request answer, protocol.move state request answer = state)
    (hends : ∀ result, protocol.ends state result) (program : Program κ Ans α) :
    Follows protocol state program := by
  induction program with
  | done result => exact hends result
  | call request resume ih =>
      refine ⟨hpermits request, fun answer _ ↦ ?_⟩
      rw [hmove]
      exact ih answer

/-- The rule of translation: the states of the two protocols stay related, and what the target is
promised keeps the promise of the source. -/
theorem Follows.translate {σ' : Type} {source : Protocol κ Ans α σ} {target : Protocol κ' Ans' α σ'}
    {request' : κ → κ'} {answer : ∀ request, Ans' (request' request) → Ans request}
    {state : σ} {state' : σ'} {program : Program κ Ans α} (related : σ → σ' → Prop)
    (hpermits : ∀ {state state'} request, related state state' → source.permits state request →
      target.permits state' (request' request))
    (hanswer : ∀ {state state'} request given, related state state' →
      source.permits state request → target.promises state' (request' request) given →
        source.promises state request (answer request given) ∧
          related (source.move state request (answer request given))
            (target.move state' (request' request) given))
    (hends : ∀ {state state'} result, related state state' → source.ends state result →
      target.ends state' result)
    (hrelated : related state state') (h : Follows source state program) :
    Follows target state' (program.translate request' answer) := by
  induction program generalizing state state' with
  | done result => exact hends result hrelated h
  | call request resume ih =>
      refine ⟨hpermits request hrelated h.1, fun given hgiven ↦ ?_⟩
      obtain ⟨hpromise, hmoved⟩ := hanswer request given hrelated h.1 hgiven
      exact ih (answer request given) hmoved (h.answered _ hpromise)

/-- The rule of a translation that leaves the state where it is. -/
theorem follows_translate {protocol : Protocol κ' Ans' α σ} {request' : κ → κ'}
    {answer : ∀ request, Ans' (request' request) → Ans request} {program : Program κ Ans α}
    (hpermits : ∀ request, protocol.permits state (request' request))
    (hmove : ∀ request given, protocol.move state (request' request) given = state)
    (hends : ∀ result, protocol.ends state result) :
    Follows protocol state (program.translate request' answer) := by
  induction program with
  | done result => exact hends result
  | call request resume ih =>
      refine ⟨hpermits request, fun given _ ↦ ?_⟩
      rw [hmove]
      exact ih (answer request given)

end Program

end RalphexRunner
