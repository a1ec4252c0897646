import RalphexRunner.Text.Utf8

/-!
# Escape sequences removed from a line

`plain` is the automaton of `ansi.rs`: it forgets every escape sequence of a text, and an escape
whose sequence does not complete takes the rest of the text with it.
-/

namespace RalphexRunner.Ansi

def esc : Char := '\x1b'

def bel : Char := '\x07'

/-- Where the automaton stands between two characters. -/
inductive State where
  | text
  | escape
  | csiParameters
  | csiIntermediates
  | osc
  | oscEscape
  deriving DecidableEq

def isParameter (character : Char) : Bool := '\x30' ≤ character ∧ character ≤ '\x3f'

def isIntermediate (character : Char) : Bool := '\x20' ≤ character ∧ character ≤ '\x2f'

def isFinal (character : Char) : Bool := '\x40' ≤ character ∧ character ≤ '\x7e'

def State.next (state : State) (character : Char) : State :=
  match state with
  | .text => if character = esc then .escape else .text
  | .escape =>
      if character = '[' then .csiParameters
      else if character = ']' then .osc
      else if character = esc then .escape
      else .text
  | .csiParameters =>
      if isParameter character then .csiParameters
      else if isIntermediate character then .csiIntermediates
      else if isFinal character then .text
      else if character = esc then .escape
      else .text
  | .csiIntermediates =>
      if isIntermediate character then .csiIntermediates
      else if isFinal character then .text
      else if character = esc then .escape
      else .text
  | .osc =>
      if character = bel then .text
      else if character = esc then .oscEscape
      else .osc
  | .oscEscape =>
      if character = '\\' then .text
      else if character = esc then .oscEscape
      else .osc

/-- What one character contributes: only one read as text and not an escape is written. -/
def State.written (state : State) (character : Char) : Text :=
  if state = .text ∧ character ≠ esc then [character] else []

def plainFrom (state : State) : Text → Text
  | [] => []
  | character :: rest => state.written character ++ plainFrom (state.next character) rest

/-- A text with every escape sequence removed. -/
def plain (text : Text) : Text := plainFrom .text text

def State.after (state : State) (text : Text) : State := text.foldl State.next state

@[simp] theorem State.after_nil (state : State) : state.after [] = state := rfl

@[simp] theorem State.after_cons (state : State) (character : Char) (rest : Text) :
    state.after (character :: rest) = (state.next character).after rest := rfl

theorem State.after_append (state : State) (first second : Text) :
    state.after (first ++ second) = (state.after first).after second :=
  List.foldl_append

@[simp] theorem plainFrom_nil (state : State) : plainFrom state [] = [] := rfl

theorem plainFrom_cons (state : State) (character : Char) (rest : Text) :
    plainFrom state (character :: rest) =
      state.written character ++ plainFrom (state.next character) rest := rfl

theorem plainFrom_append (state : State) (first second : Text) :
    plainFrom state (first ++ second) =
      plainFrom state first ++ plainFrom (state.after first) second := by
  induction first generalizing state with
  | nil => rfl
  | cons character rest ih =>
      rw [List.cons_append, plainFrom_cons, plainFrom_cons, ih, List.append_assoc]
      rfl

/-- A text that ends between sequences is stripped for itself. -/
theorem plain_append {text : Text} (h : State.text.after text = .text) (more : Text) :
    plain (text ++ more) = plain text ++ plain more := by
  rw [plain, plainFrom_append, h]
  rfl

theorem esc_notMem_written (state : State) (character : Char) :
    esc ∉ state.written character := by
  unfold State.written
  split
  · rename_i hwritten
    simpa using Ne.symm hwritten.2
  · simp

theorem esc_notMem_plainFrom (state : State) (text : Text) : esc ∉ plainFrom state text := by
  induction text generalizing state with
  | nil => simp
  | cons character rest ih =>
      rw [plainFrom_cons, List.mem_append, not_or]
      exact ⟨esc_notMem_written state character, ih _⟩

/-- No escape is left of a text. -/
theorem esc_notMem_plain (text : Text) : esc ∉ plain text := esc_notMem_plainFrom .text text

theorem written_sublist (state : State) (character : Char) :
    (state.written character).Sublist [character] := by
  unfold State.written
  split
  · exact List.Sublist.refl _
  · exact List.nil_sublist _

theorem plainFrom_sublist (state : State) (text : Text) : (plainFrom state text).Sublist text := by
  induction text generalizing state with
  | nil => exact List.Sublist.refl _
  | cons character rest ih =>
      rw [plainFrom_cons, ← List.singleton_append]
      exact (written_sublist state character).append (ih _)

theorem plain_sublist (text : Text) : (plain text).Sublist text := plainFrom_sublist .text text

/-- A text without an escape is left as it is, and no sequence is under way after it. -/
theorem plain_of_esc_notMem {text : Text} (h : esc ∉ text) :
    plain text = text ∧ State.text.after text = .text := by
  induction text with
  | nil => exact ⟨rfl, rfl⟩
  | cons character rest ih =>
      rw [List.mem_cons, not_or] at h
      obtain ⟨hplain, hafter⟩ := ih h.2
      have hnext : State.text.next character = .text := if_neg (Ne.symm h.1)
      have hwritten : State.text.written character = [character] :=
        if_pos ⟨rfl, Ne.symm h.1⟩
      rw [plain, plainFrom_cons, State.after_cons, hnext, hwritten]
      exact ⟨congrArg (character :: ·) hplain, hafter⟩

theorem plain_plain (text : Text) : plain (plain text) = plain text :=
  (plain_of_esc_notMem (esc_notMem_plain text)).1

example : plain "\x1b[32mok\x1b[0m".toList = "ok".toList := by decide

end RalphexRunner.Ansi
