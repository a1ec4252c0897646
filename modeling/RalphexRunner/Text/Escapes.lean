import Mathlib.Data.List.Induction
import RalphexRunner.Text.Ansi

/-!
# The grammar of escape sequences

The sequences `plain` documents: a CSI, an OSC ended by a BEL or by an escape and a backslash, and a
bare escape.  A text is spelled by runs without an escape and complete sequences, with an incomplete
sequence at its end or none.  The automaton agrees with this grammar but for one corner: a BEL right
behind an escape inside an OSC does not end it, so the text up to the next end of an OSC is lost.
-/

namespace RalphexRunner.Ansi

/-- How an OSC sequence ends. -/
inductive OscEnd where
  | bell
  | backslash
  deriving DecidableEq

def OscEnd.spelled : OscEnd → Text
  | .bell => [bel]
  | .backslash => [esc, '\\']

/-- The text of an OSC sequence has no end of one in it. -/
structure OscBody (body : Text) : Prop where
  bell : bel ∉ body
  backslash : ¬ [esc, '\\'] <:+: body

/-- A complete sequence, without the escapes that introduce it. -/
inductive Sequence where
  | csi (parameters intermediates : Text) (final : Char)
      (hparameters : ∀ character ∈ parameters, isParameter character)
      (hintermediates : ∀ character ∈ intermediates, isIntermediate character)
      (hfinal : isFinal final)
  | osc (body : Text) (close : OscEnd) (hbody : OscBody body)
  | bare (character : Char)
      (hcharacter : character ≠ '[' ∧ character ≠ ']' ∧ character ≠ esc)

def Sequence.spelled : Sequence → Text
  | .csi parameters intermediates final _ _ _ =>
      '[' :: (parameters ++ (intermediates ++ [final]))
  | .osc body close _ => ']' :: (body ++ close.spelled)
  | .bare character _ => [character]

/-- A sequence that the end of the text cuts short, without the escapes that introduce it. -/
inductive Unfinished where
  | escape
  | csi (parameters intermediates : Text)
      (hparameters : ∀ character ∈ parameters, isParameter character)
      (hintermediates : ∀ character ∈ intermediates, isIntermediate character)
  | osc (body : Text) (hbody : OscBody body)

def Unfinished.spelled : Unfinished → Text
  | .escape => []
  | .csi parameters intermediates _ _ => '[' :: (parameters ++ intermediates)
  | .osc body _ => ']' :: body

def escapes (more : ℕ) : Text := List.replicate (more + 1) esc

/-- A run of text, or a sequence introduced by one escape and `more` others. -/
inductive Item where
  | run (text : Text) (htext : esc ∉ text)
  | sequence (more : ℕ) (body : Sequence)

def Item.spelled : Item → Text
  | .run text _ => text
  | .sequence more body => escapes more ++ body.spelled

def Item.text : Item → Text
  | .run text _ => text
  | .sequence _ _ => []

/-- A text as the grammar spells it. -/
structure Spelling where
  items : List Item
  last : Option (ℕ × Unfinished)

/-- The incomplete sequence at the end, if there is one. -/
def lastSpelled : Option (ℕ × Unfinished) → Text
  | none => []
  | some (more, unfinished) => escapes more ++ unfinished.spelled

def Spelling.spelled (spelling : Spelling) : Text :=
  spelling.items.flatMap Item.spelled ++ lastSpelled spelling.last

def Spelling.runs (spelling : Spelling) : Text := spelling.items.flatMap Item.text

/-- An OSC sequence whose BEL follows an escape directly. -/
def Sequence.lapses : Sequence → Bool
  | .osc body .bell _ => body.getLast? = some esc
  | _ => false

/-- A sequence that ends an OSC sequence still open before it. -/
def Sequence.closes : Sequence → Bool
  | .csi _ _ _ _ _ _ => false
  | .osc body .bell _ => body.getLast? ≠ some esc
  | .osc _ .backslash _ => true
  | .bare character _ => character = '\\'

/-- No run of text stands where an OSC sequence that lapsed is still open; `lapsed` says whether one
is. -/
def Undisturbed : (lapsed : Bool) → List Item → Prop
  | _, [] => True
  | false, .run _ _ :: rest => Undisturbed false rest
  | true, .run text _ :: rest => text = [] ∧ Undisturbed true rest
  | false, .sequence _ body :: rest => Undisturbed body.lapses rest
  | true, .sequence _ body :: rest => Undisturbed (!body.closes) rest

def between (lapsed : Bool) : State := if lapsed then .osc else .text

/-- The automaton goes on to `next` and writes nothing. -/
def Passes (state : State) (text : Text) (next : State) : Prop :=
  state.after text = next ∧ plainFrom state text = []

theorem Passes.nil (state : State) : Passes state [] state := ⟨rfl, rfl⟩

theorem Passes.append {first second : Text} {state middle next : State}
    (hfirst : Passes state first middle) (hsecond : Passes middle second next) :
    Passes state (first ++ second) next := by
  obtain ⟨hafter, hwritten⟩ := hfirst
  refine ⟨?_, ?_⟩
  · rw [State.after_append, hafter]
    exact hsecond.1
  · rw [plainFrom_append, hwritten, hafter, List.nil_append]
    exact hsecond.2

theorem Passes.cons {character : Char} {rest : Text} {state next : State}
    (hwritten : state.written character = []) (hrest : Passes (state.next character) rest next) :
    Passes state (character :: rest) next :=
  ⟨hrest.1, by rw [plainFrom_cons, hwritten, hrest.2, List.append_nil]⟩

/-- Outside the text state nothing is written. -/
theorem written_of_ne_text {state : State} (h : state ≠ .text) (character : Char) :
    state.written character = [] :=
  if_neg fun hwritten ↦ h hwritten.1

theorem passes_single {state : State} (h : state ≠ .text) (character : Char) :
    Passes state [character] (state.next character) :=
  .cons (written_of_ne_text h character) (.nil _)

/-- Characters on which a state other than the text state stays where it is. -/
theorem passes_of_stays {state : State} (h : state ≠ .text) {text : Text}
    (hstays : ∀ character ∈ text, state.next character = state) : Passes state text state := by
  induction text with
  | nil => exact .nil state
  | cons character rest ih =>
      apply Passes.cons (written_of_ne_text h character)
      rw [hstays character List.mem_cons_self]
      exact ih fun other hother ↦ hstays other (List.mem_cons_of_mem character hother)

/-- The state after the escapes that introduce a sequence. -/
def introduced (lapsed : Bool) : State := if lapsed then .oscEscape else .escape

theorem passes_escapes (lapsed : Bool) (more : ℕ) :
    Passes (between lapsed) (escapes more) (introduced lapsed) := by
  have hne : introduced lapsed ≠ .text := by cases lapsed <;> nofun
  have hfirst : (between lapsed).next esc = introduced lapsed := by cases lapsed <;> rfl
  have hmore : (introduced lapsed).next esc = introduced lapsed := by cases lapsed <;> rfl
  apply Passes.cons (by cases lapsed <;> rfl)
  rw [hfirst]
  apply passes_of_stays hne
  intro character hcharacter
  rw [List.eq_of_mem_replicate hcharacter, hmore]


theorem not_parameter_of_final {character : Char} (h : isFinal character) :
    isParameter character = false := by
  simp only [isFinal, isParameter, decide_eq_true_eq, decide_eq_false_iff_not, Char.le_def] at h ⊢
  intro hother
  exact absurd (UInt32.le_trans h.1 hother.2) (by decide)

theorem not_intermediate_of_final {character : Char} (h : isFinal character) :
    isIntermediate character = false := by
  simp only [isFinal, isIntermediate, decide_eq_true_eq, decide_eq_false_iff_not,
    Char.le_def] at h ⊢
  intro hother
  exact absurd (UInt32.le_trans h.1 hother.2) (by decide)

theorem not_parameter_of_intermediate {character : Char} (h : isIntermediate character) :
    isParameter character = false := by
  simp only [isIntermediate, isParameter, decide_eq_true_eq, decide_eq_false_iff_not,
    Char.le_def] at h ⊢
  intro hother
  exact absurd (UInt32.le_trans hother.1 h.2) (by decide)

def isControl (character : Char) : Bool :=
  isParameter character || isIntermediate character || isFinal character

/-- No character of a control sequence is an escape or a BEL. -/
theorem ne_of_isControl {character : Char} (h : isControl character) :
    character ≠ bel ∧ character ≠ esc := by
  refine ⟨?_, ?_⟩ <;> rintro rfl <;> exact absurd h (by decide)

/-- The characters of a control sequence leave an OSC sequence open. -/
theorem passes_control_osc {text : Text} (h : ∀ character ∈ text, isControl character) :
    Passes .osc text .osc := by
  apply passes_of_stays (by nofun)
  intro character hcharacter
  obtain ⟨hbel, hesc⟩ := ne_of_isControl (h character hcharacter)
  exact (if_neg hbel).trans (if_neg hesc)

theorem passes_parameters {parameters : Text}
    (h : ∀ character ∈ parameters, isParameter character) :
    Passes .csiParameters parameters .csiParameters := by
  apply passes_of_stays (by nofun)
  exact fun character hcharacter ↦ if_pos (h character hcharacter)

/-- The intermediates end the parameters, if there are any. -/
theorem passes_intermediates {intermediates : Text}
    (h : ∀ character ∈ intermediates, isIntermediate character) :
    ∃ state, (state = .csiParameters ∨ state = .csiIntermediates) ∧
      Passes .csiParameters intermediates state := by
  cases intermediates with
  | nil => exact ⟨_, .inl rfl, .nil _⟩
  | cons first rest =>
      have hfirst := h first List.mem_cons_self
      have hnext : State.csiParameters.next first = .csiIntermediates := by
        simp only [State.next, not_parameter_of_intermediate hfirst, hfirst, if_true,
          Bool.false_eq_true, if_false]
      refine ⟨_, .inr rfl, .cons rfl ?_⟩
      rw [hnext]
      apply passes_of_stays (by nofun)
      exact fun character hcharacter ↦ if_pos (h character (List.mem_cons_of_mem _ hcharacter))

theorem passes_final {state : State} (hstate : state = .csiParameters ∨ state = .csiIntermediates)
    {final : Char} (h : isFinal final) : Passes state [final] .text := by
  have hnext : state.next final = .text := by
    rcases hstate with rfl | rfl <;>
      simp only [State.next, not_parameter_of_final h, not_intermediate_of_final h, h, if_true,
        Bool.false_eq_true, if_false]
  have hinside : state ≠ .text := by
    rcases hstate with rfl | rfl <;> nofun
  have hpasses := passes_single hinside final
  rwa [hnext] at hpasses

/-- The body of an OSC sequence leaves it open, and remembers an escape at its end. -/
theorem passes_body {body : Text} (h : OscBody body) :
    Passes .osc body (if body.getLast? = some esc then .oscEscape else .osc) := by
  induction body using List.reverseRecOn with
  | nil => exact .nil _
  | append_singleton earlier last ih =>
      have hearlier : OscBody earlier :=
        ⟨fun hmem ↦ h.bell (List.mem_append_left _ hmem),
          fun hclosed ↦ h.backslash (hclosed.trans (List.infix_append' [] earlier [last]))⟩
      have hbel : last ≠ bel := fun heq ↦ h.bell (by simp [heq])
      rw [List.getLast?_concat]
      apply (ih hearlier).append
      split
      · rename_i hescape
        -- a backslash here would have ended the sequence
        have hlast : last ≠ '\\' := by
          rintro rfl
          obtain ⟨front, rfl⟩ := List.getLast?_eq_some_iff.mp hescape
          exact h.backslash ⟨front, [], by simp⟩
        have hnext : State.oscEscape.next last =
            if some last = some esc then .oscEscape else .osc := by
          simp only [State.next, hlast, if_false, Option.some.injEq]
        rw [← hnext]
        exact passes_single (by nofun) last
      · have hnext : State.osc.next last = if some last = some esc then .oscEscape else .osc := by
          simp only [State.next, hbel, if_false, Option.some.injEq]
        rw [← hnext]
        exact passes_single (by nofun) last

theorem passes_csi {parameters intermediates : Text} {final : Char}
    (hparameters : ∀ character ∈ parameters, isParameter character)
    (hintermediates : ∀ character ∈ intermediates, isIntermediate character)
    (hfinal : isFinal final) :
    Passes .escape ('[' :: (parameters ++ (intermediates ++ [final]))) .text := by
  obtain ⟨state, hstate, hpasses⟩ := passes_intermediates hintermediates
  apply Passes.cons rfl
  exact (passes_parameters hparameters).append (hpasses.append (passes_final hstate hfinal))

/-- A control sequence inside an OSC sequence leaves it open. -/
theorem passes_csi_osc {text : Text} (h : ∀ character ∈ text, isControl character) :
    Passes .oscEscape ('[' :: text) .osc :=
  .cons rfl (passes_control_osc h)

theorem isControl_of_csi {parameters intermediates : Text} {final : Char}
    (hparameters : ∀ character ∈ parameters, isParameter character)
    (hintermediates : ∀ character ∈ intermediates, isIntermediate character)
    (hfinal : isFinal final) :
    ∀ character ∈ parameters ++ (intermediates ++ [final]), isControl character := by
  intro character hcharacter
  unfold isControl
  rcases List.mem_append.mp hcharacter with hparameter | hrest
  · simp [hparameters character hparameter]
  · rcases List.mem_append.mp hrest with hintermediate | hlast
    · simp [hintermediates character hintermediate]
    · rw [List.mem_singleton.mp hlast]
      simp [hfinal]

/-- An OSC sequence ends as its body and its end say, wherever it began. -/
theorem passes_osc (lapsed : Bool) {body : Text} (hbody : OscBody body) (close : OscEnd) :
    Passes (introduced lapsed) (']' :: (body ++ close.spelled))
      (between (Sequence.osc body close hbody).lapses) := by
  have hopen : Passes (introduced lapsed) [']'] .osc := by
    cases lapsed <;> exact ⟨rfl, rfl⟩
  rw [← List.singleton_append]
  apply hopen.append
  apply (passes_body hbody).append
  cases close with
  | bell =>
      simp only [Sequence.lapses, OscEnd.spelled]
      by_cases hescape : body.getLast? = some esc
      · simp only [hescape, if_true, decide_true]
        exact ⟨rfl, rfl⟩
      · simp only [hescape, if_false, decide_false]
        exact ⟨rfl, rfl⟩
  | backslash =>
      split <;> exact ⟨rfl, rfl⟩

theorem lapses_osc {body : Text} {close : OscEnd} (hbody : OscBody body) :
    (!(Sequence.osc body close hbody).closes) = (Sequence.osc body close hbody).lapses := by
  cases close <;> simp [Sequence.closes, Sequence.lapses]

/-- Whether an OSC sequence is open after a sequence that should have ended none. -/
def Sequence.leaves (lapsed : Bool) (body : Sequence) : Bool :=
  if lapsed then !body.closes else body.lapses

/-- What the automaton does with a whole sequence. -/
theorem passes_sequence (lapsed : Bool) (body : Sequence) :
    Passes (introduced lapsed) body.spelled (between (body.leaves lapsed)) := by
  cases body with
  | csi parameters intermediates final hparameters hintermediates hfinal =>
      cases lapsed with
      | false => exact passes_csi hparameters hintermediates hfinal
      | true => exact passes_csi_osc (isControl_of_csi hparameters hintermediates hfinal)
  | osc body close hbody =>
      have hleaves : (Sequence.osc body close hbody).leaves lapsed =
          (Sequence.osc body close hbody).lapses := by
        cases lapsed with
        | false => rfl
        | true => exact lapses_osc hbody
      rw [hleaves]
      exact passes_osc lapsed hbody close
  | bare character hcharacter =>
      obtain ⟨hcsi, hosc, hesc⟩ := hcharacter
      have hnext : (introduced lapsed).next character =
          between ((Sequence.bare character ⟨hcsi, hosc, hesc⟩).leaves lapsed) := by
        cases lapsed with
        | false =>
            exact (if_neg hcsi).trans ((if_neg hosc).trans (if_neg hesc))
        | true =>
            by_cases hend : character = '\\'
            · subst hend
              rfl
            · simp only [introduced, if_true, State.next, hend, if_false, if_neg hesc,
                Sequence.leaves, Sequence.closes, decide_false, Bool.not_false, between]
      rw [← hnext]
      exact passes_single (by cases lapsed <;> nofun) character

/-- The end of the text takes an incomplete sequence with it. -/
theorem plainFrom_unfinished (lapsed : Bool) (unfinished : Unfinished) :
    plainFrom (introduced lapsed) unfinished.spelled = [] := by
  cases unfinished with
  | escape => rfl
  | csi parameters intermediates hparameters hintermediates =>
      cases lapsed with
      | false =>
          obtain ⟨state, -, hpasses⟩ := passes_intermediates hintermediates
          have hcsi : Passes .escape ('[' :: (parameters ++ intermediates)) state :=
            .cons rfl ((passes_parameters hparameters).append hpasses)
          exact hcsi.2
      | true =>
          have hcontrol : ∀ character ∈ parameters ++ intermediates, isControl character := by
            intro character hcharacter
            unfold isControl
            rcases List.mem_append.mp hcharacter with hparameter | hintermediate
            · simp [hparameters character hparameter]
            · simp [hintermediates character hintermediate]
          exact (passes_csi_osc hcontrol).2
  | osc body hbody =>
      have hosc : Passes (introduced lapsed) (']' :: body)
          (if body.getLast? = some esc then .oscEscape else .osc) := by
        apply Passes.cons (by cases lapsed <;> rfl)
        cases lapsed <;> exact passes_body hbody
      exact hosc.2

/-- A run of text inside an open OSC sequence loses a character at least: up to a BEL, or all. -/
theorem osc_run {text : Text} (h : esc ∉ text) :
    (∃ lapsed, State.osc.after text = between lapsed) ∧
      (plainFrom .osc text).length ≤ text.length ∧
        (text ≠ [] → (plainFrom .osc text).length < text.length) := by
  induction text with
  | nil => exact ⟨⟨true, rfl⟩, Nat.le_refl _, fun hne ↦ absurd rfl hne⟩
  | cons first rest ih =>
      rw [List.mem_cons, not_or] at h
      have hwritten : State.osc.written first = [] := written_of_ne_text (by nofun) first
      rw [State.after_cons, plainFrom_cons, hwritten, List.nil_append, List.length_cons]
      by_cases hbel : first = bel
      · have hnext : State.osc.next first = .text := if_pos hbel
        obtain ⟨hplain, hafter⟩ := plain_of_esc_notMem h.2
        rw [hnext]
        change _ ∧ (plain rest).length ≤ _ ∧ (_ → (plain rest).length < _)
        rw [hplain]
        exact ⟨⟨false, hafter⟩, Nat.le_succ _, fun _ ↦ Nat.lt_succ_self _⟩
      · have hnext : State.osc.next first = .osc := (if_neg hbel).trans (if_neg (Ne.symm h.1))
        obtain ⟨hafter, hlength, -⟩ := ih h.2
        rw [hnext]
        exact ⟨hafter, Nat.le_succ_of_le hlength, fun _ ↦ Nat.lt_succ_of_le hlength⟩

/-! ## Whole texts -/

theorem plainFrom_last (lapsed : Bool) (last : Option (ℕ × Unfinished)) :
    plainFrom (between lapsed) (lastSpelled last) = [] := by
  cases last with
  | none => rfl
  | some last =>
      obtain ⟨hafter, hwritten⟩ := passes_escapes lapsed last.1
      rw [lastSpelled, plainFrom_append, hwritten, hafter, plainFrom_unfinished]
      rfl

/-- A run of text between sequences is written as it is. -/
theorem plainFrom_run {text : Text} (h : esc ∉ text) (rest : Text) :
    plainFrom (between false) (text ++ rest) = text ++ plainFrom (between false) rest := by
  obtain ⟨hplain, hafter⟩ := plain_of_esc_notMem h
  rw [plainFrom_append]
  change plain text ++ plainFrom (State.text.after text) rest = _
  rw [hplain, hafter]
  rfl

theorem plainFrom_sequence (lapsed : Bool) (more : ℕ) (body : Sequence) (rest : Text) :
    plainFrom (between lapsed) ((Item.sequence more body).spelled ++ rest) =
      plainFrom (between (body.leaves lapsed)) rest := by
  obtain ⟨hafter, hwritten⟩ := (passes_escapes lapsed more).append (passes_sequence lapsed body)
  rw [plainFrom_append]
  change plainFrom (between lapsed) (escapes more ++ body.spelled) ++ _ = _
  rw [hwritten]
  change plainFrom ((between lapsed).after (escapes more ++ body.spelled)) rest = _
  rw [hafter]

/-- What is written of the items from a given state on: all their text where no OSC sequence lapsed
over a run, and less than that otherwise. -/
theorem plainFrom_items (last : Option (ℕ × Unfinished)) (items : List Item) (lapsed : Bool) :
    (Undisturbed lapsed items →
      plainFrom (between lapsed) (items.flatMap Item.spelled ++ lastSpelled last) =
        items.flatMap Item.text) ∧
    (plainFrom (between lapsed) (items.flatMap Item.spelled ++ lastSpelled last)).length ≤
      (items.flatMap Item.text).length ∧
    (¬ Undisturbed lapsed items →
      (plainFrom (between lapsed) (items.flatMap Item.spelled ++ lastSpelled last)).length <
        (items.flatMap Item.text).length) := by
  induction items generalizing lapsed with
  | nil =>
      have hnone : plainFrom (between lapsed) (([] : List Item).flatMap Item.spelled ++
          lastSpelled last) = [] := plainFrom_last lapsed last
      rw [hnone]
      exact ⟨fun _ ↦ rfl, Nat.le_refl _, fun hnot ↦ absurd (by cases lapsed <;> trivial) hnot⟩
  | cons item rest ih =>
      rw [List.flatMap_cons, List.flatMap_cons, List.append_assoc]
      cases item with
      | sequence more body =>
          rw [plainFrom_sequence]
          cases lapsed with
          | false => exact ih body.lapses
          | true => exact ih (!body.closes)
      | run text htext =>
          cases lapsed with
          | false =>
              obtain ⟨hkept, hlength, hlost⟩ := ih false
              simp only [Item.spelled, Item.text, plainFrom_run htext, List.length_append]
              refine ⟨fun h ↦ ?_, Nat.add_le_add_left hlength _, fun hnot ↦ ?_⟩
              · rw [hkept h]
              · exact Nat.add_lt_add_left (hlost hnot) _
          | true =>
              obtain ⟨⟨lapsed, hafter⟩, hrun, hstrict⟩ := osc_run htext
              have hread : plainFrom (between true) (text ++ (rest.flatMap Item.spelled ++
                  lastSpelled last)) = plainFrom .osc text ++ plainFrom (between lapsed)
                    (rest.flatMap Item.spelled ++ lastSpelled last) := by
                rw [plainFrom_append]
                change _ ++ plainFrom (State.osc.after text) _ = _
                rw [hafter]
                rfl
              have hlength := (ih lapsed).2.1
              simp only [Item.spelled, Item.text, hread, List.length_append]
              refine ⟨fun h ↦ ?_, Nat.add_le_add hrun hlength, fun hnot ↦ ?_⟩
              · obtain ⟨rfl, hrest⟩ := h
                have hopen : lapsed = true := by
                  cases lapsed with
                  | true => rfl
                  | false => cases hafter
                rw [hopen]
                exact (ih true).1 hrest
              · by_cases hempty : text = []
                · subst hempty
                  have hopen : lapsed = true := by
                    cases lapsed with
                    | true => rfl
                    | false => cases hafter
                  have hrest : ¬ Undisturbed true rest := fun hrest ↦ hnot ⟨rfl, hrest⟩
                  rw [hopen]
                  exact Nat.add_lt_add_of_le_of_lt hrun ((ih true).2.2 hrest)
                · exact Nat.add_lt_add_of_lt_of_le (hstrict hempty) hlength

/-- **The automaton agrees with the grammar** on a text, an incomplete sequence at its end included,
exactly where no OSC sequence whose BEL follows an escape is still open over a run of text. -/
theorem plain_spelled (spelling : Spelling) :
    plain spelling.spelled = spelling.runs ↔ Undisturbed false spelling.items := by
  obtain ⟨hkept, -, hlost⟩ := plainFrom_items spelling.last spelling.items false
  refine ⟨fun hplain ↦ ?_, hkept⟩
  by_contra hnot
  have hshorter : (plain spelling.spelled).length < spelling.runs.length := hlost hnot
  rw [hplain] at hshorter
  exact Nat.lt_irrefl _ hshorter

/-- An OSC sequence whose BEL follows an escape, and a run behind it. -/
def openOsc : Spelling :=
  ⟨[.sequence 0 (.osc [esc] .bell ⟨by decide, by decide⟩), .run ['b'] (by decide)], none⟩

/-- The run behind the BEL that ends the sequence is lost. -/
theorem osc_bell_after_escape :
    openOsc.spelled = [esc, ']', esc, bel, 'b'] ∧ openOsc.runs = ['b'] ∧
      plain openOsc.spelled ≠ openOsc.runs := ⟨rfl, rfl, by decide⟩

end RalphexRunner.Ansi
