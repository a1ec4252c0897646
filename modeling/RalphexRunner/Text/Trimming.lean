import Mathlib.Data.List.DropRight
import Mathlib.Data.List.Infix
import RalphexRunner.Text.Chars

/-!
# Trimmed texts and folded line endings

A text is trimmed where it neither begins nor ends with white space.  `foldNewlines` drops each
carriage return that stands directly before a newline, once: of a run of carriage returns the last
alone is dropped.
-/

namespace RalphexRunner

/-- Every `"\r\n"` of a text replaced by `"\n"`. -/
def foldNewlines : Text → Text
  | [] => []
  | character :: rest =>
      if character = '\r' ∧ rest.head? = some '\n' then foldNewlines rest
      else character :: foldNewlines rest

/-- A carriage return stands directly before a newline somewhere in the text. -/
def HoldsCrlf (text : Text) : Prop := ['\r', '\n'] <:+: text

instance (text : Text) : Decidable (HoldsCrlf text) := by
  unfold HoldsCrlf
  infer_instance

variable {text : Text} {character : Char}

theorem head?_trimStart (text : Text) {character : Char}
    (h : (trimStart text).head? = some character) : isWhitespace character = false := by
  have hnot := List.head?_dropWhile_not isWhitespace text
  rw [show text.dropWhile isWhitespace = trimStart text from rfl, h] at hnot
  simpa using hnot

theorem trimStart_eq_self_iff : trimStart text = text ↔
    ∀ character, text.head? = some character → isWhitespace character = false := by
  constructor
  · intro h character hhead
    rw [← h] at hhead
    exact head?_trimStart text hhead
  · intro h
    cases text with
    | nil => rfl
    | cons character rest =>
        have hblank := h character rfl
        exact List.dropWhile_cons_of_neg (by simp [hblank])

theorem trimEnd_eq_reverse (text : Text) : trimEnd text = (trimStart text.reverse).reverse := rfl

theorem trimEnd_trimEnd (text : Text) : trimEnd (trimEnd text) = trimEnd text :=
  List.rdropWhile_idempotent isWhitespace text

theorem trimEnd_eq_self_iff : trimEnd text = text ↔
    ∀ character, text.getLast? = some character → isWhitespace character = false := by
  rw [trimEnd_eq_reverse, ← List.head?_reverse, ← trimStart_eq_self_iff]
  exact ⟨fun h ↦ by rw [← List.reverse_inj, h, List.reverse_reverse],
    fun h ↦ by rw [h, List.reverse_reverse]⟩

theorem trimStart_isSuffix (text : Text) : trimStart text <:+ text := List.dropWhile_suffix _

theorem trimEnd_isPrefix (text : Text) : trimEnd text <+: text :=
  List.rdropWhile_prefix isWhitespace text

theorem trim_isInfix (text : Text) : trim text <:+: text :=
  (trimEnd_isPrefix _).isInfix.trans (trimStart_isSuffix text).isInfix

theorem trimEnd_trim (text : Text) : trimEnd (trim text) = trim text := trimEnd_trimEnd _

/-- Nothing that ends a text earlier changes how it begins. -/
theorem trimStart_trim (text : Text) : trimStart (trim text) = trim text := by
  rw [trimStart_eq_self_iff]
  intro character hhead
  obtain ⟨rest, hrest⟩ := List.head?_eq_some_iff.mp hhead
  obtain ⟨more, hmore⟩ := trimEnd_isPrefix (trimStart text)
  apply head?_trimStart text
  rw [← hmore, show trimEnd (trimStart text) = trim text from rfl, hrest]
  rfl

theorem trim_eq_self_iff : trim text = text ↔ trimStart text = text ∧ trimEnd text = text := by
  constructor
  · intro h
    rw [← h]
    exact ⟨trimStart_trim text, trimEnd_trim text⟩
  · rintro ⟨hstart, hend⟩
    rw [trim, hstart, hend]

theorem trim_trim (text : Text) : trim (trim text) = trim text :=
  trim_eq_self_iff.mpr ⟨trimStart_trim text, trimEnd_trim text⟩

theorem trim_cons_of_blank (h : isWhitespace character = true) (text : Text) :
    trim (character :: text) = trim text := by
  rw [trim, trim, trimStart, trimStart, List.dropWhile_cons_of_pos h]

/-- The end of a trimmed text is trimmed too, and no white space stands behind it. -/
theorem trimEnd_of_suffix {rest : Text} (h : trimEnd text = text) (hrest : rest <:+ text) :
    trimEnd rest = rest := by
  rw [trimEnd_eq_self_iff] at h ⊢
  intro character hlast
  obtain ⟨front, rfl⟩ := hrest
  exact h character (by rw [List.getLast?_append, hlast, Option.some_or])

theorem intercalate_suffix (sep : Text) {lines rest : List Text} (h : rest <:+ lines) :
    sep.intercalate rest <:+ sep.intercalate lines := by
  obtain ⟨front, rfl⟩ := h
  induction front with
  | nil => exact List.suffix_rfl
  | cons line front ih =>
      by_cases hnone : front ++ rest = []
      · rw [(List.append_eq_nil_iff.mp hnone).2]
        exact List.nil_suffix
      · rw [List.cons_append, List.intercalate_cons_of_ne_nil hnone]
        exact ih.trans (List.suffix_append _ _)

/-- A line of a text that was split stands in it, and so do the lines from one of them on. -/
theorem infix_of_mem_splitOn {line : Text} {rest : List Text}
    (hline : line ∈ text.splitOn character) (hrest : rest <:+ text.splitOn character) :
    line <:+: text ∧ [character].intercalate rest <:+: text := by
  have hwhole : [character].intercalate (text.splitOn character) = text :=
    List.intercalate_splitOn character
  constructor
  · obtain ⟨before, after, hsplit⟩ := List.append_of_mem hline
    have hsuffix := intercalate_suffix [character] ⟨before, hsplit.symm⟩
    rw [hwhole] at hsuffix
    refine List.IsInfix.trans (List.IsPrefix.isInfix ?_) hsuffix.isInfix
    cases after with
    | nil =>
        have hone : [character].intercalate [line] = line := List.intercalate_singleton
        exact ⟨[], by rw [List.append_nil, hone]⟩
    | cons next after =>
        rw [List.intercalate_cons_of_ne_nil (List.cons_ne_nil _ _), List.append_assoc]
        exact List.prefix_append _ _
  · have hsuffix := intercalate_suffix [character] hrest
    rw [hwhole] at hsuffix
    exact hsuffix.isInfix

/-- A line that was split off at newlines holds none. -/
theorem notMem_of_mem_splitOn {text line : Text} (h : line ∈ text.splitOn '\n') :
    '\n' ∉ line := by
  induction text generalizing line with
  | nil =>
      rw [List.splitOn_nil, List.mem_singleton] at h
      rw [h]
      exact List.not_mem_nil
  | cons character rest ih =>
      rw [List.splitOn_cons_eq_if_modifyHead] at h
      split at h
      · rcases List.mem_cons.mp h with rfl | hmem
        · exact List.not_mem_nil
        · exact ih hmem
      · rename_i hnewline
        obtain ⟨first, others, hsplit⟩ :=
          List.exists_cons_of_ne_nil (List.splitOn_ne_nil '\n' rest)
        rw [hsplit] at ih h
        rcases List.mem_cons.mp h with rfl | hmem
        · rw [List.mem_cons, not_or]
          exact ⟨fun hsame ↦ hnewline (beq_iff_eq.mpr hsame.symm), ih List.mem_cons_self⟩
        · exact ih (List.mem_cons_of_mem first hmem)

theorem foldNewlines_cons (character : Char) (rest : Text) : foldNewlines (character :: rest) =
    if character = '\r' ∧ rest.head? = some '\n' then foldNewlines rest
    else character :: foldNewlines rest := rfl

theorem foldNewlines_sublist (text : Text) : List.Sublist (foldNewlines text) text := by
  induction text with
  | nil => exact .slnil
  | cons character rest ih =>
      rw [foldNewlines_cons]
      split
      · exact ih.cons character
      · exact ih.cons_cons character

/-- Nothing is folded in a text that does not begin with a carriage return. -/
theorem head?_foldNewlines (h : text.head? ≠ some '\r') :
    (foldNewlines text).head? = text.head? := by
  cases text with
  | nil => rfl
  | cons character rest =>
      have hcharacter : character ≠ '\r' := fun hsame ↦ h (congrArg some hsame)
      rw [foldNewlines_cons, if_neg fun hboth ↦ hcharacter hboth.1]
      rfl

/-- Something stands behind every carriage return that is dropped. -/
theorem getLast?_foldNewlines (text : Text) : (foldNewlines text).getLast? = text.getLast? := by
  induction text with
  | nil => rfl
  | cons character rest ih =>
      rw [foldNewlines_cons]
      split
      · rename_i hfold
        obtain ⟨more, rfl⟩ := List.head?_eq_some_iff.mp hfold.2
        rw [ih, List.getLast?_cons_cons]
      · rw [List.getLast?_cons, List.getLast?_cons, ih]

/-- Folding changes the texts with a `"\r\n"` in them. -/
theorem foldNewlines_eq_self_iff : foldNewlines text = text ↔ ¬ HoldsCrlf text := by
  induction text with
  | nil => simp [foldNewlines, HoldsCrlf]
  | cons character rest ih =>
      rw [foldNewlines_cons, HoldsCrlf, List.infix_cons_iff, not_or]
      split
      · rename_i hfold
        obtain ⟨rfl, hhead⟩ := hfold
        obtain ⟨more, rfl⟩ := List.head?_eq_some_iff.mp hhead
        constructor
        · intro h
          have hlength := (foldNewlines_sublist ('\n' :: more)).length_le
          rw [h] at hlength
          exact absurd hlength (by simp)
        · rintro ⟨hno, -⟩
          exact absurd ⟨more, rfl⟩ hno
      · rename_i hkeep
        rw [List.cons_inj_right, ih]
        refine ⟨fun h ↦ ⟨fun hhere ↦ hkeep ?_, h⟩, fun h ↦ h.2⟩
        obtain ⟨more, hmore⟩ := hhere
        cases hmore
        exact ⟨rfl, rfl⟩

/-- A line that does not end in a carriage return is left as it is. -/
theorem foldNewlines_line {line : Text} (hline : '\n' ∉ line) (hlast : line.getLast? ≠ some '\r')
    (rest : Text) : foldNewlines (line ++ '\n' :: rest) = line ++ '\n' :: foldNewlines rest := by
  induction line with
  | nil => exact if_neg fun hboth ↦ absurd hboth.1 (by decide)
  | cons character line ih =>
      obtain ⟨hcharacter, hrest⟩ := not_or.mp (List.mem_cons.not.mp hline)
      rw [List.cons_append, foldNewlines_cons, if_neg]
      · rw [ih hrest]
        · rfl
        · intro hreturn
          rw [List.getLast?_cons, hreturn] at hlast
          exact hlast rfl
      · rintro ⟨rfl, hhead⟩
        cases line with
        | nil => exact hlast rfl
        | cons next line =>
            cases hhead
            exact hrest List.mem_cons_self

end RalphexRunner
