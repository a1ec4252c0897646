import RalphexRunner.PullRequest.Description
import RalphexRunner.Text.Trimming

/-!
# Reading the description finalize wrote

`read` takes the description file back and `parse` turns its content into a title and a body, or
rejects the whole file.  `parse` folds line endings, trims and strips the heading marks of the title
line once each, in that order.
-/

namespace RalphexRunner

/-- The largest description file that is read, in bytes. -/
def readLimit : ℕ := 1024 * 1024

def bodyCharLimit : ℕ := 60000

def bodyByteLimit : ℕ := 100000

/-- Why a description file cannot be used. -/
inductive Unusable where
  | missing
  | notRegular
  | tooLarge
  | unreadable (error : Text)
  | notText
  | nul
  | noTitle
  | emptyTitle
  | longTitle
  | noBody
  | longBody
  deriving DecidableEq

namespace Description

/-- The characters stripped off the start of a title line. -/
def isHeading (character : Char) : Bool := character = '#' ∨ character = ' '

/-- A title line, trimmed and then stripped of every leading heading mark and space. -/
def headingText (line : Text) : Text := (trim line).dropWhile isHeading

/-- The first line that is not blank, and the lines after it. -/
def scan (title : Option Text) (body : List Text) : List Text → Option Text × List Text
  | [] => (title, body)
  | line :: rest =>
      match title with
      | some title => scan (some title) (body ++ [line]) rest
      | none => if (trim line).isEmpty then scan none body rest else scan (some line) body rest

/-- The content of a description file as a title and a body. -/
def parse (content : Text) : Except Unusable Description :=
  if '\x00' ∈ content then .error .nul
  else
    match scan none [] ((foldNewlines content).splitOn '\n') with
    | (none, _) => .error .noTitle
    | (some title, body) =>
        let title := headingText title
        let body := trim (List.intercalate ['\n'] body)
        if title.isEmpty then .error .emptyTitle
        else if titleLimit < title.length then .error .longTitle
        else if body.isEmpty then .error .noBody
        else if bodyByteLimit < Utf8.size body ∨ bodyCharLimit < body.length then .error .longBody
        else .ok ⟨title, body⟩

/-- The description file read: what opening it came to, and then its content. -/
def read (opened : Except Unusable (List UInt8)) : Except Unusable Description :=
  match opened with
  | .error error => .error error
  | .ok content =>
      let content := content.take (readLimit + 1)
      if readLimit < content.length then .error .tooLarge
      else
        match Utf8.check content with
        | .error _ => .error .notText
        | .ok () => parse (Utf8.lossy content)

/-- A description written out: the title, an empty line and the body. -/
def content (description : Description) : Text :=
  description.title ++ '\n' :: '\n' :: description.body

def titleLine (content : Text) : Option Text :=
  ((foldNewlines content).splitOn '\n').find? fun line ↦ !(trim line).isEmpty

/-- The limits of a body. -/
def Fits (body : Text) : Prop := Utf8.size body ≤ bodyByteLimit ∧ body.length ≤ bodyCharLimit

variable {title body : Text}

theorem scan_some (title : Text) (body lines : List Text) :
    scan (some title) body lines = (some title, body ++ lines) := by
  induction lines generalizing body with
  | nil => rw [scan, List.append_nil]
  | cons line rest ih => rw [scan, ih, List.append_assoc, List.singleton_append]

theorem scan_blank {line : Text} (h : trim line = []) (body rest : List Text) :
    scan none body (line :: rest) = scan none body rest := by
  simp [scan, h]

theorem scan_line {line : Text} (h : trim line ≠ []) (body rest : List Text) :
    scan none body (line :: rest) = (some line, body ++ rest) := by
  simp [scan, h, scan_some]

/-- The scan stops at the first line that is not blank; everything behind it is the body. -/
theorem scan_eq_some {lines : List Text} {line : Text} {body : List Text}
    (h : scan none [] lines = (some line, body)) :
    lines.find? (fun line ↦ !(trim line).isEmpty) = some line ∧ line ∈ lines ∧
      body <:+ lines := by
  induction lines with
  | nil => cases h
  | cons first rest ih =>
      by_cases hblank : trim first = []
      · rw [scan_blank hblank] at h
        obtain ⟨hfind, hmem, hbody⟩ := ih h
        rw [List.find?_cons_of_neg (by simp [hblank])]
        exact ⟨hfind, List.mem_cons_of_mem first hmem, hbody.trans (List.suffix_cons first rest)⟩
      · rw [scan_line hblank, Prod.mk.injEq, Option.some.injEq] at h
        obtain ⟨rfl, rfl⟩ := h
        rw [List.find?_cons_of_pos (by simpa using hblank)]
        exact ⟨rfl, List.mem_cons_self, List.suffix_cons first rest⟩

/-- What a description file is accepted for. -/
structure Accepts (content title body : Text) : Prop where
  nul : '\x00' ∉ content
  scanned : ∃ line rest, scan none [] ((foldNewlines content).splitOn '\n') = (some line, rest) ∧
    headingText line = title ∧ trim (List.intercalate ['\n'] rest) = body
  titled : title ≠ []
  short : title.length ≤ titleLimit
  described : body ≠ []
  fits : Fits body

/-- What is accepted is what the grammar says. -/
theorem parse_eq_ok_iff {content : Text} :
    parse content = .ok ⟨title, body⟩ ↔ Accepts content title body := by
  constructor
  · intro h
    unfold parse at h
    split at h
    · cases h
    rename_i hnul
    split at h
    · cases h
    rename_i line rest hscan
    dsimp only at h
    split at h
    · cases h
    split at h
    · cases h
    split at h
    · cases h
    split at h
    · cases h
    rename_i htitle hlong hbody hbig
    cases h
    obtain ⟨hbytes, hchars⟩ := not_or.mp hbig
    exact ⟨hnul, ⟨line, rest, hscan, rfl, rfl⟩, by simpa using htitle, Nat.le_of_not_lt hlong,
      by simpa using hbody, Nat.le_of_not_lt hbytes, Nat.le_of_not_lt hchars⟩
  · rintro ⟨hnul, ⟨line, rest, hscan, rfl, rfl⟩, htitle, hshort, hbody, hbytes, hchars⟩
    rw [parse, if_neg hnul, hscan]
    dsimp only
    rw [if_neg (by simpa using htitle), if_neg (Nat.not_lt.mpr hshort),
      if_neg (by simpa using hbody),
      if_neg (not_or.mpr ⟨Nat.not_lt.mpr hbytes, Nat.not_lt.mpr hchars⟩)]

theorem headingText_isInfix (line : Text) : headingText line <:+: line :=
  (List.dropWhile_suffix _).isInfix.trans (trim_isInfix line)

theorem isHeading_head (line : Text) {character : Char}
    (h : (headingText line).head? = some character) : isHeading character = false := by
  have hnot := List.head?_dropWhile_not isHeading (trim line)
  rw [show (trim line).dropWhile isHeading = headingText line from rfl, h] at hnot
  simpa using hnot

/-- What every accepted description is; its title may still begin with white space other than a
space. -/
structure Normal (description : Description) : Prop where
  oneLine : '\n' ∉ description.title
  titled : description.title ≠ []
  trimmedEnd : trimEnd description.title = description.title
  unmarked : ∀ character, description.title.head? = some character → isHeading character = false
  short : description.title.length ≤ titleLimit
  described : description.body ≠ []
  trimmed : trim description.body = description.body
  fits : Fits description.body
  nul : '\x00' ∉ description.title ∧ '\x00' ∉ description.body

theorem notMem_of_isInfix {part text : Text} {character : Char} (h : character ∉ text)
    (hpart : part <:+: text) : character ∉ part := fun hmem ↦ h (hpart.subset hmem)

/-- A description that was accepted is in normal form. -/
theorem normal_of_accepts {content : Text} (h : Accepts content title body) :
    Normal ⟨title, body⟩ := by
  obtain ⟨hnul, ⟨line, rest, hscan, rfl, rfl⟩, htitle, hshort, hbody, hfits⟩ := h
  obtain ⟨-, hmem, hsuffix⟩ := scan_eq_some hscan
  obtain ⟨hline, hrest⟩ := infix_of_mem_splitOn hmem hsuffix
  have hnul : '\x00' ∉ foldNewlines content :=
    fun hmem ↦ hnul ((foldNewlines_sublist content).subset hmem)
  exact {
    oneLine := notMem_of_isInfix (notMem_of_mem_splitOn hmem) (headingText_isInfix line)
    titled := htitle
    trimmedEnd := trimEnd_of_suffix (trimEnd_trim line) (List.dropWhile_suffix _)
    unmarked := fun character ↦ isHeading_head line
    short := hshort
    described := hbody
    trimmed := trim_trim _
    fits := hfits
    nul := ⟨notMem_of_isInfix hnul ((headingText_isInfix line).trans hline),
      notMem_of_isInfix hnul ((trim_isInfix _).trans hrest)⟩ }

theorem dropWhile_isHeading
    (h : ∀ character, title.head? = some character → isHeading character = false) :
    title.dropWhile isHeading = title := by
  cases title with
  | nil => rfl
  | cons character rest => exact List.dropWhile_cons_of_neg (by simp [h character rfl])

theorem foldNewlines_trimmed (h : trim body = body) :
    trim (foldNewlines body) = foldNewlines body := by
  obtain ⟨hstart, hend⟩ := trim_eq_self_iff.mp h
  rw [trimStart_eq_self_iff] at hstart
  rw [trimEnd_eq_self_iff] at hend
  rw [trim_eq_self_iff, trimStart_eq_self_iff, trimEnd_eq_self_iff, getLast?_foldNewlines]
  refine ⟨?_, hend⟩
  rw [head?_foldNewlines]
  · exact hstart
  · intro hreturn
    exact absurd (hstart '\r' hreturn) (by decide)

/-- The lines of a description that was written out. -/
theorem splitOn_content {description : Description} (h : description.Normal) :
    (foldNewlines description.content).splitOn '\n' =
      description.title :: [] :: (foldNewlines description.body).splitOn '\n' := by
  have hlast : description.title.getLast? ≠ some '\r' := fun hreturn ↦
    absurd (trimEnd_eq_self_iff.mp h.trimmedEnd '\r' hreturn) (by decide)
  have hempty (rest : Text) : foldNewlines ('\n' :: rest) = '\n' :: foldNewlines rest :=
    foldNewlines_line List.not_mem_nil nofun rest
  rw [content, foldNewlines_line h.oneLine hlast, hempty,
    List.splitOn_append_cons_self_of_not_mem h.oneLine,
    ← List.nil_append ('\n' :: foldNewlines description.body),
    List.splitOn_append_cons_self_of_not_mem List.not_mem_nil]

/-- A description whose title is trimmed is read again as it is, but for its line endings. -/
theorem parse_content {description : Description} (h : description.Normal)
    (htrim : trim description.title = description.title) :
    parse description.content =
      .ok ⟨description.title, foldNewlines description.body⟩ := by
  obtain ⟨title, body⟩ := description
  have hfolded := foldNewlines_sublist body
  refine parse_eq_ok_iff.mpr ⟨?_, ⟨title, [] :: (foldNewlines body).splitOn '\n', ?_, ?_, ?_⟩,
    h.titled, h.short, ?_, ?_⟩
  · rw [content, List.mem_append, List.mem_cons, List.mem_cons, not_or, not_or, not_or]
    exact ⟨h.nul.1, by decide, by decide, h.nul.2⟩
  · rw [splitOn_content h, scan_line (by rw [htrim]; exact h.titled), List.nil_append]
  · rw [headingText, htrim]
    exact dropWhile_isHeading h.unmarked
  · rw [List.intercalate_cons_of_ne_nil (List.splitOn_ne_nil _ _), List.intercalate_splitOn,
      List.nil_append, List.singleton_append, trim_cons_of_blank (by decide)]
    exact foldNewlines_trimmed h.trimmed
  · intro hnone
    have hlast := getLast?_foldNewlines body
    rw [hnone] at hlast
    exact h.described (List.getLast?_eq_none_iff.mp hlast.symm)
  · exact ⟨(Utf8.size_le_of_sublist hfolded).trans h.fits.1, hfolded.length_le.trans h.fits.2⟩

/-! ## The normal form -/

theorem normal_of_parse {content : Text} {description : Description}
    (h : parse content = .ok description) : description.Normal :=
  normal_of_accepts (parse_eq_ok_iff.mp h)

/-- What is read was parsed. -/
theorem normal_of_read {opened : Except Unusable (List UInt8)} {description : Description}
    (h : read opened = .ok description) : description.Normal := by
  unfold read at h
  split at h
  · cases h
  dsimp only at h
  split at h
  · cases h
  split at h
  · cases h
  · exact normal_of_parse h

theorem Accepts.titleLine {content : Text} (h : Accepts content title body) :
    ∃ line, titleLine content = some line ∧ headingText line = title := by
  obtain ⟨line, rest, hscan, htitle, -⟩ := h.scanned
  exact ⟨line, (scan_eq_some hscan).1, htitle⟩

/-- Nothing is stripped off a trimmed line that has no heading mark. -/
theorem headingText_of_unmarked {line : Text} (h : (trim line).head? ≠ some '#') :
    headingText line = trim line := by
  apply dropWhile_isHeading
  intro character hhead
  have hblank := trimStart_eq_self_iff.mp (trimStart_trim line) character hhead
  rw [isHeading, decide_eq_false_iff_not, not_or]
  constructor
  · rintro rfl
    exact h hhead
  · rintro rfl
    exact absurd hblank (by decide)

/-- **What `parse` accepts is in normal form**, but for what it does once only: white space other
than a space stays behind the heading marks of a title line, and a carriage return stays in front of
one that is folded away.  A description whose title is trimmed is accepted again with the same
title, and comes back the same exactly where its body holds no `"\r\n"`. -/
theorem parse_normal_form {content : Text} {description : Description}
    (h : parse content = .ok description) :
    description.Normal ∧
    (∀ line, titleLine content = some line → (trim line).head? ≠ some '#' →
      trim description.title = description.title) ∧
    (trim description.title = description.title →
      parse description.content =
          .ok ⟨description.title, foldNewlines description.body⟩ ∧
        (parse description.content = .ok description ↔ ¬ HoldsCrlf description.body)) := by
  obtain ⟨title, body⟩ := description
  have haccepts := parse_eq_ok_iff.mp h
  have hnormal := normal_of_accepts haccepts
  refine ⟨hnormal, ?_, fun htrim ↦ ?_⟩
  · intro line hline hunmarked
    obtain ⟨first, hfirst, htitle⟩ := haccepts.titleLine
    rw [hline] at hfirst
    cases hfirst
    change trim title = title
    rw [← htitle, headingText_of_unmarked hunmarked]
    exact trim_trim line
  · have hagain := parse_content hnormal htrim
    refine ⟨hagain, ?_⟩
    rw [hagain, Except.ok.injEq, Description.mk.injEq, ← foldNewlines_eq_self_iff]
    exact ⟨fun hsame ↦ hsame.2, fun hsame ↦ ⟨rfl, hsame⟩⟩

/-- A tab behind the heading mark stays in the title, and a description read again can lose a
carriage return. -/
theorem parse_not_normal :
    (parse "#\tx\n\ny".toList = .ok ⟨"\tx".toList, "y".toList⟩ ∧
        trim "\tx".toList ≠ "\tx".toList ∧
        parse (content ⟨"\tx".toList, "y".toList⟩) = .ok ⟨"x".toList, "y".toList⟩) ∧
      parse "x\n\na\r\r\nb".toList = .ok ⟨"x".toList, "a\r\nb".toList⟩ ∧
        parse (content ⟨"x".toList, "a\r\nb".toList⟩) = .ok ⟨"x".toList, "a\nb".toList⟩ := by
  decide

theorem parse_normal_form_plain :
    parse "# x\r\n\ny".toList = .ok ⟨"x".toList, "y".toList⟩ ∧
      (⟨"x".toList, "y".toList⟩ : Description).Normal := by
  have hparse : parse "# x\r\n\ny".toList = .ok ⟨"x".toList, "y".toList⟩ := by decide
  exact ⟨hparse, (parse_normal_form hparse).1⟩

end Description

end RalphexRunner
