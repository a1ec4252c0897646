import Mathlib.Data.List.DropRight
import RalphexRunner.Plan.Parse
import RalphexRunner.Text.Trimming

/-!
# Line endings of a plan

Behind the one carriage return that is stripped, a line may end in more of them.  No line pattern
asks for the end of a line other than through a rest that is trimmed, so a carriage return more
changes nothing: each pattern is first brought into a closed form, and the closed form is compared
on a line with and without it.  The bare `#` is the one line whose kind changes, from no pattern to
a heading without text, and neither has an effect.
-/

namespace RalphexRunner.Planfile

open Pattern (takeMany takeMany_eq takeMany_of_stuck takeMany_bounded takeFew_of_stuck
  takeMany_append run_literal run_seq run_one run_group_rest Stuck)

section Texts

variable {set : Char → Bool}

theorem takeWhile_return (h : set '\r' = false) (text : Text) :
    (text ++ ['\r']).takeWhile set = text.takeWhile set := by
  induction text with
  | nil => rw [List.nil_append, List.takeWhile_cons_of_neg (by simp [h]), List.takeWhile_nil]
  | cons character rest ih =>
      rw [List.cons_append, List.takeWhile_cons, List.takeWhile_cons, ih]

theorem dropWhile_return (h : set '\r' = false) (text : Text) :
    (text ++ ['\r']).dropWhile set = text.dropWhile set ++ ['\r'] := by
  rw [List.dropWhile_append]
  split
  · rename_i hnone
    rw [List.isEmpty_iff.mp hnone, List.dropWhile_cons_of_neg (by simp [h])]
    rfl
  · rfl

/-- White space goes on to the end of a text or stops before its carriage return. -/
theorem dropWhile_blank (text : Text) :
    (text ++ ['\r']).dropWhile isWhitespace =
      if text.dropWhile isWhitespace = [] then [] else text.dropWhile isWhitespace ++ ['\r'] := by
  rw [List.dropWhile_append]
  simp only [List.isEmpty_iff]
  rfl

/-- A carriage return stays behind a prefix that is taken off. -/
theorem stripPrefix_return {opening : Text} (h : '\r' ∉ opening) (text : Text) :
    stripPrefix (text ++ ['\r']) opening = (stripPrefix text opening).map (· ++ ['\r']) := by
  induction opening generalizing text with
  | nil => rfl
  | cons first rest ih =>
      obtain ⟨hfirst, hrest⟩ := not_or.mp (List.mem_cons.not.mp h)
      cases text with
      | nil =>
          have hneg : ¬ (first :: rest).isPrefixOf ['\r'] = true := by
            rw [List.isPrefixOf_cons_cons, Bool.and_eq_true, not_and_or]
            exact .inl (by simpa using Ne.symm hfirst)
          rw [List.nil_append, stripPrefix, if_neg hneg]
          rfl
      | cons character text =>
          have hcons (more : Text) : stripPrefix (character :: more) (first :: rest) =
              if first = character then stripPrefix more rest else none := by
            unfold stripPrefix
            rw [List.isPrefixOf_cons_cons]
            by_cases hsame : first = character
            · simp [hsame]
            · simp [hsame]
          rw [List.cons_append, hcons, hcons]
          split
          · exact ih hrest text
          · rfl

theorem trimStart_return (text : Text) : trimStart (text ++ ['\r']) =
    if trimStart text = [] then [] else trimStart text ++ ['\r'] := dropWhile_blank text

theorem trimEnd_return (text : Text) : trimEnd (text ++ ['\r']) = trimEnd text := by
  rw [trimEnd, trimEnd, List.reverse_append, List.reverse_singleton, List.singleton_append,
    List.dropWhile_cons_of_pos (by decide)]

@[simp] theorem trim_return (text : Text) : trim (text ++ ['\r']) = trim text := by
  rw [trim, trim, trimStart_return]
  split
  · rename_i hnone
    rw [hnone]
  · exact trimEnd_return _

/-- Trimming sees white space at the start no more once it is gone. -/
@[simp] theorem trim_dropWhile (text : Text) : trim (text.dropWhile isWhitespace) = trim text := by
  rw [trim, trim, trimStart, trimStart, List.dropWhile_idempotent]

theorem all_dot_return (text : Text) : (text ++ ['\r']).all dot = text.all dot := by
  rw [List.all_append, Bool.and_eq_left_iff_imp]
  exact fun _ ↦ rfl

theorem all_of_suffix {text rest : Text} (h : text.all dot = true) (hrest : rest <:+ text) :
    rest.all dot = true := by
  rw [List.all_eq_true] at h ⊢
  exact fun character hmem ↦ h character (hrest.subset hmem)

end Texts

/-- What `(.*)$` makes of the rest of a line. -/
def restGroup : Text → Option (List Text) :=
  (Pattern.sequence [.group (.many 0 none dot), .finish]).run fun _ ↦ some []

theorem restGroup_eq (text : Text) :
    restGroup text = if text.all dot then some [text] else none := run_group_rest dot text

/-- What follows matches where every character left is one a dot stands for. -/
def AsRest (next : Text → Option (List Text)) : Prop :=
  ∀ rest, (next rest).isSome = rest.all dot

theorem restGroup_asRest : AsRest restGroup := by
  intro rest
  rw [restGroup_eq]
  cases rest.all dot <;> rfl

theorem AsRest.map {next : Text → Option (List Text)} (h : AsRest next)
    (view : Text → List Text → List Text) : AsRest fun rest ↦ (next rest).map (view rest) := by
  intro rest
  rw [Option.isSome_map, h]

/-- Nothing is gained by giving the rest some characters back. -/
theorem takeMany_rest {set : Char → Bool} {next : Text → Option (List Text)} (h : AsRest next)
    (least : ℕ) (text : Text) :
    takeMany set next least none text =
      if least ≤ (text.takeWhile set).length then next (text.dropWhile set) else none := by
  refine takeMany_eq (fun character rest _ hnone ↦ ?_) least text
  have hbroken := h (rest.dropWhile set)
  rw [hnone] at hbroken
  rw [← Option.not_isSome_iff_eq_none, h]
  intro hall
  rw [all_of_suffix hall ((List.dropWhile_suffix set).trans (List.suffix_cons character rest))]
    at hbroken
  cases hbroken

theorem restGroup_of_free {text : Text} (h : text.all dot = true) :
    restGroup text = some [text] := by
  rw [restGroup_eq, if_pos h]

theorem take_dropWhile (set : Char → Bool) (text : Text) :
    text.take (text.length - (text.dropWhile set).length) = text.takeWhile set := by
  have hsplit : text.takeWhile set ++ text.dropWhile set = text :=
    List.takeWhile_append_dropWhile
  generalize text.takeWhile set = front at hsplit ⊢
  generalize text.dropWhile set = back at hsplit ⊢
  rw [← hsplit, List.length_append, Nat.add_sub_cancel, List.take_left]

def groups (both : Text × Text) : List Text := [both.1, both.2]

theorem bind_pair (found : Option (Text × Text)) : (found.map groups).bind pair = found := by
  cases found <;> rfl

/-- A run of at least three of a mark, and what follows it. -/
def runOf (mark : Char) (text : Text) : Option (Text × Text) :=
  if 3 ≤ (text.takeWhile fun character ↦ character = mark).length then
    some (text.takeWhile fun character ↦ character = mark,
      text.dropWhile fun character ↦ character = mark)
  else none

/-- The run of a fence from the start of a text, with the rest behind it. -/
def fenceRun (text : Text) : Option (List Text) :=
  (Pattern.sequence [
    .group (.either (.many 3 none fun character ↦ character = '\x60')
      (.many 3 none fun character ↦ character = '~')),
    .group (.many 0 none dot),
    .finish]).run (fun _ ↦ some []) text

theorem fenceRun_eq (text : Text) : fenceRun text =
    (takeMany (fun character ↦ character = '\x60') (fun rest ↦ (restGroup rest).map
        fun groups ↦ text.take (text.length - rest.length) :: groups) 3 none text).or
      (takeMany (fun character ↦ character = '~') (fun rest ↦ (restGroup rest).map
        fun groups ↦ text.take (text.length - rest.length) :: groups) 3 none text) := rfl

theorem takeMany_run (mark : Char) {text : Text} (hfree : text.all dot = true) :
    takeMany (fun character ↦ character = mark) (fun rest ↦ (restGroup rest).map
        fun groups ↦ text.take (text.length - rest.length) :: groups) 3 none text =
      (runOf mark text).map groups := by
  rw [takeMany_rest (restGroup_asRest.map _), runOf]
  split
  · rw [restGroup_of_free (all_of_suffix hfree (List.dropWhile_suffix _)), Option.map_some,
      take_dropWhile]
    rfl
  · rfl

theorem fenceRun_of_free {text : Text} (hfree : text.all dot = true) :
    fenceRun text = ((runOf '\x60' text).or (runOf '~' text)).map groups := by
  rw [fenceRun_eq, takeMany_run _ hfree, takeMany_run _ hfree, Option.map_or]

theorem fenceRun_stuck : Stuck (fun character ↦ decide (character = ' ')) fenceRun := by
  intro character rest hspace
  obtain rfl : character = ' ' := by simpa using hspace
  rw [fenceRun_eq, takeMany_rest (restGroup_asRest.map _),
    takeMany_rest (restGroup_asRest.map _)]
  rfl

/-- A fence: at most three spaces, then a run of one of the two marks. -/
theorem fence_eq {line : Text} (hfree : line.all dot = true) : fence line =
    if (line.takeWhile fun character ↦ character = ' ').length ≤ 3 then
      (runOf '\x60' (line.dropWhile fun character ↦ character = ' ')).or
        (runOf '~' (line.dropWhile fun character ↦ character = ' '))
    else none := by
  have hcaptures : fencePattern.captures line =
      takeMany (fun character ↦ character = ' ') fenceRun 0 (some 3) line := rfl
  rw [fence, hcaptures, takeMany_bounded fenceRun_stuck]
  split
  · rw [fenceRun_of_free (all_of_suffix hfree (List.dropWhile_suffix _)), bind_pair]
  · rfl

theorem runOf_return {mark : Char} (h : mark ≠ '\r') (text : Text) :
    runOf mark (text ++ ['\r']) =
      (runOf mark text).map fun both ↦ (both.1, both.2 ++ ['\r']) := by
  have hset : (decide ('\r' = mark)) = false := by simpa using Ne.symm h
  rw [runOf, runOf, takeWhile_return hset, dropWhile_return hset]
  split <;> rfl

/-- A carriage return belongs to the rest of a fence. -/
theorem fence_return {line : Text} (hfree : line.all dot = true) :
    fence (line ++ ['\r']) = (fence line).map fun both ↦ (both.1, both.2 ++ ['\r']) := by
  rw [fence_eq hfree, fence_eq ((all_dot_return line).trans hfree),
    takeWhile_return (by decide), dropWhile_return (by decide), runOf_return (by decide),
    runOf_return (by decide), ← Option.map_or]
  split <;> rfl

theorem closesFence_return {line : Text} (hfree : line.all dot = true) (opener : Text) :
    closesFence (line ++ ['\r']) opener = closesFence line opener := by
  rw [closesFence, closesFence, fence_return hfree]
  cases fence line with
  | none => rfl
  | some both => simp

theorem run_stripPrefix (opening : Text) (next : Text → Option (List Text)) (text : Text) :
    (Pattern.literal opening).run next text = (stripPrefix text opening).bind next := by
  rw [run_literal, stripPrefix]
  split <;> rfl

theorem suffix_of_stripPrefix {text opening rest : Text}
    (h : stripPrefix text opening = some rest) : rest <:+ text := by
  unfold stripPrefix at h
  split at h
  · cases h
    exact List.drop_suffix _ _
  · cases h

theorem eq_of_stripPrefix_nil {text opening : Text} (h : stripPrefix text opening = some []) :
    text = opening := by
  unfold stripPrefix at h
  split at h
  · rename_i hprefix
    obtain ⟨rest, rfl⟩ := List.isPrefixOf_iff_prefix.mp hprefix
    rw [List.drop_left, Option.some_inj] at h
    rw [h, List.append_nil]
  · cases h

/-- A heading: a mark, some white space, and the rest. -/
theorem heading_eq {line : Text} (hfree : line.all dot = true) : heading line =
    (stripPrefix line ['#']).bind fun text ↦
      if 1 ≤ (text.takeWhile isWhitespace).length then some (text.dropWhile isWhitespace)
      else none := by
  have hcaptures : titlePattern.captures line =
      (Pattern.literal "#".toList).run (takeMany isWhitespace restGroup 1 none) line := rfl
  rw [heading, hcaptures, run_stripPrefix]
  change ((stripPrefix line ['#']).bind _).bind single = _
  cases hstrip : stripPrefix line ['#'] with
  | none => rfl
  | some text =>
      have htext := all_of_suffix hfree (suffix_of_stripPrefix hstrip)
      rw [Option.bind_some, Option.bind_some, takeMany_rest restGroup_asRest]
      split
      · rw [restGroup_of_free (all_of_suffix htext (List.dropWhile_suffix _))]
        rfl
      · rfl

/-- A carriage return behind a heading is trimmed; behind a bare mark it makes a blank one. -/
theorem heading_return {line : Text} (hfree : line.all dot = true) :
    (heading (line ++ ['\r'])).map trim =
      if line = ['#'] then some [] else (heading line).map trim := by
  rw [heading_eq hfree, heading_eq ((all_dot_return line).trans hfree),
    stripPrefix_return (by decide)]
  by_cases hbare : line = ['#']
  · subst hbare
    rfl
  · rw [if_neg hbare]
    cases hstrip : stripPrefix line ['#'] with
    | none => rfl
    | some text =>
        cases text with
        | nil => exact absurd (eq_of_stripPrefix_nil hstrip) hbare
        | cons character rest =>
            rw [Option.map_some, Option.bind_some, Option.bind_some, List.cons_append]
            by_cases hblank : isWhitespace character = true
            · rw [List.takeWhile_cons_of_pos hblank, List.takeWhile_cons_of_pos hblank,
                if_pos (by simp), if_pos (by simp), Option.map_some, Option.map_some,
                trim_dropWhile, trim_dropWhile, ← List.cons_append, trim_return]
            · rw [List.takeWhile_cons_of_neg hblank, List.takeWhile_cons_of_neg hblank]
              rfl

/-- A section: two marks, and no third. -/
theorem isSection_eq {line : Text} (hfree : line.all dot = true) : isSection line =
    (stripPrefix line ['#', '#']).any fun text ↦ text.head? ≠ some '#' := by
  have hcaptures : sectionPattern.captures line = (Pattern.literal "##".toList).run
      (fun text ↦ ((Pattern.one fun character ↦ character ≠ '#').run
          (takeMany dot (fun rest ↦ if rest.isEmpty then some [] else none) 0 none) text).or
        (if text.isEmpty then some [] else none)) line := rfl
  rw [isSection, Pattern.isMatch, hcaptures, run_stripPrefix]
  change ((stripPrefix line ['#', '#']).bind _).isSome = _
  cases hstrip : stripPrefix line ['#', '#'] with
  | none => rfl
  | some text =>
      have htext := all_of_suffix hfree (suffix_of_stripPrefix hstrip)
      rw [Option.bind_some, Option.any_some]
      cases text with
      | nil => rfl
      | cons character rest =>
          have hrest : rest.dropWhile dot = [] := by
            rw [List.dropWhile_eq_nil_iff]
            exact fun other hother ↦ List.all_eq_true.mp htext other (List.mem_cons_of_mem _ hother)
          rw [run_one, takeMany_of_stuck (fun _ _ _ ↦ rfl), hrest]
          by_cases hmark : character = '#'
          · rw [hmark]
            rfl
          · simp [hmark]

theorem isSection_return {line : Text} (hfree : line.all dot = true) :
    isSection (line ++ ['\r']) = isSection line := by
  rw [isSection_eq hfree, isSection_eq ((all_dot_return line).trans hfree),
    stripPrefix_return (by decide), Option.any_map]
  cases stripPrefix line ['#', '#'] with
  | none => rfl
  | some text => cases text <;> rfl

/-- Some white space and a word, and what follows them. -/
def spaced (word text : Text) : Option Text :=
  if 1 ≤ (text.takeWhile isWhitespace).length then
    stripPrefix (text.dropWhile isWhitespace) word
  else none

theorem stripPrefix_nil {word : Text} (h : word ≠ []) : stripPrefix [] word = none := by
  cases word with
  | nil => exact absurd rfl h
  | cons first rest => rfl

theorem stripPrefix_blank {word : Text} (h : '\r' ∉ word) (hsome : word ≠ []) (text : Text) :
    stripPrefix ((text ++ ['\r']).dropWhile isWhitespace) word =
      (stripPrefix (text.dropWhile isWhitespace) word).map (· ++ ['\r']) := by
  rw [dropWhile_blank]
  split
  · rename_i hnone
    rw [hnone, stripPrefix_nil hsome]
    rfl
  · exact stripPrefix_return h _

theorem spaced_return {word : Text} (h : '\r' ∉ word) (hsome : word ≠ []) (text : Text) :
    spaced word (text ++ ['\r']) = (spaced word text).map (· ++ ['\r']) := by
  cases text with
  | nil =>
      have hword : stripPrefix (['\r'].dropWhile isWhitespace) word = none := stripPrefix_nil hsome
      rw [List.nil_append, spaced, hword, ite_self]
      rfl
  | cons character rest =>
      rw [spaced, spaced, stripPrefix_blank h hsome, List.cons_append]
      by_cases hblank : isWhitespace character = true
      · rw [List.takeWhile_cons_of_pos hblank, List.takeWhile_cons_of_pos hblank,
          if_pos (by simp), if_pos (by simp)]
      · rw [List.takeWhile_cons_of_neg hblank, List.takeWhile_cons_of_neg hblank]
        rfl

/-- A word that does not start with white space does not match behind some. -/
theorem stripPrefix_of_blank {character : Char} (h : isWhitespace character = true) {word : Text}
    (hword : word.head?.any (fun first ↦ !isWhitespace first) = true) (rest : Text) :
    stripPrefix (character :: rest) word = none := by
  cases word with
  | nil => cases hword
  | cons first more =>
      rw [stripPrefix, List.isPrefixOf_cons_cons, if_neg]
      rw [List.head?_cons, Option.any_some] at hword
      have hdifferent : first ≠ character := by
        rintro rfl
        rw [h] at hword
        cases hword
      simp [hdifferent]

/-- White space gives nothing back where a word follows it. -/
theorem takeMany_word {next : Text → Option (List Text)} {word : Text}
    (h : word.head?.any (fun first ↦ !isWhitespace first) = true) (least : ℕ) (text : Text) :
    takeMany isWhitespace ((Pattern.literal word).run next) least none text =
      if least ≤ (text.takeWhile isWhitespace).length then
        (stripPrefix (text.dropWhile isWhitespace) word).bind next
      else none := by
  have hstuck : Stuck isWhitespace ((Pattern.literal word).run next) := by
    intro character rest hblank
    rw [run_stripPrefix, stripPrefix_of_blank hblank h]
    rfl
  rw [takeMany_of_stuck hstuck, run_stripPrefix]

/-- The mark of a checkbox, its bracket and the rest. -/
def marked : Text → Option (Text × Text)
  | [] => none
  | mark :: text =>
      if mark = ' ' ∨ mark = 'x' ∨ mark = 'X' then
        (stripPrefix text [']']).map fun rest ↦ ([mark], rest.dropWhile isWhitespace)
      else none

/-- What follows the opening bracket of a checkbox. -/
def markRun : Text → Option (List Text) :=
  (Pattern.sequence [
    .group (.one fun character ↦ character = ' ' ∨ character = 'x' ∨ character = 'X'),
    .literal "]".toList,
    .many 0 none isWhitespace,
    .group (.many 0 none dot),
    .finish]).run fun _ ↦ some []

/-- What follows the mark of a checkbox. -/
theorem markRun_eq {text : Text} (hfree : text.all dot = true) :
    markRun text = (marked text).map groups := by
  cases text with
  | nil => rfl
  | cons mark text =>
      have hrun : markRun (mark :: text) =
          if decide (mark = ' ' ∨ mark = 'x' ∨ mark = 'X') = true then
            ((Pattern.literal "]".toList).run (takeMany isWhitespace restGroup 0 none) text).map
              fun groups ↦ (mark :: text).take ((mark :: text).length - text.length) :: groups
          else none := rfl
      have hmark : (mark :: text).take ((mark :: text).length - text.length) = [mark] := by
        rw [List.length_cons, Nat.add_sub_cancel_left]
        rfl
      rw [hrun, marked, hmark, run_stripPrefix]
      simp only [decide_eq_true_eq]
      split
      · change ((stripPrefix text [']']).bind _).map _ = _
        cases hstrip : stripPrefix text [']'] with
        | none => rfl
        | some rest =>
            have hrest : rest.all dot = true := all_of_suffix hfree
              ((suffix_of_stripPrefix hstrip).trans (List.suffix_cons mark text))
            rw [Option.bind_some, takeMany_rest restGroup_asRest, if_pos (Nat.zero_le _),
              restGroup_of_free (all_of_suffix hrest (List.dropWhile_suffix _))]
            rfl
      · rfl

/-- A checkbox: a dash behind white space, a mark in brackets behind some more, and the rest. -/
theorem box_eq {line : Text} (hfree : line.all dot = true) : box line =
    (stripPrefix (line.dropWhile isWhitespace) ['-']).bind fun text ↦
      (spaced ['['] text).bind marked := by
  have hcaptures : checkboxPattern.captures line =
      takeMany isWhitespace ((Pattern.literal "-".toList).run
        (takeMany isWhitespace ((Pattern.literal "[".toList).run markRun) 1 none)) 0 none line :=
    rfl
  rw [box, hcaptures, takeMany_word (by decide), if_pos (Nat.zero_le _)]
  change ((stripPrefix (line.dropWhile isWhitespace) ['-']).bind _).bind pair = _
  cases hdash : stripPrefix (line.dropWhile isWhitespace) ['-'] with
  | none => rfl
  | some text =>
      have htext : text.all dot = true := all_of_suffix hfree
        ((suffix_of_stripPrefix hdash).trans (List.dropWhile_suffix _))
      rw [Option.bind_some, Option.bind_some, takeMany_word (by decide), spaced]
      split
      · change ((stripPrefix (text.dropWhile isWhitespace) ['[']).bind _).bind pair = _
        cases hbracket : stripPrefix (text.dropWhile isWhitespace) ['['] with
        | none => rfl
        | some rest =>
            have hrest : rest.all dot = true := all_of_suffix htext
              ((suffix_of_stripPrefix hbracket).trans (List.dropWhile_suffix _))
            rw [Option.bind_some, Option.bind_some, markRun_eq hrest, bind_pair]
      · rfl

def trimSecond (both : Text × Text) : Text × Text := (both.1, trim both.2)

theorem marked_return (text : Text) :
    (marked (text ++ ['\r'])).map trimSecond = (marked text).map trimSecond := by
  cases text with
  | nil => rfl
  | cons mark text =>
      rw [List.cons_append, marked, marked]
      split
      · rw [stripPrefix_return (by decide)]
        cases stripPrefix text [']'] with
        | none => rfl
        | some rest => simp [trimSecond]
      · rfl

theorem box_return {line : Text} (hfree : line.all dot = true) :
    (box (line ++ ['\r'])).map trimSecond = (box line).map trimSecond := by
  rw [box_eq hfree, box_eq ((all_dot_return line).trans hfree),
    stripPrefix_blank (by decide) (by decide)]
  cases stripPrefix (line.dropWhile isWhitespace) ['-'] with
  | none => rfl
  | some text =>
      rw [Option.map_some, Option.bind_some, Option.bind_some,
        spaced_return (by decide) (by decide)]
      cases spaced ['['] text with
      | none => rfl
      | some rest => exact marked_return rest

def trimmed (groups : List Text) : List Text := groups.map trim

/-- What follows the label of a task: a colon, some white space and the rest. -/
def colonRun : Text → Option (List Text) :=
  (Pattern.literal ":".toList).run (takeMany isWhitespace restGroup 0 none)

/-- What follows the white space behind a task's keyword: its label, and what follows that. -/
def labelRun (text : Text) : Option (List Text) :=
  Pattern.takeFew (fun character ↦ decide (character ≠ ':'))
    (fun rest ↦ (colonRun rest).map fun groups ↦
      text.take (text.length - rest.length) :: groups) 1 text

def keywordRun : Text → Option (List Text) := takeMany isWhitespace labelRun 1 none

theorem restRun_return (text : Text) :
    (takeMany isWhitespace restGroup 0 none (text ++ ['\r'])).map trimmed =
      (takeMany isWhitespace restGroup 0 none text).map trimmed := by
  rw [takeMany_rest restGroup_asRest, takeMany_rest restGroup_asRest, if_pos (Nat.zero_le _),
    if_pos (Nat.zero_le _), dropWhile_blank]
  split
  · rename_i hnone
    rw [hnone]
  · rw [restGroup_eq, restGroup_eq, all_dot_return]
    split
    · simp [trimmed]
    · rfl

theorem colonRun_return (text : Text) :
    (colonRun (text ++ ['\r'])).map trimmed = (colonRun text).map trimmed := by
  rw [colonRun, run_stripPrefix, run_stripPrefix]
  change ((stripPrefix _ [':']).bind _).map _ = ((stripPrefix _ [':']).bind _).map _
  rw [stripPrefix_return (by decide)]
  cases stripPrefix text [':'] with
  | none => rfl
  | some rest => exact restRun_return rest

/-- The label of a task goes up to its first colon. -/
theorem labelRun_eq (text : Text) : labelRun text =
    if 1 ≤ (text.takeWhile fun character ↦ decide (character ≠ ':')).length then
      (colonRun (text.dropWhile fun character ↦ decide (character ≠ ':'))).map
        fun groups ↦ (text.takeWhile fun character ↦ decide (character ≠ ':')) :: groups
    else none := by
  rw [labelRun, takeFew_of_stuck, take_dropWhile]
  intro character rest hlabel
  have hcolon : character ≠ ':' := by simpa using hlabel
  have hnone : colonRun (character :: rest) = none := by
    rw [colonRun, run_literal, if_neg]
    change ¬ [':'].isPrefixOf (character :: rest) = true
    simp [List.isPrefixOf_cons_cons, Ne.symm hcolon]
  change Option.map _ (colonRun (character :: rest)) = none
  rw [hnone]
  rfl

/-- A carriage return behind a label is trimmed off. -/
theorem labelRun_return (text : Text) :
    (labelRun (text ++ ['\r'])).map trimmed = (labelRun text).map trimmed := by
  rw [labelRun_eq, labelRun_eq]
  by_cases hcolon : (text.dropWhile fun character ↦ decide (character ≠ ':')) = []
  · -- no colon, with or without the carriage return
    have hall := List.dropWhile_eq_nil_iff.mp hcolon
    have hnone : ((text ++ ['\r']).dropWhile fun character ↦ decide (character ≠ ':')) = [] := by
      rw [List.dropWhile_append_of_pos hall]
      rfl
    rw [hcolon, hnone]
    have hend : colonRun [] = none := rfl
    rw [hend, Option.map_none, Option.map_none, ite_self, ite_self]
  · have hlabel : ((text ++ ['\r']).takeWhile fun character ↦ decide (character ≠ ':')) =
        text.takeWhile fun character ↦ decide (character ≠ ':') := by
      rw [List.takeWhile_append, if_neg]
      intro hlength
      apply hcolon
      have hsplit : (text.takeWhile fun character ↦ decide (character ≠ ':')) ++
          (text.dropWhile fun character ↦ decide (character ≠ ':')) = text :=
        List.takeWhile_append_dropWhile
      have htotal := congrArg List.length hsplit
      rw [List.length_append] at htotal
      exact List.length_eq_zero_iff.mp (by omega)
    have hrest : ((text ++ ['\r']).dropWhile fun character ↦ decide (character ≠ ':')) =
        (text.dropWhile fun character ↦ decide (character ≠ ':')) ++ ['\r'] := by
      rw [List.dropWhile_append, if_neg (by simpa using hcolon)]
    rw [hlabel, hrest]
    split
    · have hsame := colonRun_return (text.dropWhile fun character ↦ decide (character ≠ ':'))
      rw [Option.map_map, Option.map_map]
      change Option.map ((fun groups ↦ trim _ :: groups) ∘ trimmed) _ =
        Option.map ((fun groups ↦ trim _ :: groups) ∘ trimmed) _
      rw [← Option.map_map, ← Option.map_map, hsame]
    · rfl

theorem keywordRun_return (text : Text) :
    (keywordRun (text ++ ['\r'])).map trimmed = (keywordRun text).map trimmed :=
  takeMany_append labelRun_return rfl 1 text

/-- A header: three marks, a keyword behind white space, and what follows it. -/
theorem headerCaptures_eq (line : Text) : taskHeaderPattern.captures line =
    (stripPrefix line ['#', '#', '#']).bind fun text ↦
      ((spaced "Task".toList text).bind keywordRun).or
        ((spaced "Iteration".toList text).bind keywordRun) := by
  have hcaptures : taskHeaderPattern.captures line = (Pattern.literal "###".toList).run
      (takeMany isWhitespace (fun text ↦
        ((Pattern.literal "Task".toList).run keywordRun text).or
          ((Pattern.literal "Iteration".toList).run keywordRun text)) 1 none) line := rfl
  have hstuck : Stuck isWhitespace fun text ↦
      ((Pattern.literal "Task".toList).run keywordRun text).or
        ((Pattern.literal "Iteration".toList).run keywordRun text) := by
    intro character rest hblank
    dsimp only
    rw [run_stripPrefix, run_stripPrefix, stripPrefix_of_blank hblank (by decide),
      stripPrefix_of_blank hblank (by decide)]
    rfl
  rw [hcaptures, run_stripPrefix]
  change (stripPrefix line ['#', '#', '#']).bind _ = _
  refine congrArg _ (funext fun text ↦ ?_)
  rw [takeMany_of_stuck hstuck, run_stripPrefix, run_stripPrefix, spaced, spaced]
  split <;> rfl

/-- A carriage return behind a task header is trimmed off. -/
theorem headerCaptures_return (line : Text) :
    (taskHeaderPattern.captures (line ++ ['\r'])).map trimmed =
      (taskHeaderPattern.captures line).map trimmed := by
  have hkeyword (word : Text) (h : '\r' ∉ word) (hsome : word ≠ []) (text : Text) :
      ((spaced word (text ++ ['\r'])).bind keywordRun).map trimmed =
        ((spaced word text).bind keywordRun).map trimmed := by
    rw [spaced_return h hsome]
    cases spaced word text with
    | none => rfl
    | some rest => exact keywordRun_return rest
  rw [headerCaptures_eq, headerCaptures_eq, stripPrefix_return (by decide)]
  cases stripPrefix line ['#', '#', '#'] with
  | none => rfl
  | some text =>
      rw [Option.map_some, Option.bind_some, Option.bind_some, Option.map_or, Option.map_or,
        hkeyword _ (by decide) (by decide), hkeyword _ (by decide) (by decide)]

def trimBoth (both : Text × Text) : Text × Text := (trim both.1, trim both.2)

theorem map_pair (captures : Option (List Text)) :
    (captures.bind pair).map trimBoth = (captures.map trimmed).bind pair := by
  cases captures with
  | none => rfl
  | some groups =>
      rcases groups with _ | ⟨first, _ | ⟨second, _ | ⟨third, rest⟩⟩⟩ <;> rfl

theorem taskHeader_return (line : Text) :
    (taskHeader (line ++ ['\r'])).map trimBoth = (taskHeader line).map trimBoth := by
  rw [taskHeader, taskHeader, map_pair, map_pair, headerCaptures_return]

/-! ## One line -/

namespace Pass

variable {line : Text}

/-- Of a header, the pass keeps the groups trimmed. -/
theorem header_congr (pass : Pass) {first second : Text × Text}
    (h : trimBoth first = trimBoth second) :
    pass.header first.1 first.2 = pass.header second.1 second.2 := by
  obtain ⟨hnumber, htitle⟩ := Prod.ext_iff.mp h
  unfold header
  rw [show trim first.1 = trim second.1 from hnumber,
    show trim first.2 = trim second.2 from htitle]

theorem head_congr (pass : Pass) {first second : Text} (h : trim first = trim second) :
    pass.head first = pass.head second := by
  unfold head
  rw [h]

theorem check_congr (pass : Pass) {first second : Text × Text}
    (h : trimSecond first = trimSecond second) :
    pass.check first.1 first.2 = pass.check second.1 second.2 := by
  obtain ⟨hmark, htext⟩ := Prod.ext_iff.mp h
  unfold check
  rw [show first.1 = second.1 from hmark, show trim first.2 = trim second.2 from htext]

/-- A bare mark does nothing, whatever it is taken for. -/
theorem live_bare (pass : Pass) : pass.live (['#'] ++ ['\r']) = pass.live ['#'] := by
  have hblank : pass.live (['#'] ++ ['\r']) = pass.head [] := rfl
  have hnone : pass.live ['#'] = pass := rfl
  have hhead : pass.head [] = pass := if_neg (by simp [trim, trimStart, trimEnd])
  rw [hblank, hnone, hhead]

/-- A carriage return behind a live line changes nothing. -/
theorem live_return (pass : Pass) (hfree : line.all dot = true) :
    pass.live (line ++ ['\r']) = pass.live line := by
  by_cases hbare : line = ['#']
  · rw [hbare]
    exact live_bare pass
  · unfold live
    rw [fence_return hfree, isSection_return hfree]
    have hheader := taskHeader_return line
    have hheading := heading_return hfree
    rw [if_neg hbare] at hheading
    have hbox := box_return hfree
    cases Planfile.fence line with
    | some both => rfl
    | none =>
        dsimp only [Option.map_none]
        cases hleft : taskHeader line with
        | some second =>
            rw [hleft, Option.map_some] at hheader
            obtain ⟨first, hfirst, htrim⟩ := Option.map_eq_some_iff.mp hheader
            rw [hfirst]
            exact header_congr pass htrim
        | none =>
            rw [hleft, Option.map_none, Option.map_eq_none_iff] at hheader
            rw [hheader]
            dsimp only
            refine congrArg (ite _ _) ?_
            cases hright : heading line with
            | some second =>
                rw [hright, Option.map_some] at hheading
                obtain ⟨first, hfirst, htrim⟩ := Option.map_eq_some_iff.mp hheading
                rw [hfirst]
                exact head_congr pass htrim
            | none =>
                rw [hright, Option.map_none, Option.map_eq_none_iff] at hheading
                rw [hheading]
                dsimp only
                cases hlast : box line with
                | some second =>
                    rw [hlast, Option.map_some] at hbox
                    obtain ⟨first, hfirst, htrim⟩ := Option.map_eq_some_iff.mp hbox
                    rw [hfirst]
                    exact check_congr pass htrim
                | none =>
                    rw [hlast, Option.map_none, Option.map_eq_none_iff] at hbox
                    rw [hbox]

/-- A carriage return more at the end of a line changes nothing. -/
theorem line_return (pass : Pass) (hfree : line.all dot = true) :
    pass.line (line ++ ['\r']) = pass.line line := by
  cases hopen : pass.fence with
  | some opener =>
      rw [Pass.line, Pass.line, hopen]
      dsimp only
      rw [closesFence_return hfree]
  | none =>
      rw [Pass.line, Pass.line, hopen]
      exact live_return pass hfree

end Pass

/-- A content with a carriage return put before every newline. -/
def crlf (content : Text) : Text :=
  content.flatMap fun character ↦ if character = '\n' then ['\r', '\n'] else [character]

/-- Lines that each have a carriage return behind them, but for the last. -/
def returned : List Text → List Text
  | [] => []
  | [last] => [last]
  | line :: rest => (line ++ ['\r']) :: returned rest

theorem returned_cons (line : Text) {rest : List Text} (h : rest ≠ []) :
    returned (line :: rest) = (line ++ ['\r']) :: returned rest := by
  cases rest with
  | nil => exact absurd rfl h
  | cons next rest => rfl

theorem returned_modifyHead (character : Char) (lines : List Text) :
    (returned lines).modifyHead (character :: ·) =
      returned (lines.modifyHead (character :: ·)) := by
  rcases lines with _ | ⟨line, _ | ⟨next, rest⟩⟩ <;> rfl

/-- Between carriage returns and newlines the lines are those between newlines. -/
theorem splitOn_crlf (content : Text) :
    (crlf content).splitOn '\n' = returned (content.splitOn '\n') := by
  induction content with
  | nil => rfl
  | cons character rest ih =>
      by_cases hnewline : character = '\n'
      · have hcrlf : crlf (character :: rest) = '\r' :: '\n' :: crlf rest := by
          rw [crlf, List.flatMap_cons, if_pos hnewline]
          rfl
        rw [hcrlf, List.splitOn_cons_eq_if_modifyHead, if_neg (by decide),
          List.splitOn_cons_eq_if_modifyHead, if_pos (by decide), ih,
          List.splitOn_cons_eq_if_modifyHead, if_pos (by simpa using hnewline),
          returned_cons _ (List.splitOn_ne_nil '\n' rest)]
        rfl
      · have hcrlf : crlf (character :: rest) = character :: crlf rest := by
          rw [crlf, List.flatMap_cons, if_neg hnewline]
          rfl
        rw [hcrlf, List.splitOn_cons_eq_if_modifyHead, if_neg (by simpa using hnewline), ih,
          List.splitOn_cons_eq_if_modifyHead, if_neg (by simpa using hnewline),
          returned_modifyHead]

theorem all_dot_of_mem_splitOn (content : Text) :
    ∀ line ∈ content.splitOn '\n', line.all dot = true := by
  intro line hline
  refine List.all_eq_true.mpr fun character hmem ↦ decide_eq_true fun hnewline ↦ ?_
  exact notMem_of_mem_splitOn hline (hnewline ▸ hmem)

/-- The carriage return stripped is the one put there; where the line had one, it is left. -/
theorem line_returned (pass : Pass) {line : Text} (hfree : line.all dot = true) :
    pass.line (dropCarriageReturn (line ++ ['\r'])) = pass.line (dropCarriageReturn line) := by
  have hstripped : dropCarriageReturn (line ++ ['\r']) = line := by
    rw [dropCarriageReturn, List.getLast?_concat, if_pos rfl, List.dropLast_concat]
  rw [hstripped, dropCarriageReturn]
  split
  · rename_i hreturn
    obtain ⟨front, rfl⟩ := List.getLast?_eq_some_iff.mp hreturn
    rw [List.dropLast_concat]
    rw [all_dot_return] at hfree
    exact Pass.line_return pass hfree
  · rfl

theorem foldl_returned {lines : List Text} (hfree : ∀ line ∈ lines, line.all dot = true)
    (pass : Pass) :
    ((returned lines).map dropCarriageReturn).foldl Pass.line pass =
      (lines.map dropCarriageReturn).foldl Pass.line pass := by
  induction lines generalizing pass with
  | nil => rfl
  | cons line rest ih =>
      obtain ⟨hline, hrest⟩ := List.forall_mem_cons.mp hfree
      cases rest with
      | nil => rfl
      | cons next rest =>
          rw [returned_cons _ (List.cons_ne_nil next rest), List.map_cons, List.foldl_cons,
            line_returned pass hline, ih hrest]
          rfl

/-- **Line endings do not matter.**  A plan whose newlines are all made carriage return and newline
is parsed as it was. -/
theorem parse_crlf (content : Text) : parse (crlf content) = parse content := by
  rw [parse, parse, linesOf, linesOf, splitOn_crlf,
    foldl_returned (all_dot_of_mem_splitOn content)]

end RalphexRunner.Planfile
