import RalphexRunner.Plan.Parse

/-!
# What a plan says

The reading of a plan says nothing of a pass.  The live lines are those outside fenced blocks.  Each
header among them is a task, with the checkboxes up to the next header or section; the title is the
first heading with some text; and the status of a task is told from its checkboxes.

The pass is held to the reading in two steps: a fenced block leaves no trace but the fence itself,
and over live lines each line does its part of the reading.
-/

namespace RalphexRunner.Planfile

/-- The lines outside fenced blocks.  A block goes from a live fence to the line that closes it,
or to the end. -/
def liveLines : List Text → List Text
  | [] => []
  | line :: rest =>
      match fence line with
      | none => line :: liveLines rest
      | some (opener, _) => liveLines (rest.dropWhile fun line ↦ !closesFence line opener).tail
termination_by lines => lines.length
decreasing_by
  · exact Nat.lt_succ_self _
  · have hle : (rest.dropWhile fun line ↦ !closesFence line opener).length ≤ rest.length :=
      (List.dropWhile_suffix _).length_le
    rw [List.length_tail, List.length_cons]
    omega

/-- A line no task goes on behind. -/
def ends (line : Text) : Bool := (taskHeader line).isSome || isSection line

def titleOf (line : Text) : Option Text :=
  if ends line then none
  else (heading line).bind fun text ↦ if trim text = [] then none else some (trim text)

def checkboxOf (line : Text) : Option Checkbox :=
  if ends line ∨ (heading line).isSome then none
  else (box line).map fun groups ↦ ⟨trim groups.2, decide (groups.1 ≠ [' '])⟩

/-- The checkboxes before the next header or section. -/
def boxes (lines : List Text) : List Checkbox :=
  (lines.takeWhile fun line ↦ !ends line).filterMap checkboxOf

/-- A task header and the checkboxes that belong to it. -/
structure Section where
  number : Text
  title : Text
  checkboxes : List Checkbox

def sections : List Text → List Section
  | [] => []
  | line :: rest =>
      match taskHeader line with
      | some (number, title) => ⟨trim number, trim title, boxes rest⟩ :: sections rest
      | none => sections rest

def statusOf (checkboxes : List Checkbox) : TaskStatus :=
  if checkboxes ≠ [] ∧ ∀ box ∈ checkboxes, box.checked = true then .done
  else if ∀ box ∈ checkboxes, box.checked = false then .pending
  else .active

def Section.task (ord : ℕ) (part : Section) : Task :=
  ⟨part.number, ord, part.title, statusOf part.checkboxes, part.checkboxes⟩

def reading (content : Text) : Plan where
  title := (liveLines (linesOf content)).findSome? titleOf
  tasks := (sections (liveLines (linesOf content))).mapIdx Section.task

/-- The status that is counted out is the one the checkboxes stand for. -/
theorem status_eq (checkboxes : List Checkbox) : status checkboxes = statusOf checkboxes := by
  unfold status statusOf
  have hnone : checkboxes.countP Checkbox.checked = 0 ↔
      ∀ box ∈ checkboxes, box.checked = false := by
    rw [List.countP_eq_zero]
    simp only [Bool.not_eq_true]
  have hall : checkboxes.countP Checkbox.checked = checkboxes.length ↔
      ∀ box ∈ checkboxes, box.checked = true := List.countP_eq_length
  simp only [hnone, hall]
  by_cases hchecked : checkboxes ≠ [] ∧ ∀ box ∈ checkboxes, box.checked = true
  · obtain ⟨first, hfirst⟩ := List.exists_mem_of_ne_nil checkboxes hchecked.1
    have hsome : ¬ ∀ box ∈ checkboxes, box.checked = false := fun hunchecked ↦
      absurd (hchecked.2 first hfirst) (by rw [hunchecked first hfirst]; decide)
    rw [if_neg hsome, if_pos hchecked.2, if_pos hchecked]
  · rw [if_neg hchecked]
    by_cases hunchecked : ∀ box ∈ checkboxes, box.checked = false
    · rw [if_pos hunchecked, if_pos hunchecked]
    · have hsome : checkboxes ≠ [] := by
        rintro rfl
        exact hunchecked (by simp)
      rw [if_neg hunchecked, if_neg hunchecked, if_neg fun hall ↦ hchecked ⟨hsome, hall⟩]

def fenceAfter (opener : Option Text) (line : Text) : Option Text :=
  match opener with
  | some opener => if closesFence line opener then none else some opener
  | none => (fence line).map Prod.fst

namespace Pass

variable {pass : Pass} {line : Text}

@[simp] theorem close_fence (pass : Pass) : pass.close.fence = pass.fence := by
  unfold close
  split <;> rfl

@[simp] theorem header_fence (pass : Pass) (number title : Text) :
    (pass.header number title).fence = pass.fence := close_fence pass

@[simp] theorem head_fence (pass : Pass) (heading : Text) :
    (pass.head heading).fence = pass.fence := by
  unfold head
  split <;> rfl

@[simp] theorem check_fence (pass : Pass) (mark text : Text) :
    (pass.check mark text).fence = pass.fence := by
  unfold check
  split <;> rfl

/-- Only a fence opens a block. -/
theorem live_fence (h : Planfile.fence line = none) : (pass.live line).fence = pass.fence := by
  unfold live
  rw [h]
  dsimp only
  split
  · exact header_fence ..
  · split
    · exact close_fence pass
    · split
      · exact head_fence ..
      · split
        · exact check_fence ..
        · rfl

theorem line_outside (h : pass.fence = none) (line : Text) : pass.line line = pass.live line := by
  rw [Pass.line, h]

theorem line_opens {run rest : Text} (h : pass.fence = none)
    (hfence : Planfile.fence line = some (run, rest)) :
    pass.line line = { pass with fence := some run } := by
  rw [line_outside h, live, hfence]

theorem line_fence (pass : Pass) (line : Text) :
    (pass.line line).fence = fenceAfter pass.fence line := by
  unfold fenceAfter
  cases hopen : pass.fence with
  | some opener =>
      rw [Pass.line, hopen]
      dsimp only
      split
      · rfl
      · exact hopen
  | none =>
      cases hfence : Planfile.fence line with
      | none => rw [line_outside hopen, live_fence hfence, hopen]; rfl
      | some groups => rw [line_opens hopen hfence]; rfl

/-- The end of the content does not ask for the fence. -/
theorem plan_fence (pass : Pass) (fence : Option Text) :
    Pass.plan { pass with fence } = pass.plan := by
  obtain ⟨title, tasks, opened, outer⟩ := pass
  cases opened <;> rfl

/-- Inside a block nothing happens before the line that closes it. -/
theorem foldl_block (lines : List Text) (pass : Pass) (opener : Text) :
    (lines.foldl Pass.line { pass with fence := some opener }).plan =
      ((lines.dropWhile fun line ↦ !closesFence line opener).tail.foldl Pass.line
        { pass with fence := none }).plan := by
  induction lines with
  | nil => exact (plan_fence pass (some opener)).trans (plan_fence pass none).symm
  | cons first rest ih =>
      have hfirst : Pass.line { pass with fence := some opener } first =
          if closesFence first opener then { pass with fence := none }
          else { pass with fence := some opener } := rfl
      rw [List.foldl_cons, hfirst]
      by_cases hcloses : closesFence first opener = true
      · rw [if_pos hcloses, List.dropWhile_cons_of_neg (by simp [hcloses])]
        rfl
      · rw [if_neg hcloses, List.dropWhile_cons_of_pos (by simp [hcloses])]
        exact ih

/-- A content is read as its live lines are. -/
theorem foldl_live (lines : List Text) {pass : Pass} (h : pass.fence = none) :
    (lines.foldl Pass.line pass).plan = ((liveLines lines).foldl Pass.live pass).plan := by
  fun_induction liveLines lines generalizing pass with
  | case1 => rfl
  | case2 line rest hfence ih =>
      rw [List.foldl_cons, List.foldl_cons, line_outside h]
      exact ih (by rw [live_fence hfence, h])
  | case3 line rest opener after hfence ih =>
      rw [List.foldl_cons, line_opens h hfence, foldl_block]
      have hsame : { pass with fence := none } = pass := by
        cases pass
        cases h
        rfl
      rw [hsame]
      exact ih h

end Pass

theorem fence_of_mem_liveLines {lines : List Text} :
    ∀ line ∈ liveLines lines, fence line = none := by
  fun_induction liveLines lines with
  | case1 => simp
  | case2 line rest hfence ih => exact List.forall_mem_cons.mpr ⟨hfence, ih⟩
  | case3 line rest opener after hfence ih => exact ih

theorem ends_of_header {line : Text} {groups : Text × Text} (h : taskHeader line = some groups) :
    ends line = true := by
  rw [ends, h]
  rfl

theorem boxes_of_ends {line : Text} (h : ends line = true) (rest : List Text) :
    boxes (line :: rest) = [] := by
  rw [boxes, List.takeWhile_cons_of_neg (by simp [h])]
  rfl

theorem boxes_cons {line : Text} (h : ends line = false) (rest : List Text) :
    boxes (line :: rest) = (checkboxOf line).toList ++ boxes rest := by
  rw [boxes, List.takeWhile_cons_of_pos (by simp [h]), List.filterMap_cons]
  cases checkboxOf line <;> rfl

theorem sections_of_not_header {line : Text} (h : taskHeader line = none) (rest : List Text) :
    sections (line :: rest) = sections rest := by
  rw [sections, h]

/-- The tasks some sections are from a position on. -/
def numbered (position : ℕ) : List Section → List Task
  | [] => []
  | part :: rest => part.task (ordOf position) :: numbered (position + 1) rest

namespace Pass

variable {pass : Pass} {line : Text}

/-- The open task with the checkboxes of some lines still to come. -/
def underWay (pass : Pass) (lines : List Text) : List Task :=
  match pass.opened with
  | none => []
  | some task => [OpenTask.close { task with checkboxes := task.checkboxes ++ boxes lines }]

/-- The plan a pass is to end with when some live lines are left. -/
def outcome (pass : Pass) (lines : List Text) : Plan where
  title := pass.title.or (lines.findSome? titleOf)
  tasks := pass.tasks ++ pass.underWay lines ++
    numbered (pass.tasks ++ pass.underWay lines).length (sections lines)

theorem close_title (pass : Pass) : pass.close.title = pass.title := by
  unfold close
  split <;> rfl

theorem close_opened (pass : Pass) : pass.close.opened = none := by
  unfold close
  split
  · assumption
  · rfl

/-- A task is closed with the checkboxes it has where none is to come. -/
theorem close_tasks (pass : Pass) {lines : List Text} (h : boxes lines = []) :
    pass.close.tasks = pass.tasks ++ pass.underWay lines := by
  unfold close underWay
  rw [h]
  cases pass.opened with
  | none => exact (List.append_nil _).symm
  | some task =>
      dsimp only
      rw [List.append_nil]

theorem outcome_nil (pass : Pass) : pass.outcome [] = pass.plan := by
  rw [outcome, plan, close_tasks pass (rfl : boxes [] = []), close_title]
  simp [sections, numbered]

theorem titleOf_of_ends (h : ends line = true) : titleOf line = none := if_pos h

/-- A header closes the open task and opens its own. -/
theorem outcome_header {number title : Text} (h : taskHeader line = some (number, title))
    (rest : List Text) :
    (pass.header number title).outcome rest = pass.outcome (line :: rest) := by
  have hends := ends_of_header h
  have hclosed := close_tasks pass (boxes_of_ends hends rest)
  have hsections : sections (line :: rest) =
      ⟨trim number, trim title, boxes rest⟩ :: sections rest := by rw [sections, h]
  have htask : (pass.header number title).underWay rest =
      [Section.task (ordOf pass.close.tasks.length) ⟨trim number, trim title, boxes rest⟩] := by
    simp only [underWay, header, OpenTask.close, Section.task, status_eq, List.nil_append]
  have htasks : (pass.header number title).tasks = pass.close.tasks := rfl
  have htitle : (pass.header number title).title = pass.title := close_title pass
  rw [outcome, outcome, htask, htasks, htitle, ← hclosed, hsections, numbered, List.length_append,
    List.append_assoc, List.findSome?_cons, titleOf_of_ends hends]
  rfl

/-- A section closes the open task. -/
theorem outcome_section (hheader : taskHeader line = none) (h : isSection line = true)
    (rest : List Text) : pass.close.outcome rest = pass.outcome (line :: rest) := by
  have hends : ends line = true := by rw [ends, h, Bool.or_true]
  have hclosed := close_tasks pass (boxes_of_ends hends rest)
  have hnone : pass.close.underWay rest = [] := by rw [underWay, close_opened]
  rw [outcome, outcome, hnone, List.append_nil, ← hclosed, close_title,
    sections_of_not_header hheader, List.findSome?_cons, titleOf_of_ends hends]

section Inside

variable (hheader : taskHeader line = none) (hsection : isSection line = false)
include hheader hsection

theorem not_ends : ends line = false := by rw [ends, hheader, hsection]; rfl

/-- A line that adds no checkbox leaves the open task as it is. -/
theorem underWay_cons (h : checkboxOf line = none) (rest : List Text) :
    pass.underWay (line :: rest) = pass.underWay rest := by
  unfold underWay
  rw [boxes_cons (not_ends hheader hsection), h]
  rfl

/-- A heading with some text is the title where there is none yet. -/
theorem outcome_heading {text : Text} (h : heading line = some text) (rest : List Text) :
    (pass.head text).outcome rest = pass.outcome (line :: rest) := by
  have hinside := not_ends hheader hsection
  have hbox : checkboxOf line = none := if_pos (.inr (by rw [h]; rfl))
  have htitleOf : titleOf line = if trim text = [] then none else some (trim text) := by
    rw [titleOf, hinside, h]
    rfl
  have htasks : (pass.head text).tasks = pass.tasks ∧ (pass.head text).opened = pass.opened := by
    unfold head
    split <;> exact ⟨rfl, rfl⟩
  have hunder : (pass.head text).underWay rest = pass.underWay (line :: rest) := by
    rw [underWay_cons hheader hsection hbox, underWay, htasks.2, underWay]
  have htitle : (pass.head text).title.or (rest.findSome? titleOf) =
      pass.title.or ((line :: rest).findSome? titleOf) := by
    rw [List.findSome?_cons, htitleOf, head]
    cases htitled : pass.title with
    | some title =>
        rw [if_neg (by simp)]
        rw [htitled, Option.some_or, Option.some_or]
    | none =>
        by_cases hblank : trim text = []
        · rw [if_neg (by simp [hblank]), if_pos hblank, htitled]
        · rw [if_pos (by simpa using hblank), if_neg hblank]
          rfl
  rw [outcome, outcome, htitle, hunder, htasks.1, sections_of_not_header hheader]

/-- A checkbox is added to the open task, and lost without one. -/
theorem outcome_box (hheading : heading line = none) {mark text : Text}
    (h : box line = some (mark, text)) (rest : List Text) :
    (pass.check mark text).outcome rest = pass.outcome (line :: rest) := by
  have hinside := not_ends hheader hsection
  have hbox : checkboxOf line = some ⟨trim text, decide (mark ≠ [' '])⟩ := by
    rw [checkboxOf, if_neg (by simp [hinside, hheading]), h]
    rfl
  have htitleOf : titleOf line = none := by
    rw [titleOf, hinside, hheading]
    rfl
  have hunder : (pass.check mark text).underWay rest = pass.underWay (line :: rest) := by
    unfold underWay check
    rw [boxes_cons hinside, hbox]
    cases hopened : pass.opened with
    | none =>
        dsimp only
        rw [hopened]
    | some task => simp
  have hrest : (pass.check mark text).tasks = pass.tasks ∧
      (pass.check mark text).title = pass.title := by
    unfold check
    split <;> exact ⟨rfl, rfl⟩
  rw [outcome, outcome, hunder, hrest.1, hrest.2, sections_of_not_header hheader,
    List.findSome?_cons, htitleOf]

/-- Any other line says nothing. -/
theorem outcome_other (hheading : heading line = none) (h : box line = none) (rest : List Text) :
    pass.outcome rest = pass.outcome (line :: rest) := by
  have hinside := not_ends hheader hsection
  have hbox : checkboxOf line = none := by
    rw [checkboxOf, if_neg (by simp [hinside, hheading]), h]
    rfl
  have htitleOf : titleOf line = none := by
    rw [titleOf, hinside, hheading]
    rfl
  rw [outcome, outcome, underWay_cons hheader hsection hbox, sections_of_not_header hheader,
    List.findSome?_cons, htitleOf]

end Inside

/-- A live line does its part of the reading. -/
theorem outcome_live (hfence : Planfile.fence line = none) (rest : List Text) :
    (pass.live line).outcome rest = pass.outcome (line :: rest) := by
  unfold live
  rw [hfence]
  dsimp only
  cases hheader : taskHeader line with
  | some groups => exact outcome_header hheader rest
  | none =>
      cases hsection : isSection line with
      | true => exact outcome_section hheader hsection rest
      | false =>
          cases hheading : heading line with
          | some text => exact outcome_heading hheader hsection hheading rest
          | none =>
              cases hbox : box line with
              | some groups => exact outcome_box hheader hsection hheading hbox rest
              | none => exact outcome_other hheader hsection hheading hbox rest

/-- Over live lines the pass ends with the plan it was to end with. -/
theorem foldl_outcome {lines : List Text} (h : ∀ line ∈ lines, Planfile.fence line = none)
    (pass : Pass) : (lines.foldl live pass).plan = pass.outcome lines := by
  induction lines generalizing pass with
  | nil => exact (outcome_nil pass).symm
  | cons line rest ih =>
      obtain ⟨hline, hrest⟩ := List.forall_mem_cons.mp h
      rw [List.foldl_cons, ih hrest, outcome_live hline]

end Pass

/-! ## The whole plan -/

/-- Positions that fit 32 bits are the ordinals. -/
theorem numbered_eq {position : ℕ} {parts : List Section}
    (h : position + parts.length ≤ u32Max + 1) :
    numbered position parts = parts.mapIdx fun index part ↦ part.task (position + index) := by
  induction parts generalizing position with
  | nil => rfl
  | cons part rest ih =>
      rw [List.length_cons] at h
      rw [numbered, List.mapIdx_cons, ih (by omega), ordOf, if_pos (by omega)]
      simp only [Nat.add_zero, Nat.add_assoc, Nat.add_comm 1]

theorem parse_tasks (content : Text) :
    (parse content).tasks = numbered 0 (sections (liveLines (linesOf content))) := by
  rw [parse, Pass.foldl_live _ rfl, Pass.foldl_outcome fence_of_mem_liveLines]
  rfl

theorem parse_title (content : Text) : (parse content).title = (reading content).title := by
  rw [parse, Pass.foldl_live _ rfl, Pass.foldl_outcome fence_of_mem_liveLines]
  rfl

theorem length_numbered (position : ℕ) (parts : List Section) :
    (numbered position parts).length = parts.length := by
  induction parts generalizing position with
  | nil => rfl
  | cons part rest ih => exact congrArg (· + 1) (ih _)

theorem parse_eq {content : Text} (h : (parse content).tasks.length ≤ u32Max + 1) :
    parse content = reading content := by
  rw [parse_tasks, length_numbered, ← Nat.zero_add (List.length _)] at h
  have htasks : (parse content).tasks = (reading content).tasks := by
    rw [parse_tasks, numbered_eq h, reading]
    simp only [Nat.zero_add]
  calc
    _ = Plan.mk (parse content).title (parse content).tasks := rfl
    _ = _ := by rw [parse_title, htasks]

/-- A status told from the checkboxes: done where there are some and all are checked, pending where
none is, and active otherwise. -/
structure Judged (task : Task) : Prop where
  done : task.status = .done ↔
    task.checkboxes ≠ [] ∧ ∀ box ∈ task.checkboxes, box.checked = true
  pending : task.status = .pending ↔ ∀ box ∈ task.checkboxes, box.checked = false
  active : task.status = .active ↔
    (∃ box ∈ task.checkboxes, box.checked = true) ∧ ∃ box ∈ task.checkboxes, box.checked = false

/-- A task whose status is that of its checkboxes is judged by them. -/
theorem judged_of_status {task : Task} (h : task.status = statusOf task.checkboxes) :
    Judged task := by
  have hboth : (task.checkboxes ≠ [] ∧ ∀ box ∈ task.checkboxes, box.checked = true) →
      ¬ ∀ box ∈ task.checkboxes, box.checked = false := by
    rintro ⟨hsome, hchecked⟩ hunchecked
    obtain ⟨first, hfirst⟩ := List.exists_mem_of_ne_nil _ hsome
    exact absurd (hchecked first hfirst) (by rw [hunchecked first hfirst]; decide)
  have hsome : (¬ ∀ box ∈ task.checkboxes, box.checked = false) ↔
      ∃ box ∈ task.checkboxes, box.checked = true := by
    simp
  rw [statusOf] at h
  split at h
  · rename_i hchecked
    refine ⟨by rw [h]; simpa using hchecked, ?_, ?_⟩
    · rw [h]
      exact ⟨fun hstatus ↦ TaskStatus.noConfusion hstatus,
        fun hunchecked ↦ absurd hunchecked (hboth hchecked)⟩
    · rw [h]
      refine ⟨fun hstatus ↦ TaskStatus.noConfusion hstatus, fun ⟨_, box, hbox, hunchecked⟩ ↦ ?_⟩
      rw [hchecked.2 box hbox] at hunchecked
      cases hunchecked
  · rename_i hchecked
    split at h
    · rename_i hunchecked
      refine ⟨?_, by rw [h]; simpa using hunchecked, ?_⟩
      · rw [h]
        exact ⟨fun hstatus ↦ TaskStatus.noConfusion hstatus, fun hall ↦ absurd hall hchecked⟩
      · rw [h]
        exact ⟨fun hstatus ↦ TaskStatus.noConfusion hstatus,
          fun hmixed ↦ absurd hunchecked (hsome.mpr hmixed.1)⟩
    · rename_i hunchecked
      have hfirst := hsome.mp hunchecked
      have hnonempty : task.checkboxes ≠ [] := by
        obtain ⟨box, hbox, -⟩ := hfirst
        exact List.ne_nil_of_mem hbox
      have hlast : ∃ box ∈ task.checkboxes, box.checked = false := by
        by_contra hnone
        refine hchecked ⟨hnonempty, fun box hbox ↦ ?_⟩
        by_contra hbox'
        exact hnone ⟨box, hbox, by simpa using hbox'⟩
      refine ⟨?_, ?_, by rw [h]; simpa using ⟨hfirst, hlast⟩⟩
      · rw [h]
        exact ⟨fun hstatus ↦ TaskStatus.noConfusion hstatus, fun hall ↦ absurd hall hchecked⟩
      · rw [h]
        exact ⟨fun hstatus ↦ TaskStatus.noConfusion hstatus, fun hall ↦ absurd hall hunchecked⟩

theorem judged_of_mem_reading {content : Text} :
    ∀ task ∈ (reading content).tasks, Judged task := by
  intro task htask
  obtain ⟨index, hindex, rfl⟩ := List.mem_mapIdx.mp htask
  exact judged_of_status rfl

/-- Two contents whose lines differ strictly inside one fenced block, where no line closes it. -/
def ChangedInside (content other : Text) : Prop :=
  ∃ before opener run rest inside inside' after,
    linesOf content = before ++ opener :: (inside ++ after) ∧
      linesOf other = before ++ opener :: (inside' ++ after) ∧
        before.foldl fenceAfter none = none ∧ fence opener = some (run, rest) ∧
          ∀ line ∈ inside ++ inside', closesFence line run = false

namespace Pass

theorem foldl_fence (lines : List Text) (pass : Pass) :
    (lines.foldl Pass.line pass).fence = lines.foldl fenceAfter pass.fence := by
  induction lines generalizing pass with
  | nil => rfl
  | cons line rest ih => rw [List.foldl_cons, List.foldl_cons, ih, line_fence]

theorem foldl_inside {opener : Text} {lines : List Text}
    (h : ∀ line ∈ lines, closesFence line opener = false) {pass : Pass}
    (hfence : pass.fence = some opener) : lines.foldl Pass.line pass = pass := by
  induction lines with
  | nil => rfl
  | cons line rest ih =>
      obtain ⟨hline, hrest⟩ := List.forall_mem_cons.mp h
      have hstays : pass.line line = pass := by
        rw [Pass.line, hfence]
        exact if_neg (by rw [hline]; decide)
      rw [List.foldl_cons, hstays]
      exact ih hrest

end Pass

theorem parse_of_changedInside {content other : Text} (h : ChangedInside content other) :
    parse other = parse content := by
  obtain ⟨before, opener, run, rest, inside, inside', after, hcontent, hother, hlive, hopener,
    hinside⟩ := h
  obtain ⟨hfirst, hsecond⟩ := List.forall_mem_append.mp hinside
  have hbefore : (before.foldl Pass.line Pass.start).fence = none := by
    rw [Pass.foldl_fence]
    exact hlive
  have hopens : ((before.foldl Pass.line Pass.start).line opener).fence = some run := by
    rw [Pass.line_opens hbefore hopener]
  rw [parse, parse, hcontent, hother, List.foldl_append, List.foldl_append, List.foldl_cons,
    List.foldl_cons, List.foldl_append, List.foldl_append, Pass.foldl_inside hfirst hopens,
    Pass.foldl_inside hsecond hopens]

/-- **The plan parser.**  A content with fewer than 2^32 tasks is parsed as what it says; the status
of each task is told from its checkboxes; and changing text strictly inside a fenced block, without
adding a line that closes it, changes nothing. -/
theorem parse_is_the_reading {content : Text} (h : (parse content).tasks.length < 4294967296) :
    parse content = reading content ∧ (∀ task ∈ (parse content).tasks, Judged task) ∧
      ∀ other, ChangedInside content other → parse other = parse content := by
  have hparse : parse content = reading content := parse_eq (Nat.le_of_lt h)
  refine ⟨hparse, ?_, fun other hother ↦ parse_of_changedInside hother⟩
  rw [hparse]
  exact judged_of_mem_reading

theorem parse_is_the_reading_one_task :
    parse "### Task 1: a\n- [x] b".toList = reading "### Task 1: a\n- [x] b".toList ∧
      (∀ task ∈ (parse "### Task 1: a\n- [x] b".toList).tasks, Judged task) ∧
      ∀ other, ChangedInside "### Task 1: a\n- [x] b".toList other →
        parse other = parse "### Task 1: a\n- [x] b".toList :=
  parse_is_the_reading (by decide)

end RalphexRunner.Planfile
