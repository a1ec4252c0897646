import RalphexRunner.Agent.Run
import RalphexRunner.PullRequest.Parsing

/-!
# The titles of pull requests

A pull request is titled by the description finalize wrote or, where there is none that is accepted,
after the job.  A job is decoded with its zero values for the fields the farm left out, so the
title it leaves can be empty, and it can hold a newline.
-/

namespace RalphexRunner

/-- A job as the farm sends it: every field but the run id may be left out. -/
structure JobFields where
  runId : RunId
  identifier : Option Text
  issueUrl : Option Text
  title : Option Text
  planPath : Option Text
  branch : Option Branch
  mode : Option Text
  runtime : Option Text
  ctx : Option Text
  createPr : Option CreatePr

/-- The job, with the zero values of what was left out. -/
def JobFields.decode (fields : JobFields) : Job where
  runId := fields.runId
  identifier := fields.identifier.getD []
  issueUrl := fields.issueUrl.getD []
  title := fields.title.getD []
  planPath := fields.planPath.getD []
  branch := fields.branch.getD ⟨[]⟩
  mode := fields.mode.getD []
  runtime := fields.runtime.getD []
  ctx := fields.ctx.getD []
  createPr := fields.createPr.getD .no

/-- The description of a run: none without an output directory, and none that is rejected. -/
def Description.written (opened : Option (Except Unusable (List UInt8))) : Option Description :=
  opened.bind fun opened ↦ (Description.read opened).toOption

/-- The branch, the title and the body `settle` opens a pull request with. -/
def settledSpec (job : Job) (branch : Branch) (written : Option Description) : PrSpec :=
  PrSpec.describe branch (origin job) job.planPath job.runId written

/-- What the title of a job nobody described is made of. -/
def fallbackText (job : Job) : Text :=
  if job.identifier.isEmpty then job.title
  else job.identifier ++ ": ".toList ++ job.title

/-- The characters of a title that survive the cut. -/
def survivors (title : Text) : Text :=
  if title.length ≤ titleLimit then title else title.take (titleLimit - ellipsis.length)

/-- A title of one line that is neither empty nor too long. -/
def Titles (title : Text) : Prop :=
  1 ≤ title.length ∧ title.length ≤ titleLimit ∧ '\n' ∉ title

/-- A title that can be used, and the title and the body of the description, or else the fallback
title and an empty body, with the footer behind it. -/
def UsableSpec (job : Job) (written : Option Description) (spec : PrSpec) : Prop :=
  Titles spec.title ∧
    spec.body = (written.map Description.body).getD [] ++
      footer (origin job) job.planPath job.runId ∧
    (∀ description, written = some description → spec.title = description.title) ∧
    (written = none → spec.title = fallbackTitle (origin job))

variable {job : Job} {title : Text}

/-- What `settle` hands to the sequence. -/
theorem request_eq (setup : Setup) : Finish.request setup.pullRequest setup.tools =
    (do
      let branch ← Finish.pushedBranch setup.pullRequest setup.tools
      let written ← Finish.written setup.pullRequest
      let kept := written.bind fun _ ↦ setup.prFile
      let opened ← Finish.commands
        (Pr.openPullRequest (settledSpec setup.job branch written) setup.tools)
      match opened with
      | .ok url => pure (Finish.removed (done url))
      | .error error => pure (Finish.pullRequestFailed error kept)) := rfl

theorem fallbackTitle_origin (job : Job) :
    fallbackTitle (origin job) = fitTitle (fallbackText job) := by
  unfold origin fallbackText
  split <;> rfl

theorem body_settledSpec (job : Job) (branch : Branch) (written : Option Description) :
    (settledSpec job branch written).body =
      (written.map Description.body).getD [] ++ footer (origin job) job.planPath job.runId := by
  cases written <;> rfl

theorem notMem_fitTitle_iff : '\n' ∉ fitTitle title ↔ '\n' ∉ survivors title := by
  unfold fitTitle survivors
  split
  · exact Iff.rfl
  · rw [List.mem_append, not_or, and_iff_left (by decide)]

theorem fitTitle_ne_nil_iff : fitTitle title ≠ [] ↔ title ≠ [] := by
  unfold fitTitle
  split
  · exact Iff.rfl
  · rename_i hlong
    refine ⟨fun _ hnone ↦ hlong ?_, fun _ hnone ↦ ?_⟩
    · rw [hnone]
      exact Nat.zero_le titleLimit
    · cases (List.append_eq_nil_iff.mp hnone).2

/-- A title that was cut to fit can be used where it was not empty and no newline survives. -/
theorem titles_fitTitle_iff : Titles (fitTitle title) ↔ title ≠ [] ∧ '\n' ∉ survivors title := by
  rw [Titles, ← notMem_fitTitle_iff, ← fitTitle_ne_nil_iff, Nat.one_le_iff_ne_zero, ne_eq,
    List.length_eq_zero_iff]
  exact ⟨fun h ↦ ⟨h.1, h.2.2⟩, fun h ↦ ⟨h.1, length_fitTitle_le title, h.2⟩⟩

/-- What is accepted as a description can be used as a title. -/
theorem titles_of_written {opened : Option (Except Unusable (List UInt8))}
    {description : Description} (h : Description.written opened = some description) :
    Titles description.title := by
  obtain ⟨opened, -, hread⟩ := Option.bind_eq_some_iff.mp h
  cases hresult : Description.read opened with
  | error error =>
      rw [hresult] at hread
      cases hread
  | ok read =>
      rw [hresult] at hread
      cases hread
      have hnormal := Description.normal_of_read hresult
      exact ⟨List.length_pos_iff.mpr hnormal.titled, hnormal.short, hnormal.oneLine⟩

/-- Whatever the farm left out and whatever finalize wrote, what `settle` opens a pull request with
can be used exactly where the description is accepted, or the text the fallback title is made of is
not empty and no newline of it survives the cut. -/
theorem settledSpec_usable_iff (fields : JobFields) (branch : Branch)
    (opened : Option (Except Unusable (List UInt8))) :
    UsableSpec fields.decode (Description.written opened)
        (settledSpec fields.decode branch (Description.written opened)) ↔
      (∃ description, Description.written opened = some description) ∨
        (fallbackText fields.decode ≠ [] ∧ '\n' ∉ survivors (fallbackText fields.decode)) := by
  have hbody := body_settledSpec fields.decode branch (Description.written opened)
  cases hwritten : Description.written opened with
  | some description =>
      rw [hwritten] at hbody
      refine ⟨fun _ ↦ .inl ⟨description, rfl⟩, fun _ ↦ ⟨titles_of_written hwritten, hbody, ?_, ?_⟩⟩
      · intro other hother
        cases hother
        rfl
      · intro hnone
        cases hnone
  | none =>
      rw [hwritten] at hbody
      have htitle : (settledSpec fields.decode branch none).title =
          fitTitle (fallbackText fields.decode) := fallbackTitle_origin _
      rw [UsableSpec, htitle, titles_fitTitle_iff, fallbackTitle_origin]
      constructor
      · exact fun h ↦ .inr h.1
      · rintro (⟨description, hsome⟩ | husable)
        · cases hsome
        · refine ⟨husable, hbody, fun description hsome ↦ ?_, fun _ ↦ rfl⟩
          cases hsome

/-- A job with nothing but a run id. -/
def bareFields : JobFields :=
  ⟨⟨['r']⟩, none, none, none, none, none, none, none, none, some .yes⟩

/-- A job whose title was left out and that nobody described has an empty title, and one whose title
holds a newline keeps it. -/
theorem settledSpec_unusable :
    (¬ UsableSpec bareFields.decode none (settledSpec bareFields.decode ⟨['b']⟩ none) ∧
      (settledSpec bareFields.decode ⟨['b']⟩ none).title = []) ∧
    '\n' ∈ (settledSpec { bareFields with title := some "a\nb".toList }.decode ⟨['b']⟩ none).title
      := by
  refine ⟨⟨fun h ↦ ?_, rfl⟩, by decide⟩
  have hshort : 1 ≤ ([] : Text).length := h.1.1
  cases hshort

end RalphexRunner
