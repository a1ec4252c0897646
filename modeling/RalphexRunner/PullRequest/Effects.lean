import Mathlib.Data.List.Induction
import RalphexRunner.PullRequest.Sequence
import RalphexRunner.Semantics.Trace

/-!
# What opening a pull request does

`Course` lists the courses the commands of `openPullRequest` can take, one for each way a step can
end, with the result of each; `course_of_reaches` says that there is no other.  What is said of all
behaviours of `git` and `gh` is read off the courses.
-/

namespace RalphexRunner

open Program

/-- A command together with how it ended. -/
abbrev PrStep := Exchange Command fun _ ↦ StepOutcome

def Command.creates (command : Command) : Bool :=
  command.tool = .gh && ["pr".toList, "create".toList].isPrefixOf command.args

def Command.pushes (command : Command) : Bool :=
  command.tool = .git && ["push".toList].isPrefixOf command.args

namespace Pr

def listCommand (branch : Branch) : Command :=
  ⟨.gh, ["pr".toList, "list".toList, "--head".toList, branch.name, "--state".toList,
    "open".toList, "--json".toList, "url".toList, "--jq".toList, ".[0].url".toList]⟩

/-- The push of a branch, with the options it takes. -/
def pushCommand (options : List Text) (branch : Branch) : Command :=
  ⟨.git, "push".toList :: (options ++ ["--".toList, "origin".toList, branch.name])⟩

def symbolicRef : Command :=
  ⟨.git, ["symbolic-ref".toList, "--short".toList, "refs/remotes/origin/HEAD".toList]⟩

def viewRepo : Command :=
  ⟨.gh, ["repo".toList, "view".toList, "--json".toList, "defaultBranchRef".toList, "--jq".toList,
    ".defaultBranchRef.name".toList]⟩

def createCommand (spec : PrSpec) (base : Text) : Command :=
  ⟨.gh, ["pr".toList, "create".toList, "--head".toList, spec.branch.name, "--base".toList, base,
    "--title".toList, spec.title, "--body".toList, spec.body]⟩

/-- The default branch `git` names, empty where it names none. -/
def namedBase (tools : PrTools) (outcome : StepOutcome) : Text :=
  match stepResult tools symbolicRef outcome with
  | .error _ => []
  | .ok base => (stripPrefix (trim base) "origin/".toList).getD (trim base)

/-- How the default branch can be resolved. -/
inductive Resolution (tools : PrTools) : List PrStep → Except PrError Text → Prop
  | named (symbolic : StepOutcome) : namedBase tools symbolic ≠ [] →
      Resolution tools [⟨symbolicRef, symbolic⟩] (.ok (namedBase tools symbolic))
  | unviewed (symbolic viewing : StepOutcome) (message : Text) : namedBase tools symbolic = [] →
      stepResult tools viewRepo viewing = .error message →
      Resolution tools [⟨symbolicRef, symbolic⟩, ⟨viewRepo, viewing⟩] (.error (.base message))
  | nameless (symbolic viewing : StepOutcome) (viewed : Text) : namedBase tools symbolic = [] →
      stepResult tools viewRepo viewing = .ok viewed → trim viewed = [] →
      Resolution tools [⟨symbolicRef, symbolic⟩, ⟨viewRepo, viewing⟩]
        (.error (.base "neither git nor gh named the default branch".toList))
  | viewed (symbolic viewing : StepOutcome) (viewed : Text) : namedBase tools symbolic = [] →
      stepResult tools viewRepo viewing = .ok viewed → trim viewed ≠ [] →
      Resolution tools [⟨symbolicRef, symbolic⟩, ⟨viewRepo, viewing⟩] (.ok (trim viewed))

/-- The listing named no pull request, and the branch was pushed. -/
structure Pushed (spec : PrSpec) (tools : PrTools) (listing pushing : StepOutcome) : Prop where
  unlisted : ∃ printed, stepResult tools (listCommand spec.branch) listing = .ok printed ∧
    (trim printed = [] ∨ trim printed = "null".toList)
  pushed : ∃ printed, stepResult tools (pushCommand ["-u".toList] spec.branch) pushing = .ok printed

/-- The steps up to the push of a branch that has no pull request. -/
def opening (spec : PrSpec) (listing pushing : StepOutcome) : List PrStep :=
  [⟨listCommand spec.branch, listing⟩, ⟨pushCommand ["-u".toList] spec.branch, pushing⟩]

/-- The courses the sequence can take, and what each comes to. -/
inductive Course (spec : PrSpec) (tools : PrTools) : List PrStep → Except PrError Text → Prop
  | unlisted (listing : StepOutcome) (message : Text) :
      stepResult tools (listCommand spec.branch) listing = .error message →
      Course spec tools [⟨listCommand spec.branch, listing⟩] (.error (.list message))
  | stale (listing pushing : StepOutcome) (printed url message : Text) :
      stepResult tools (listCommand spec.branch) listing = .ok printed →
      listed printed = some url →
      stepResult tools (pushCommand [] spec.branch) pushing = .error message →
      Course spec tools
        [⟨listCommand spec.branch, listing⟩, ⟨pushCommand [] spec.branch, pushing⟩]
        (.error (.push message))
  | updated (listing pushing : StepOutcome) (printed url pushed : Text) :
      stepResult tools (listCommand spec.branch) listing = .ok printed →
      listed printed = some url →
      stepResult tools (pushCommand [] spec.branch) pushing = .ok pushed →
      Course spec tools
        [⟨listCommand spec.branch, listing⟩, ⟨pushCommand [] spec.branch, pushing⟩] (.ok url)
  | unpushed (listing pushing : StepOutcome) (printed message : Text) :
      stepResult tools (listCommand spec.branch) listing = .ok printed → listed printed = none →
      stepResult tools (pushCommand ["-u".toList] spec.branch) pushing = .error message →
      Course spec tools (opening spec listing pushing) (.error (.push message))
  | baseless (listing pushing : StepOutcome) (resolving : List PrStep) (error : PrError) :
      Pushed spec tools listing pushing → Resolution tools resolving (.error error) →
      Course spec tools (opening spec listing pushing ++ resolving) (.error error)
  | uncreated (listing pushing creating : StepOutcome) (resolving : List PrStep)
      (base message : Text) :
      Pushed spec tools listing pushing → Resolution tools resolving (.ok base) →
      stepResult tools (createCommand spec base) creating = .error message →
      Course spec tools
        (opening spec listing pushing ++ (resolving ++ [⟨createCommand spec base, creating⟩]))
        (.error (.create message))
  | unnamed (listing pushing creating : StepOutcome) (resolving : List PrStep)
      (base created : Text) :
      Pushed spec tools listing pushing → Resolution tools resolving (.ok base) →
      stepResult tools (createCommand spec base) creating = .ok created → lastLine created = [] →
      Course spec tools
        (opening spec listing pushing ++ (resolving ++ [⟨createCommand spec base, creating⟩]))
        (.error (.create "gh pr create printed no pull request URL".toList))
  | created (listing pushing creating : StepOutcome) (resolving : List PrStep)
      (base created : Text) :
      Pushed spec tools listing pushing → Resolution tools resolving (.ok base) →
      stepResult tools (createCommand spec base) creating = .ok created → lastLine created ≠ [] →
      Course spec tools
        (opening spec listing pushing ++ (resolving ++ [⟨createCommand spec base, creating⟩]))
        (.ok (lastLine created))

variable {α : Type} {spec : PrSpec} {tools : PrTools} {history : List PrStep}

theorem listed_eq_none_iff {printed : Text} :
    listed printed = none ↔ trim printed = [] ∨ trim printed = "null".toList := by
  unfold listed
  dsimp only
  split_ifs with h <;> rw [List.isEmpty_iff] at h
  · exact ⟨fun _ ↦ h, fun _ ↦ rfl⟩
  · exact ⟨fun hsome ↦ hsome.elim, fun hnone ↦ absurd hnone h⟩

/-- A listing names what it printed, trimmed. -/
theorem eq_of_listed {printed url : Text} (h : listed printed = some url) :
    url = trim printed := by
  unfold listed at h
  dsimp only at h
  split_ifs at h
  exact (Option.some.inj h).symm

/-- The last step of the sequence, with the default branch known. -/
def creation (spec : PrSpec) (tools : PrTools) (base : Text) : PrProgram (Except PrError Text) := do
  match ← step tools .gh (createCommand spec base).args with
  | .error message => pure (.error (.create message))
  | .ok created =>
    let url := lastLine created
    if url.isEmpty then
      pure (.error (.create "gh pr create printed no pull request URL".toList))
    else pure (.ok url)

theorem reaches_step {tool : Tool} {args : List Text} {next : Except Text Text → PrProgram α}
    {result : α} (h : Reaches (step tools tool args >>= next) history (.done result)) :
    ∃ outcome tail, history = ⟨⟨tool, args⟩, outcome⟩ :: tail ∧
      Reaches (next (stepResult tools ⟨tool, args⟩ outcome)) tail (.done result) := by
  rcases Reaches.of_call h with ⟨-, hdone⟩ | ⟨outcome, tail, hhistory, htail⟩
  · cases hdone
  · exact ⟨outcome, tail, hhistory, htail⟩

/-- Where the base comes from. -/
theorem resolution_of_reaches {resolved : Except PrError Text}
    (h : Reaches (resolveBase tools) history (.done resolved)) :
    Resolution tools history resolved := by
  unfold resolveBase at h
  obtain ⟨symbolic, tail, rfl, hnamed⟩ := reaches_step h
  change Reaches (if (namedBase tools symbolic).isEmpty then _ else _) tail _ at hnamed
  split at hnamed
  · rename_i hnone
    have hempty : namedBase tools symbolic = [] := List.isEmpty_iff.mp hnone
    obtain ⟨viewing, rest, rfl, hview⟩ := reaches_step hnamed
    split at hview
    · rename_i message hviewed
      obtain ⟨rfl, rfl⟩ := hview.of_returned
      exact .unviewed symbolic viewing message hempty hviewed
    · rename_i viewed hviewed
      split at hview
      · rename_i hblank
        obtain ⟨rfl, rfl⟩ := hview.of_returned
        exact .nameless symbolic viewing viewed hempty hviewed (List.isEmpty_iff.mp hblank)
      · rename_i hsome
        obtain ⟨rfl, rfl⟩ := hview.of_returned
        exact .viewed symbolic viewing viewed hempty hviewed (by simpa using hsome)
  · rename_i hsome
    obtain ⟨rfl, rfl⟩ := hnamed.of_returned
    exact .named symbolic fun hempty ↦ hsome (List.isEmpty_iff.mpr hempty)

/-- What is left once the default branch is resolved. -/
theorem course_of_pushed {listing pushing : StepOutcome} {result : Except PrError Text}
    (hpushed : Pushed spec tools listing pushing)
    (h : Reaches (resolveBase tools >>= fun resolved ↦
      match resolved with
      | .error error => pure (.error error)
      | .ok base => creation spec tools base) history (.done result)) :
    Course spec tools (opening spec listing pushing ++ history) result := by
  obtain ⟨resolving, rest, resolved, rfl, hresolving, hrest⟩ := h.bind_done
  have hresolution := resolution_of_reaches hresolving
  cases resolved with
  | error error =>
      obtain ⟨rfl, rfl⟩ := hrest.of_returned
      rw [List.append_nil]
      exact .baseless listing pushing resolving error hpushed hresolution
  | ok base =>
      obtain ⟨creating, tail, rfl, hcreate⟩ := reaches_step hrest
      split at hcreate
      · rename_i message hcreating
        obtain ⟨rfl, rfl⟩ := hcreate.of_returned
        exact .uncreated listing pushing creating resolving base message hpushed hresolution
          hcreating
      · rename_i printed hcreating
        dsimp only at hcreate
        split at hcreate
        · rename_i hblank
          obtain ⟨rfl, rfl⟩ := hcreate.of_returned
          exact .unnamed listing pushing creating resolving base printed hpushed hresolution
            hcreating (List.isEmpty_iff.mp hblank)
        · rename_i hsome
          obtain ⟨rfl, rfl⟩ := hcreate.of_returned
          exact .created listing pushing creating resolving base printed hpushed hresolution
            hcreating (by simpa using hsome)

/-- Every run of the sequence takes one of the courses. -/
theorem course_of_reaches {result : Except PrError Text}
    (h : Reaches (openPullRequest spec tools) history (.done result)) :
    Course spec tools history result := by
  obtain ⟨listing, tail, rfl, hlist⟩ := reaches_step h
  split at hlist
  · rename_i message hlisting
    obtain ⟨rfl, rfl⟩ := hlist.of_returned
    exact .unlisted listing message hlisting
  rename_i printed hlisting
  split at hlist
  · rename_i url hlisted
    obtain ⟨pushing, rest, rfl, hpush⟩ := reaches_step hlist
    split at hpush
    · rename_i message hpushing
      obtain ⟨rfl, rfl⟩ := hpush.of_returned
      exact .stale listing pushing printed url message hlisting hlisted hpushing
    · rename_i pushed hpushing
      obtain ⟨rfl, rfl⟩ := hpush.of_returned
      exact .updated listing pushing printed url pushed hlisting hlisted hpushing
  · rename_i hunlisted
    obtain ⟨pushing, rest, rfl, hpush⟩ := reaches_step hlist
    split at hpush
    · rename_i message hpushing
      obtain ⟨rfl, rfl⟩ := hpush.of_returned
      exact .unpushed listing pushing printed message hlisting hunlisted hpushing
    · rename_i pushed hpushing
      exact course_of_pushed
        ⟨⟨printed, hlisting, listed_eq_none_iff.mp hunlisted⟩, pushed, hpushing⟩ hpush

/-- Whose failure an error is, in the words of the step that failed. -/
inductive Blames (spec : PrSpec) (message : Text) : Command → Except PrError Text → Prop
  | list : Blames spec message (listCommand spec.branch) (.error (.list message))
  | push (options : List Text) :
      Blames spec message (pushCommand options spec.branch) (.error (.push message))
  | view : Blames spec message viewRepo (.error (.base message))
  | create (base : Text) : Blames spec message (createCommand spec base) (.error (.create message))

/-- A step that fails is a `symbolic-ref` that `gh repo view` follows, or is the last one and
determines the error. -/
def Fails (spec : PrSpec) (tools : PrTools) (result : Except PrError Text) (step : PrStep)
    (after : List PrStep) : Prop :=
  ∀ message, stepResult tools step.1 step.2 = .error message →
    (step.1 = symbolicRef ∧ ∃ viewing rest, after = ⟨viewRepo, viewing⟩ :: rest) ∨
      (after = [] ∧ Blames spec message step.1 result)

/-- A pull request is asked for only once the listing named none, the branch was pushed and a
default branch was resolved. -/
def Creates (spec : PrSpec) (tools : PrTools) (before : List PrStep) (step : PrStep) : Prop :=
  step.1.creates = true → ∃ listing pushing resolving base,
    before = opening spec listing pushing ++ resolving ∧ Pushed spec tools listing pushing ∧
      Resolution tools resolving (.ok base) ∧ base ≠ [] ∧ step.1 = createCommand spec base

variable {listing pushing : StepOutcome} {resolving : List PrStep} {base : Text}
  {result : Except PrError Text}

theorem Resolution.ne_nil (h : Resolution tools resolving (.ok base)) : base ≠ [] := by
  cases h <;> assumption

/-- Resolving the default branch neither pushes nor creates. -/
theorem Resolution.quiet {resolved : Except PrError Text}
    (h : Resolution tools resolving resolved) :
    ∀ step ∈ resolving, step.1.pushes = false ∧ step.1.creates = false := by
  have hsymbolic : symbolicRef.pushes = false ∧ symbolicRef.creates = false := ⟨rfl, rfl⟩
  have hview : viewRepo.pushes = false ∧ viewRepo.creates = false := ⟨rfl, rfl⟩
  cases h <;> simp [hsymbolic, hview]

theorem creates_of_quiet {before : List PrStep} {step : PrStep} (h : step.1.creates = false) :
    Creates spec tools before step := by
  intro hcreates
  rw [h] at hcreates
  cases hcreates

theorem not_creates_of_mem_opening {step : PrStep} (h : step ∈ opening spec listing pushing) :
    step.1.creates = false := by
  rcases List.mem_cons.mp h with rfl | hmem
  · rfl
  · cases List.mem_singleton.mp hmem
    rfl

theorem justified_create {creating : StepOutcome} (hpushed : Pushed spec tools listing pushing)
    (hresolution : Resolution tools resolving (.ok base)) :
    Justified (Creates spec tools)
      (opening spec listing pushing ++ (resolving ++ [⟨createCommand spec base, creating⟩])) := by
  rw [← List.append_assoc]
  refine Justified.snoc (justified_of_forall fun step hmem before ↦ creates_of_quiet ?_) fun _ ↦
    ⟨listing, pushing, resolving, base, rfl, hpushed, hresolution, hresolution.ne_nil, rfl⟩
  rcases List.mem_append.mp hmem with hopening | hresolving
  · exact not_creates_of_mem_opening hopening
  · exact (hresolution.quiet step hresolving).2

/-- A pull request is asked for only behind the listing, the push and the base. -/
theorem Course.justified (h : Course spec tools history result) :
    Justified (Creates spec tools) history := by
  cases h with
  | unlisted | stale | updated | unpushed =>
      refine justified_of_forall fun step hmem before ↦ creates_of_quiet ?_
      simp only [opening, List.mem_cons, List.not_mem_nil, or_false] at hmem
      rcases hmem with rfl | rfl <;> rfl
  | baseless listing pushing resolving error hpushed hresolution =>
      refine justified_of_forall fun step hmem before ↦ creates_of_quiet ?_
      rcases List.mem_append.mp hmem with hopening | hresolving
      · exact not_creates_of_mem_opening hopening
      · exact (hresolution.quiet step hresolving).2
  | uncreated _ _ _ _ _ _ hpushed hresolution => exact justified_create hpushed hresolution
  | unnamed _ _ _ _ _ _ hpushed hresolution => exact justified_create hpushed hresolution
  | created _ _ _ _ _ _ hpushed hresolution => exact justified_create hpushed hresolution

def pushes (history : List PrStep) : List PrStep := history.filter fun step ↦ step.1.pushes

theorem Resolution.pushes_eq {resolved : Except PrError Text}
    (h : Resolution tools resolving resolved) : pushes resolving = [] :=
  List.filter_eq_nil_iff.mpr fun step hmem ↦ by simp [(h.quiet step hmem).1]

theorem pushes_append (first second : List PrStep) :
    pushes (first ++ second) = pushes first ++ pushes second := List.filter_append ..

theorem pushes_create (creating : StepOutcome) :
    pushes [⟨createCommand spec base, creating⟩] = [] := rfl

theorem pushes_opening : pushes (opening spec listing pushing) =
    [⟨pushCommand ["-u".toList] spec.branch, pushing⟩] := rfl

theorem pushes_created (h : Resolution tools resolving (.ok base)) (creating : StepOutcome) :
    pushes (opening spec listing pushing ++ (resolving ++ [⟨createCommand spec base, creating⟩])) =
      [⟨pushCommand ["-u".toList] spec.branch, pushing⟩] := by
  rw [pushes_append, pushes_append, h.pushes_eq, pushes_create, pushes_opening]
  rfl

/-- Whatever happens, at most one push runs, and its options come before the remote. -/
theorem Course.pushes_eq (h : Course spec tools history result) : pushes history = [] ∨
    ∃ options pushing, (options = [] ∨ options = ["-u".toList]) ∧
      pushes history = [⟨pushCommand options spec.branch, pushing⟩] := by
  cases h with
  | unlisted => exact .inl rfl
  | stale _ pushing => exact .inr ⟨[], pushing, .inl rfl, rfl⟩
  | updated _ pushing => exact .inr ⟨[], pushing, .inl rfl, rfl⟩
  | unpushed _ pushing => exact .inr ⟨_, pushing, .inr rfl, pushes_opening⟩
  | baseless _ pushing resolving _ _ hresolution =>
      refine .inr ⟨_, pushing, .inr rfl, ?_⟩
      rw [pushes_append, hresolution.pushes_eq, List.append_nil, pushes_opening]
  | uncreated _ pushing creating _ _ _ _ hresolution =>
      exact .inr ⟨_, pushing, .inr rfl, pushes_created hresolution creating⟩
  | unnamed _ pushing creating _ _ _ _ hresolution =>
      exact .inr ⟨_, pushing, .inr rfl, pushes_created hresolution creating⟩
  | created _ pushing creating _ _ _ _ hresolution =>
      exact .inr ⟨_, pushing, .inr rfl, pushes_created hresolution creating⟩

/-- A step that succeeded asks for nothing. -/
theorem fails_of_ok {step : PrStep} {after : List PrStep} {printed : Text}
    (h : stepResult tools step.1 step.2 = .ok printed) : Fails spec tools result step after := by
  intro message hfailed
  rw [h] at hfailed
  cases hfailed

/-- A step that blames the result is the last one. -/
theorem fails_of_error {step : PrStep} {message : Text}
    (h : stepResult tools step.1 step.2 = .error message)
    (hblames : Blames spec message step.1 result) : Fails spec tools result step [] := by
  intro other hfailed
  rw [h] at hfailed
  cases hfailed
  exact .inr ⟨rfl, hblames⟩

theorem Pushed.heeded (h : Pushed spec tools listing pushing) {after : List PrStep}
    (hafter : Heeded (Fails spec tools result) after) :
    Heeded (Fails spec tools result) (opening spec listing pushing ++ after) := by
  obtain ⟨⟨printed, hlisting, -⟩, pushed, hpushing⟩ := h
  exact (hafter.cons (fails_of_ok hpushing)).cons (fails_of_ok hlisting)

theorem ok_of_namedBase {symbolic : StepOutcome} (h : namedBase tools symbolic ≠ []) :
    ∃ printed, stepResult tools symbolicRef symbolic = .ok printed := by
  unfold namedBase at h
  split at h
  · exact absurd rfl h
  · exact ⟨_, ‹_›⟩

/-- Where the default branch was resolved, a `symbolic-ref` that failed was followed by the view. -/
theorem Resolution.heeded (h : Resolution tools resolving (.ok base)) {after : List PrStep}
    (hafter : Heeded (Fails spec tools result) after) :
    Heeded (Fails spec tools result) (resolving ++ after) := by
  cases h with
  | named symbolic hnamed =>
      obtain ⟨printed, hok⟩ := ok_of_namedBase hnamed
      exact hafter.cons (fails_of_ok hok)
  | viewed symbolic viewing viewed hnamed hview hsome =>
      exact (hafter.cons (fails_of_ok hview)).cons fun message _ ↦ .inl ⟨rfl, viewing, after, rfl⟩

theorem Resolution.heeded_error {error : PrError} (h : Resolution tools resolving (.error error)) :
    Heeded (Fails spec tools (.error error)) resolving := by
  cases h with
  | unviewed symbolic viewing message hnamed hview =>
      exact (heeded_nil.cons (fails_of_error hview .view)).cons fun _ _ ↦
        .inl ⟨rfl, viewing, [], rfl⟩
  | nameless symbolic viewing viewed hnamed hview hblank =>
      exact (heeded_nil.cons (fails_of_ok hview)).cons fun _ _ ↦ .inl ⟨rfl, viewing, [], rfl⟩

/-- A failing step is the last and determines the error, but for the look at `origin/HEAD`. -/
theorem Course.heeded (h : Course spec tools history result) :
    Heeded (Fails spec tools result) history := by
  cases h with
  | unlisted listing message hlisting => exact heeded_nil.cons (fails_of_error hlisting .list)
  | stale listing pushing printed url message hlisting hlisted hpushing =>
      exact (heeded_nil.cons (fails_of_error hpushing (.push []))).cons (fails_of_ok hlisting)
  | updated listing pushing printed url pushed hlisting hlisted hpushing =>
      exact (heeded_nil.cons (fails_of_ok hpushing)).cons (fails_of_ok hlisting)
  | unpushed listing pushing printed message hlisting hlisted hpushing =>
      exact (heeded_nil.cons (fails_of_error hpushing (.push _))).cons (fails_of_ok hlisting)
  | baseless listing pushing resolving error hpushed hresolution =>
      exact hpushed.heeded hresolution.heeded_error
  | uncreated listing pushing creating resolving base message hpushed hresolution hcreating =>
      exact hpushed.heeded (hresolution.heeded
        (heeded_nil.cons (fails_of_error hcreating (.create base))))
  | unnamed listing pushing creating resolving base created hpushed hresolution hcreating =>
      exact hpushed.heeded (hresolution.heeded (heeded_nil.cons (fails_of_ok hcreating)))
  | created listing pushing creating resolving base created hpushed hresolution hcreating =>
      exact hpushed.heeded (hresolution.heeded (heeded_nil.cons (fails_of_ok hcreating)))

/-- The last line that is not blank is one, and only blank lines follow it. -/
theorem lastLine_eq {printed url : Text} (h : lastLine printed = url) (hurl : url ≠ []) :
    ∃ before line after, lines printed = before ++ line :: after ∧
      (∀ later ∈ after, trim later = []) ∧ url = trim line := by
  unfold lastLine at h
  generalize lines printed = printed at h ⊢
  induction printed using List.reverseRecOn generalizing url with
  | nil => exact absurd h.symm hurl
  | append_singleton lines last ih =>
      rw [List.foldl_concat] at h
      split at h
      · rename_i hblank
        obtain ⟨before, line, after, rfl, hafter, hline⟩ := ih hurl h
        refine ⟨before, line, after ++ [last], by simp, fun later hmem ↦ ?_, hline⟩
        rcases List.mem_append.mp hmem with hearlier | hlast
        · exact hafter later hearlier
        · rw [List.mem_singleton.mp hlast]
          exact List.isEmpty_iff.mp hblank
      · exact ⟨lines, last, [], rfl, nofun, h.symm⟩

/-- Where a fresh branch was pushed the listing named nothing. -/
theorem Pushed.unnamed (h : Pushed spec tools listing pushing) {printed : Text}
    (hlisting : stepResult tools (listCommand spec.branch) listing = .ok printed) :
    ¬ (trim printed ≠ [] ∧ trim printed ≠ "null".toList) := by
  rintro ⟨hsome, hnull⟩
  obtain ⟨⟨other, hother, hnone⟩, -⟩ := h
  rw [hlisting] at hother
  cases hother
  exact hnone.elim hsome hnull

/-- The first step lists; where it names a pull request a push is all that follows, and a push that
succeeds returns what was named. -/
def Listed (spec : PrSpec) (tools : PrTools) (result : Except PrError Text)
    (history : List PrStep) : Prop :=
  ∃ listing, history.head? = some ⟨listCommand spec.branch, listing⟩ ∧
    ∀ printed, stepResult tools (listCommand spec.branch) listing = .ok printed →
      trim printed ≠ [] ∧ trim printed ≠ "null".toList →
      ∃ pushing, history = [⟨listCommand spec.branch, listing⟩,
          ⟨pushCommand [] spec.branch, pushing⟩] ∧
        ∀ url, result = .ok url ↔ url = trim printed ∧
          ∃ pushed, stepResult tools (pushCommand [] spec.branch) pushing = .ok pushed

theorem Pushed.listed (h : Pushed spec tools listing pushing) (after : List PrStep) :
    Listed spec tools result (opening spec listing pushing ++ after) :=
  ⟨listing, rfl, fun _ hlisting hnamed ↦ (h.unnamed hlisting hnamed).elim⟩

/-- Where the listing names a pull request, a push is all that follows. -/
theorem Course.listed (h : Course spec tools history result) :
    Listed spec tools result history := by
  cases h with
  | unlisted listing message hlisting =>
      refine ⟨listing, rfl, fun printed hprinted ↦ ?_⟩
      rw [hlisting] at hprinted
      cases hprinted
  | stale listing pushing printed url message hlisting hlisted hpushing =>
      refine ⟨listing, rfl, fun other hother _ ↦ ⟨pushing, rfl, fun named ↦ ?_⟩⟩
      rw [hpushing]
      constructor
      · intro hresult
        cases hresult
      · rintro ⟨-, pushed, hpushed⟩
        cases hpushed
  | updated listing pushing printed url pushed hlisting hlisted hpushing =>
      refine ⟨listing, rfl, fun other hother _ ↦ ⟨pushing, rfl, fun named ↦ ?_⟩⟩
      rw [hlisting] at hother
      cases hother
      rw [← eq_of_listed hlisted, Except.ok.injEq, eq_comm]
      exact ⟨fun hsame ↦ ⟨hsame, pushed, hpushing⟩, fun hboth ↦ hboth.1⟩
  | unpushed listing pushing printed message hlisting hunlisted =>
      refine ⟨listing, rfl, fun other hother hnamed ↦ ?_⟩
      rw [hlisting] at hother
      cases hother
      exact ((listed_eq_none_iff.mp hunlisted).elim hnamed.1 hnamed.2).elim
  | baseless _ _ _ _ hpushed => exact hpushed.listed _
  | uncreated _ _ _ _ _ _ hpushed => exact hpushed.listed _
  | unnamed _ _ _ _ _ _ hpushed => exact hpushed.listed _
  | created _ _ _ _ _ _ hpushed => exact hpushed.listed _

/-- Only the last step creates. -/
theorem eq_of_created {creating other : StepOutcome} {named : Text}
    (hresolution : Resolution tools resolving (.ok base))
    (h : ⟨createCommand spec named, other⟩ ∈ opening spec listing pushing ++
      (resolving ++ [⟨createCommand spec base, creating⟩])) :
    createCommand spec named = createCommand spec base ∧ other = creating := by
  have hcreates : (createCommand spec named).creates = true := rfl
  rcases List.mem_append.mp h with hopening | hmore
  · rw [not_creates_of_mem_opening hopening] at hcreates
    cases hcreates
  rcases List.mem_append.mp hmore with hresolving | hlast
  · rw [(hresolution.quiet _ hresolving).2] at hcreates
    cases hcreates
  · have hsame := List.mem_singleton.mp hlast
    rw [Sigma.mk.injEq] at hsame
    exact ⟨hsame.1, eq_of_heq hsame.2⟩

/-- A URL returned after a create is the last line that is not blank of what it printed. -/
def Returns (spec : PrSpec) (tools : PrTools) (result : Except PrError Text)
    (history : List PrStep) : Prop :=
  ∀ base creating url, ⟨createCommand spec base, creating⟩ ∈ history → result = .ok url →
    url ≠ [] ∧ ∃ printed before line after,
      stepResult tools (createCommand spec base) creating = .ok printed ∧
        lines printed = before ++ line :: after ∧ (∀ later ∈ after, trim later = []) ∧
          url = trim line

/-- A URL behind a create is the last line that is not blank. -/
theorem Course.returns (h : Course spec tools history result) :
    Returns spec tools result history := by
  intro base creating url hmem hresult
  cases h with
  | unlisted | stale | unpushed | baseless | uncreated | unnamed => cases hresult
  | updated listing pushing =>
      rcases List.mem_cons.mp hmem with hlist | hpush
      · cases congrArg (fun step : PrStep ↦ step.1.creates) hlist
      · cases congrArg (fun step : PrStep ↦ step.1.creates) (List.mem_singleton.mp hpush)
  | created listing pushing creating resolving base created hpushed hresolution hcreating hsome =>
      obtain ⟨hcommand, rfl⟩ := eq_of_created hresolution hmem
      cases hresult
      obtain ⟨before, line, after, hlines, hafter, hurl⟩ := lastLine_eq rfl hsome
      rw [hcommand]
      exact ⟨hsome, created, before, line, after, hcreating, hlines, hafter, hurl⟩

/-! ## The effects -/

/-- The look at the checked-out branch and the sequence behind it. -/
theorem checkedOut_openPullRequest_counts (specs : Option Branch → PrSpec) :
    Follows counting prSteps
      (checkedOut tools >>= fun actual ↦ openPullRequest (specs actual) tools) := by
  unfold checkedOut
  rw [bind_assoc]
  refine step_counts fun result ↦ ?_
  cases result with
  | error message => exact openPullRequest_counts
  | ok branch => exact openPullRequest_counts

/-- **The effects of opening a pull request**, for every behaviour of `git` and `gh`: a pull request
is created only behind an empty listing, a push and a default branch; one push runs at most, its
remote and its branch behind the end of the options; a listed pull request is only pushed to; what
is returned after a create is the last line it printed; the first failing step is the last, but for
a `symbolic-ref`, which `gh repo view` follows; and with the look at the checked-out branch no more
steps run than the budget is made for. -/
theorem openPullRequest_effects
    (h : Reaches (openPullRequest spec tools) history (.done result)) :
    Justified (Creates spec tools) history ∧
    ((pushes history).length ≤ 1 ∧ ∀ step ∈ pushes history, ∃ options,
      step.1.args = "push".toList :: (options ++ ["--".toList, "origin".toList, spec.branch.name]) ∧
        "--".toList ∉ options) ∧
    Listed spec tools result history ∧
    Returns spec tools result history ∧
    Heeded (Fails spec tools result) history ∧
    ∀ (specs : Option Branch → PrSpec) (steps : List PrStep)
      (rest : PrProgram (Except PrError Text)),
      Reaches (checkedOut tools >>= fun actual ↦ openPullRequest (specs actual) tools) steps rest →
        steps.length ≤ prSteps := by
  have hcourse := course_of_reaches h
  refine ⟨hcourse.justified, ?_, hcourse.listed, hcourse.returns, hcourse.heeded, ?_⟩
  · rcases hcourse.pushes_eq with hnone | ⟨options, pushing, hoptions, hone⟩
    · rw [hnone]
      exact ⟨Nat.zero_le 1, nofun⟩
    · rw [hone]
      refine ⟨Nat.le_refl 1, fun step hmem ↦ ⟨options, ?_, ?_⟩⟩
      · rw [List.mem_singleton.mp hmem]
        rfl
      · rcases hoptions with rfl | rfl <;> decide
  · intro specs steps rest hsteps
    exact length_le_of_counting (checkedOut_openPullRequest_counts specs) hsteps

/-- A checkout without a pull request whose every step succeeds. -/
def succeeding (command : Command) : StepOutcome :=
  if command.creates then .ran ⟨some 0⟩ [117] []
  else if command = symbolicRef then .ran ⟨some 0⟩ [109] []
  else .ran ⟨some 0⟩ [] []

theorem openPullRequest_effects_succeeding :
    ∃ history, Reaches (openPullRequest ⟨⟨['b']⟩, ['t'], []⟩ ⟨['g'], ['h'], 60⟩) history
        (.done (.ok ['u'])) ∧
      Justified (Creates ⟨⟨['b']⟩, ['t'], []⟩ ⟨['g'], ['h'], 60⟩) history ∧
      history.map (·.1) = [listCommand ⟨['b']⟩, pushCommand ["-u".toList] ⟨['b']⟩, symbolicRef,
        createCommand ⟨⟨['b']⟩, ['t'], []⟩ ['m']] := by
  have hreaches : Reaches (openPullRequest ⟨⟨['b']⟩, ['t'], []⟩ ⟨['g'], ['h'], 60⟩) _ _ :=
    reaches_answeredBy succeeding _
  have hresult : ((openPullRequest ⟨⟨['b']⟩, ['t'], []⟩ ⟨['g'], ['h'], 60⟩).answeredBy
      succeeding).2 = .ok ['u'] := rfl
  rw [hresult] at hreaches
  exact ⟨_, hreaches, (openPullRequest_effects hreaches).1, rfl⟩

end Pr

end RalphexRunner
