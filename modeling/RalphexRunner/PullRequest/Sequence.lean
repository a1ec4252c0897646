import RalphexRunner.PullRequest.Description
import RalphexRunner.Semantics.Budget
import RalphexRunner.Text.Chars

/-!
# The steps that open a pull request

Each function of `pr.rs` is a program that asks for one `git` or `gh` command at a time and goes on
with how the command ended.
-/

namespace RalphexRunner

open Program

/-- The programs the sequence runs, and the seconds each command is given. -/
structure PrTools where
  git : Text
  gh : Text
  stepTimeout : ℕ

inductive Tool where
  | git
  | gh
  deriving DecidableEq

structure Command where
  tool : Tool
  args : List Text
  deriving DecidableEq

/-- How a command ended. -/
inductive StepOutcome where
  | ran (status : ExitStatus) (stdout stderr : List UInt8)
  | notRun (error : Text)
  | killed
  deriving DecidableEq

abbrev PrProgram := Program Command fun _ ↦ StepOutcome

/-- Why a run that finished could not be turned into a pull request. -/
inductive PrError where
  | list (message : Text)
  | push (message : Text)
  | base (message : Text)
  | create (message : Text)
  deriving DecidableEq

def PrError.failReason : PrError → Text
  | .list _ => "pr_create".toList
  | .push _ => "git_push".toList
  | .base _ => "pr_create".toList
  | .create _ => "pr_create".toList

def PrError.message : PrError → Text
  | .list message => "the pull request could not be looked up: ".toList ++ message
  | .push message => "the branch could not be pushed: ".toList ++ message
  | .base message => "the base branch could not be determined: ".toList ++ message
  | .create message => "the pull request could not be created: ".toList ++ message

namespace Pr

def toolName (tools : PrTools) : Tool → Text
  | .git => tools.git
  | .gh => tools.gh

/-- What a command is called in an error: its program and at most two arguments before an option. -/
def label (program : Text) (args : List Text) : Text :=
  program ++ ((args.take 2).takeWhile fun arg ↦ !(['-'].isPrefixOf arg)).flatMap (' ' :: ·)

/-- The output of a command that succeeded, or what is said of one that did not. -/
def stepResult (tools : PrTools) (command : Command) (outcome : StepOutcome) : Except Text Text :=
  let label := label (toolName tools command.tool) command.args
  match outcome with
  | .notRun error => .error (label ++ " could not be run: ".toList ++ error)
  | .killed => .error
      (label ++ " was killed after ".toList ++ numeral tools.stepTimeout ++ " seconds".toList)
  | .ran status stdout stderr =>
      if status.success then .ok (Utf8.lossy stdout)
      else
        let code :=
          match status.code with
          | some code => numeral code
          | none => "a signal".toList
        .error (label ++ " exited with ".toList ++ code ++ ": ".toList ++
          trim (Utf8.lossy stderr))

/-- Run one command in the checkout. -/
def step (tools : PrTools) (tool : Tool) (args : List Text) : PrProgram (Except Text Text) := do
  let outcome ← ask ⟨tool, args⟩
  pure (stepResult tools ⟨tool, args⟩ outcome)

/-- The branch the checkout has checked out, if it has one. -/
def checkedOut (tools : PrTools) : PrProgram (Option Branch) := do
  match ← step tools .git ["symbolic-ref".toList, "--short".toList, "HEAD".toList] with
  | .error _ => pure none
  | .ok branch =>
      let branch := trim branch
      pure (if branch.isEmpty then none else some ⟨branch⟩)

/-- The default branch, from git or else from the GitHub CLI. -/
def resolveBase (tools : PrTools) : PrProgram (Except PrError Text) := do
  let symbolic ← step tools .git
    ["symbolic-ref".toList, "--short".toList, "refs/remotes/origin/HEAD".toList]
  let named :=
    match symbolic with
    | .error _ => []
    | .ok base => (stripPrefix (trim base) "origin/".toList).getD (trim base)
  if named.isEmpty then
    match ← step tools .gh ["repo".toList, "view".toList, "--json".toList,
        "defaultBranchRef".toList, "--jq".toList, ".defaultBranchRef.name".toList] with
    | .error message => pure (.error (.base message))
    | .ok base =>
        if (trim base).isEmpty then
          pure (.error (.base "neither git nor gh named the default branch".toList))
        else pure (.ok (trim base))
  else pure (.ok named)

/-- The last line that is not blank, trimmed; empty where there is none. -/
def lastLine (printed : Text) : Text :=
  (lines printed).foldl (fun url line ↦ if (trim line).isEmpty then url else trim line) []

/-- The pull request a listing names, if it names one. -/
def listed (printed : Text) : Option Text :=
  let url := trim printed
  if url.isEmpty ∨ url = "null".toList then none else some url

/-- Push the branch of a finished run and report its pull request. -/
def openPullRequest (spec : PrSpec) (tools : PrTools) : PrProgram (Except PrError Text) := do
  let branch := spec.branch.name
  match ← step tools .gh ["pr".toList, "list".toList, "--head".toList, branch, "--state".toList,
      "open".toList, "--json".toList, "url".toList, "--jq".toList, ".[0].url".toList] with
  | .error message => pure (.error (.list message))
  | .ok printed =>
    match listed printed with
    | some existing =>
        match ← step tools .git ["push".toList, "--".toList, "origin".toList, branch] with
        | .error message => pure (.error (.push message))
        | .ok _ => pure (.ok existing)
    | none =>
        match ← step tools .git
            ["push".toList, "-u".toList, "--".toList, "origin".toList, branch] with
        | .error message => pure (.error (.push message))
        | .ok _ =>
          match ← resolveBase tools with
          | .error error => pure (.error error)
          | .ok base =>
            match ← step tools .gh ["pr".toList, "create".toList, "--head".toList, branch,
                "--base".toList, base, "--title".toList, spec.title, "--body".toList,
                spec.body] with
            | .error message => pure (.error (.create message))
            | .ok created =>
              let url := lastLine created
              if url.isEmpty then
                pure (.error (.create "gh pr create printed no pull request URL".toList))
              else pure (.ok url)

section Counting

variable {α : Type} {tools : PrTools} {left : ℕ}

theorem step_counts {tool : Tool} {args : List Text} {next : Except Text Text → PrProgram α}
    (h : ∀ result, Follows counting left (next result)) :
    Follows counting (left + 1) (step tools tool args >>= next) :=
  counting_call fun _ ↦ h _

theorem checkedOut_counts : Follows counting 1 (checkedOut tools) := by
  refine step_counts fun result ↦ ?_
  cases result with
  | error message => trivial
  | ok branch => trivial

/-- The default branch takes a second command where git does not name it. -/
theorem resolveBase_counts {next : Except PrError Text → PrProgram α}
    (h : ∀ base, Follows counting left (next base)) :
    Follows counting (left + 2) (resolveBase tools >>= next) := by
  unfold resolveBase
  rw [bind_assoc]
  refine step_counts fun symbolic ↦ ?_
  dsimp only
  split_ifs
  · rw [bind_assoc]
    refine step_counts fun viewed ↦ ?_
    cases viewed with
    | error message => exact h _
    | ok base =>
        dsimp only
        split
        · exact h _
        · exact h _
  · exact counting_mono (Nat.le_succ left) (h _)

/-- It runs five commands at most. -/
theorem openPullRequest_counts {spec : PrSpec} :
    Follows counting 5 (openPullRequest spec tools) := by
  refine step_counts fun found ↦ ?_
  cases found with
  | error message => trivial
  | ok printed =>
      dsimp only
      split
      · refine step_counts fun pushed ↦ ?_
        cases pushed with
        | error message => trivial
        | ok _ => trivial
      · refine step_counts fun pushed ↦ ?_
        cases pushed with
        | error message => trivial
        | ok _ =>
            refine resolveBase_counts fun resolved ↦ ?_
            cases resolved with
            | error error => trivial
            | ok base =>
                refine step_counts fun created ↦ ?_
                cases created with
                | error message => trivial
                | ok created =>
                    dsimp only
                    split
                    · trivial
                    · trivial

end Counting
end Pr

end RalphexRunner
