import RalphexRunner.PullRequest.Effects

/-!
# What the last step ends the sequence with

`ending` reads off how one command ended whether it ends the sequence, and with which result: a
failure under the step's own error, or the URL.  Besides that step only the listing counts, for the
URL of a pull request that was there already.

Where the answers of `git` and `gh` are such that every ending is good, what opening a pull request
comes to is good.
-/

namespace RalphexRunner

open Program

def Command.lists (command : Command) : Bool :=
  command.tool = .gh && ["pr".toList, "list".toList].isPrefixOf command.args

/-- The command asks GitHub for the default branch. -/
def Command.views (command : Command) : Bool :=
  command.tool = .gh && ["repo".toList, "view".toList].isPrefixOf command.args

namespace Pr

/-- The URL the listing named, behind one more step. -/
def remembered (url : Option Text) (command : Command) (result : Except Text Text) : Option Text :=
  if command.lists then
    match result with
    | .error _ => none
    | .ok printed => listed printed
  else url

/-- The error a step that failed ends the sequence with. -/
def blamed (command : Command) (message : Text) : Option PrError :=
  if command.lists then some (.list message)
  else if command.pushes then some (.push message)
  else if command.views then some (.base message)
  else if command.creates then some (.create message)
  else none

/-- What a step ends the sequence with, if it ends it. -/
def ending (url : Option Text) (command : Command) : Except Text Text →
    Option (Except PrError Text)
  | .error message => (blamed command message).map .error
  | .ok printed =>
      if command.pushes then url.map .ok
      else if command.views then
        if (trim printed).isEmpty then
          some (.error (.base "neither git nor gh named the default branch".toList))
        else none
      else if command.creates then
        if (lastLine printed).isEmpty then
          some (.error (.create "gh pr create printed no pull request URL".toList))
        else some (.ok (lastLine printed))
      else none

/-- The answers are such that every ending is good. -/
def endingWell (tools : PrTools) (good : Except PrError Text → Prop) :
    Protocol Command (fun _ ↦ StepOutcome) (Except PrError Text) (Option Text) where
  permits _ _ := True
  promises url command outcome :=
    ∀ result, ending url command (stepResult tools command outcome) = some result → good result
  move url command outcome := remembered url command (stepResult tools command outcome)
  ends _ := good

variable {tools : PrTools} {spec : PrSpec} {good : Except PrError Text → Prop} {url : Option Text}

/-- The rule of a command. -/
theorem endingWell_step {tool : Tool} {args : List Text}
    {next : Except Text Text → PrProgram (Except PrError Text)}
    (h : ∀ answer, (∀ result, ending url ⟨tool, args⟩ answer = some result → good result) →
      Follows (endingWell tools good) (remembered url ⟨tool, args⟩ answer) (next answer)) :
    Follows (endingWell tools good) url (step tools tool args >>= next) :=
  ⟨trivial, fun _ hanswer ↦ h _ hanswer⟩

/-- The default branch is resolved, or its view ends the sequence. -/
theorem endingWell_resolveBase {next : Except PrError Text → PrProgram (Except PrError Text)}
    (herror : ∀ error, good (.error error) →
      Follows (endingWell tools good) url (next (.error error)))
    (hok : ∀ base, Follows (endingWell tools good) url (next (.ok base))) :
    Follows (endingWell tools good) url (resolveBase tools >>= next) := by
  unfold resolveBase
  rw [bind_assoc]
  refine endingWell_step fun symbolic _ ↦ ?_
  dsimp only
  split_ifs
  · rw [bind_assoc]
    refine endingWell_step fun viewed hview ↦ ?_
    cases viewed with
    | error message => exact herror _ (hview _ rfl)
    | ok printed =>
        dsimp only
        split
        · rename_i hblank
          exact herror _ (hview _ (if_pos hblank))
        · exact hok _
  · exact hok _

/-- What opening a pull request comes to is the ending of one of its steps. -/
theorem openPullRequest_endingWell :
    Follows (endingWell tools good) url (openPullRequest spec tools) := by
  refine endingWell_step fun found hlist ↦ ?_
  cases found with
  | error message => exact hlist _ rfl
  | ok printed =>
      change Follows _ (listed printed) _
      dsimp only
      cases listed printed with
      | some existing =>
          refine endingWell_step fun pushed hpush ↦ ?_
          cases pushed with
          | error message => exact hpush _ rfl
          | ok _ => exact hpush _ rfl
      | none =>
          refine endingWell_step fun pushed hpush ↦ ?_
          cases pushed with
          | error message => exact hpush _ rfl
          | ok _ =>
              refine endingWell_resolveBase (fun error herror ↦ herror) fun base ↦ ?_
              refine endingWell_step fun created hcreate ↦ ?_
              cases created with
              | error message => exact hcreate _ rfl
              | ok created =>
                  dsimp only
                  split
                  · rename_i hblank
                    exact hcreate _ (if_pos hblank)
                  · rename_i hsome
                    exact hcreate _ (if_neg hsome)

end Pr

end RalphexRunner
