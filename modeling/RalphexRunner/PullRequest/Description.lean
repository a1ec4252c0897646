import RalphexRunner.Agent.Outcome

/-!
# Titles and bodies of pull requests

A pull request is titled and described by what finalize wrote, or by a fallback title and an empty
body; the farm's footer follows the body either way.
-/

namespace RalphexRunner

/-- What finalize wrote. -/
structure Description where
  title : Text
  body : Text
  deriving DecidableEq

/-- Where a run came from. -/
inductive RunOrigin where
  | ticket (identifier issueUrl title : Text)
  | local (title : Text)
  deriving DecidableEq

def titleLimit : ℕ := 256

def ellipsis : Text := "...".toList

/-- A title cut to the limit, ending in an ellipsis where it had to be cut. -/
def fitTitle (title : Text) : Text :=
  if title.length ≤ titleLimit then title
  else title.take (titleLimit - ellipsis.length) ++ ellipsis

/-- The title of a pull request nobody described. -/
def fallbackTitle : RunOrigin → Text
  | .ticket identifier _ title => fitTitle (identifier ++ ": ".toList ++ title)
  | .local title => fitTitle title

/-- What the farm appends to every body. -/
def footer (origin : RunOrigin) (plan : Text) (runId : RunId) : Text :=
  let head := "plan: `".toList ++ plan ++ "` - run `".toList ++ runId.value ++ "`".toList
  let head :=
    match origin with
    | .ticket identifier issueUrl _ =>
        if issueUrl.isEmpty then identifier ++ " - ".toList ++ head
        else "[".toList ++ identifier ++ "](".toList ++ issueUrl ++ ") - ".toList ++ head
    | .local _ => head
  "\n\n---\n\n".toList ++ head ++ "\n\nOpened automatically by ralphex-farm.".toList

/-- The origin of a job: one without a ticket identifier is a local run. -/
def origin (job : Job) : RunOrigin :=
  if job.identifier.isEmpty then .local job.title
  else .ticket job.identifier job.issueUrl job.title

/-- The branch, the title and the body of one pull request. -/
structure PrSpec where
  branch : Branch
  title : Text
  body : Text
  deriving DecidableEq

def PrSpec.describe (branch : Branch) (origin : RunOrigin) (plan : Text) (runId : RunId)
    (written : Option Description) : PrSpec :=
  let description := written.getD ⟨fallbackTitle origin, []⟩
  ⟨branch, description.title, description.body ++ footer origin plan runId⟩

/-- No title the daemon makes up exceeds the limit. -/
theorem length_fitTitle_le (title : Text) : (fitTitle title).length ≤ titleLimit := by
  unfold fitTitle
  split
  · assumption
  · have hellipsis : ellipsis.length = 3 := rfl
    have hlimit : titleLimit = 256 := rfl
    rw [List.length_append, List.length_take, hellipsis]
    omega

end RalphexRunner
