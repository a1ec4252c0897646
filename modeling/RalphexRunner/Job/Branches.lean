import RalphexRunner.Agent.Finish

/-!
# The branch a local run works on

`choose` decides up front which branch a local run works on, the way ralphex decides it.
`Ralphex.commits` is ralphex's own rule: on the default branch it creates and commits to the branch
it is given, elsewhere it keeps the branch that is checked out, and it refuses a worktree there.
-/

namespace RalphexRunner

/-- What the checkout's `HEAD` points at. -/
inductive Head where
  | branch (name : Text)
  | detached
  deriving DecidableEq

/-- Why no branch can be chosen for a run. -/
inductive BranchError where
  | detached
  | worktreeOffDefault (current default : Text)
  | ignored (current requested default : Text)
  | baseMissing (base : Text)
  | git (message : Text)
  deriving DecidableEq

/-- The local name of a default branch that may be named as `origin/<name>`. -/
def localName (default : Text) : Text := (stripPrefix default "origin/".toList).getD default

/-- The branch a run of a plan works on, given where the checkout is. -/
def choose (head : Head) (default : Text) (requested : Option Text) (planStem : Text)
    (worktree : Worktree) : Except BranchError Text :=
  match head with
  | .detached => .error .detached
  | .branch current =>
      let default := localName default
      if current = default then
        match requested with
        | some requested => .ok requested
        | none => .ok planStem
      else
        match worktree with
        | .yes => .error (.worktreeOffDefault current default)
        | .no =>
            match requested with
            | none => .ok current
            | some requested =>
                if requested = current then .ok current
                else .error (.ignored current requested default)

/-- The branch ralphex commits to when it is given one, if it starts at all. -/
def Ralphex.commits (head : Head) (default given : Text) (worktree : Worktree) : Option Text :=
  match head with
  | .detached => none
  | .branch current =>
      if current = localName default then some given
      else
        match worktree with
        | .yes => none
        | .no => some current

/-- What a run on the default branch is asked to work on. -/
def asked (requested : Option Text) (planStem : Text) : Text := requested.getD planStem

/-- Every branch that is chosen is the one ralphex commits to, and is not the default branch. -/
def ChoiceAgrees (head : Head) (default : Text) (requested : Option Text) (planStem : Text)
    (worktree : Worktree) : Prop :=
  ∀ branch, choose head default requested planStem worktree = .ok branch →
    Ralphex.commits head default branch worktree = some branch ∧ branch ≠ localName default

variable {head : Head} {default planStem current : Text} {requested : Option Text}
  {worktree : Worktree} {branch : Text}

/-- On the default branch the run works on what it is asked to. -/
theorem choose_on_default (requested : Option Text) (planStem : Text) (worktree : Worktree) :
    choose (.branch (localName default)) default requested planStem worktree =
      .ok (asked requested planStem) := by
  cases requested <;> simp [choose, asked]

/-- Off the default branch the run stays where it is, if it is let. -/
theorem choose_off_default (hcurrent : current ≠ localName default)
    (h : choose (.branch current) default requested planStem worktree = .ok branch) :
    branch = current ∧ worktree = .no := by
  unfold choose at h
  dsimp only at h
  rw [if_neg hcurrent] at h
  cases worktree with
  | yes => cases h
  | no =>
      cases requested with
      | none =>
          cases h
          exact ⟨rfl, rfl⟩
      | some requested =>
          dsimp only at h
          split at h
          · cases h
            exact ⟨rfl, rfl⟩
          · cases h

/-- Whatever is chosen, ralphex commits to it. -/
theorem commits_of_choose (h : choose head default requested planStem worktree = .ok branch) :
    Ralphex.commits head default branch worktree = some branch := by
  cases head with
  | detached => cases h
  | branch current =>
      by_cases hcurrent : current = localName default
      · exact if_pos hcurrent
      · obtain ⟨rfl, rfl⟩ := choose_off_default hcurrent h
        exact if_neg hcurrent

/-- The choice agrees with ralphex and is never the default branch, exactly where a run on the
default branch is not asked to work on the default branch itself. -/
theorem choose_agrees_iff (head : Head) (default : Text) (requested : Option Text)
    (planStem : Text) (worktree : Worktree) :
    ChoiceAgrees head default requested planStem worktree ↔
      ¬ (head = .branch (localName default) ∧ asked requested planStem = localName default) := by
  constructor
  · rintro hagrees ⟨rfl, hasked⟩
    exact (hagrees _ (choose_on_default requested planStem worktree)).2 hasked
  · intro hother branch hchoose
    refine ⟨commits_of_choose hchoose, ?_⟩
    rintro rfl
    cases head with
    | detached => cases hchoose
    | branch current =>
        by_cases hcurrent : current = localName default
        · subst hcurrent
          rw [choose_on_default, Except.ok.injEq] at hchoose
          exact hother ⟨rfl, hchoose⟩
        · exact hcurrent (choose_off_default hcurrent hchoose).1.symm

/-- A run on `main` that is asked to work on `main`, by name or by the stem of its plan, is given
`main`. -/
theorem choose_default :
    (choose (.branch "main".toList) "origin/main".toList (some "main".toList) "plan".toList .no =
        .ok "main".toList ∧
      ¬ ChoiceAgrees (.branch "main".toList) "origin/main".toList (some "main".toList)
        "plan".toList .no) ∧
    ¬ ChoiceAgrees (.branch "main".toList) "main".toList none "main".toList .no := by
  refine ⟨⟨by decide, fun h ↦ ?_⟩, fun h ↦ ?_⟩
  · exact (h "main".toList (by decide)).2 (by decide)
  · exact (h "main".toList (by decide)).2 (by decide)

end RalphexRunner
