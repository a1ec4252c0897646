import Mathlib.Data.List.DropRight
import RalphexRunner.Agent.Slot
import RalphexRunner.Job.Branches
import RalphexRunner.PullRequest.Sequence
import RalphexRunner.Text.Encoding
import RalphexRunner.Text.Trimming

/-!
# What a client asks for

`rxd` turns its arguments and the checkout it stands in into a request: it asks git where the
checkout is and which branch is its default, decides on the branch of the run, and has the base of
its pull request on `origin` before anything is started.

A `Repository` is what git reports of a checkout.  Between two questions nobody else is taken to
change it.
-/

namespace RalphexRunner

open Program

/-- What a command printed, and how it ended. -/
structure Output where
  status : ExitStatus
  stdout : List UInt8
  stderr : List UInt8

def BranchError.message : BranchError → Text
  | .detached => ("the checkout is on a detached HEAD: ralphex would commit to no branch, so " ++
      "nothing could be pushed; check out a branch first").toList
  | .worktreeOffDefault current default => "--worktree needs the checkout on ".toList ++ default ++
      ", but it is on ".toList ++ current
  | .ignored current requested default => "the checkout is on ".toList ++ current ++
      ": ralphex keeps working there and would ignore --branch ".toList ++ requested ++
      "; drop --branch, or check out ".toList ++ default ++ " first".toList
  | .baseMissing base => "the base branch ".toList ++ base ++
      (" is not on origin, so no pull request could be opened into it; push it first " ++
        "(git push -u origin ").toList ++ base ++ ") and run again".toList
  | .git message => message

/-- What a client asks of the machine it runs on. -/
inductive Question where
  | currentDir
  | canonicalize (path : List UInt8)
  | git (ctx : List UInt8) (args : List Text)
  | vars

abbrev Question.Answer : Question → Type
  | .currentDir => Except Text (List UInt8)
  | .canonicalize _ => Except Text (List UInt8)
  | .git _ _ => Except Text Output
  | .vars => List (List UInt8 × List UInt8)

abbrev Asking := Program Question Question.Answer

namespace Checkout

def commonDefaults : List Text :=
  ["main".toList, "master".toList, "trunk".toList, "develop".toList]

def git (ctx : List UInt8) (args : List Text) : Asking (Except BranchError Output) :=
  .call (.git ctx args) fun
    | .ok output => .done (.ok output)
    | .error error => .done (.error (.git ("git could not be run: ".toList ++ error)))

def localBranch (ctx : List UInt8) (name : Text) : Asking Bool :=
  git ctx ["show-ref".toList, "--verify".toList, "--quiet".toList,
      "refs/heads/".toList ++ name] >>= fun
    | .ok output => .done output.status.success
    | .error _ => .done false

/-- What the checkout has checked out. -/
def head (lowercase : Text → Text) (ctx : List UInt8) : Asking (Except BranchError Head) :=
  git ctx ["symbolic-ref".toList, "--short".toList, "HEAD".toList] >>= fun
    | .error error => .done (.error error)
    | .ok output =>
        if output.status.success then .done (.ok (.branch (trim (Utf8.lossy output.stdout))))
        else
          let stderr := lowercase (Utf8.lossy output.stderr)
          if "not a symbolic ref".toList <:+: stderr then .done (.ok .detached)
          else .done (.error (.git (Utf8.lossy ctx ++ " is not a usable git checkout: ".toList ++
            trim stderr)))

/-- The first of some branches that exists locally. -/
def firstLocal (ctx : List UInt8) : List Text → Asking Text
  | [] => .done "master".toList
  | name :: names => localBranch ctx name >>= fun
      | true => .done name
      | false => firstLocal ctx names

/-- The branch `origin/HEAD` names, if it does. -/
def originHead : Except BranchError Output → Option Text
  | .ok output =>
      if output.status.success then
        stripPrefix (trim (Utf8.lossy output.stdout)) "refs/remotes/origin/".toList
      else none
  | .error _ => none

def defaultBranch (ctx : List UInt8) : Asking Text :=
  git ctx ["symbolic-ref".toList, "refs/remotes/origin/HEAD".toList] >>= fun symbolic ↦
    match originHead symbolic with
    | some name => localBranch ctx name >>= fun
        | true => .done name
        | false => .done ("origin/".toList ++ name)
    | none => firstLocal ctx commonDefaults

def requireRemoteBase (ctx : List UInt8) (base : Text) : Asking (Except BranchError Unit) :=
  let base := localName base
  git ctx ["ls-remote".toList, "--heads".toList, "origin".toList,
      "refs/heads/".toList ++ base] >>= fun
    | .error error => .done (.error error)
    | .ok output =>
        if !output.status.success then
          .done (.error (.git ("origin could not be asked for ".toList ++ base ++ ": ".toList ++
            trim (Utf8.lossy output.stderr))))
        else if trim (Utf8.lossy output.stdout) = [] then .done (.error (.baseMissing base))
        else .done (.ok ())

end Checkout

/-! ## The request -/

namespace Rxd

/-- The arguments of a run. -/
structure RunArgs where
  plan : Option (List UInt8)
  branch : Option Text
  noPr : Bool
  worktree : Bool

def slash : UInt8 := 0x2F

def dot : UInt8 := 0x2E

/-- A path taken from a directory, which an absolute one leaves. -/
def join (directory path : List UInt8) : List UInt8 :=
  if path.head? = some slash then path
  else if directory.getLast? = some slash then directory ++ path
  else directory ++ slash :: path

/-- The last component of a path, if it names something. -/
def fileName (path : List UInt8) : Option (List UInt8) :=
  let components := (path.splitOn slash).filter fun part ↦ part ≠ [] ∧ part ≠ [dot]
  components.getLast?.filter (· ≠ [dot, dot])

/-- The part of a name in front of its last dot, unless that is the first of its characters. -/
def stem (name : List UInt8) : List UInt8 :=
  let before := (name.rdropWhile (· ≠ dot)).dropLast
  if before = [] then name else before

def planStem (plan : List UInt8) : Text :=
  match fileName plan with
  | some name => Utf8.lossy (stem name)
  | none => "ralphex".toList

example : planStem (Utf8.encode "/c/docs/plans/20260927-heap.v2.md".toList) =
    "20260927-heap.v2".toList := by
  decide

def text? (bytes : List UInt8) : Option Text :=
  match Utf8.check bytes with
  | .ok () => some (Utf8.lossy bytes)
  | .error _ => none

/-- The environment entries the run inherits. -/
def forwarded (vars : List (List UInt8 × List UInt8)) : List (Text × Text) :=
  vars.filterMap fun var ↦
    match text? var.1, text? var.2 with
    | some key, some value =>
        if key = "CLAUDE_CONFIG_DIR".toList ∨ "AGTERM_".toList <+: key then some (key, value)
        else none
    | _, _ => none

/-- What a run asks for, and the environment entries that come with it. -/
abbrev Described := Except Text (RunRequest × List (Text × Text))

/-- The request for a plan that is found, on a branch that is chosen. -/
def requested (run : RunArgs) (ctx plan : List UInt8) (branch : Text) : RunRequest where
  ctx := Utf8.lossy ctx
  plan := Utf8.lossy plan
  branch := ⟨branch⟩
  createPr := if run.noPr then .no else .yes
  worktree := if run.worktree then .yes else .no

def described (run : RunArgs) (ctx plan : List UInt8) (branch : Text) : Asking Described :=
  .call .vars fun vars ↦ .done (.ok (requested run ctx plan branch, forwarded vars))

/-- The branch is chosen for a plan that is found. -/
def branched (lowercase : Text → Text) (run : RunArgs) (ctx plan : List UInt8) :
    Asking Described :=
  Checkout.head lowercase ctx >>= fun
    | .error error => .done (.error error.message)
    | .ok head => Checkout.defaultBranch ctx >>= fun default ↦
        match choose head default run.branch (planStem plan)
          (if run.worktree then .yes else .no) with
        | .error error => .done (.error error.message)
        | .ok branch =>
            if run.noPr then described run ctx plan branch
            else Checkout.requireRemoteBase ctx default >>= fun
              | .error error => .done (.error error.message)
              | .ok () => described run ctx plan branch

def describe (lowercase : Text → Text) (run : RunArgs) : Asking Described :=
  match run.plan with
  | none => .done (.error "a plan path is required; see rxd --help".toList)
  | some plan => .call .currentDir fun
      | .error error =>
          .done (.error ("the current directory is unusable: ".toList ++ error))
      | .ok directory => .call (.canonicalize directory) fun
          | .error _ => .done (.error (Utf8.lossy directory ++ " does not resolve".toList))
          | .ok ctx => .call (.canonicalize (join ctx plan)) fun
              | .error error =>
                  .done (.error (Utf8.lossy (join ctx plan) ++ ": ".toList ++ error))
              | .ok plan => branched lowercase run ctx plan

end Rxd

/-! ## What git reports -/

/-- A checkout and its `origin`: the branch that is checked out, the local branches, the branch
`origin/HEAD` names, and the branches of `origin` with their objects, if it can be asked.  A short
name is ambiguous where another reference answers to it as well. -/
structure Repository where
  head : Option Text
  heads : List Text
  originHead : Option Text
  origin : Option (List (Text × Text))
  ambiguous : Text → Prop

namespace Repository

/-- A branch of `origin` that `ls-remote` lists for a pattern. -/
def Listed (base branch : Text) : Prop :=
  "/refs/heads/".toList ++ base <:+ "/refs/heads/".toList ++ branch

instance (base branch : Text) : Decidable (Listed base branch) :=
  inferInstanceAs (Decidable (_ <:+ _))

/-- A line of what `ls-remote` prints. -/
def listing (branch : Text × Text) : Text :=
  branch.1 ++ '\t' :: ("refs/heads/".toList ++ branch.2 ++ ['\n'])

/-- The output of a command that succeeded. -/
def prints (text : Text) (output : Output) : Prop :=
  output.status.success = true ∧ output.stdout = Utf8.encode text

/-- How git answers in a checkout, as it documents. -/
structure Serves (repository : Repository) (git : List Text → Except Text Output) : Prop where
  head : ∀ name, repository.head = some name → ¬ repository.ambiguous name →
    ∃ output, git ["symbolic-ref".toList, "--short".toList, "HEAD".toList] = .ok output ∧
      prints (name ++ ['\n']) output
  detached : repository.head = none →
    ∃ output, git ["symbolic-ref".toList, "--short".toList, "HEAD".toList] = .ok output ∧
      output.status.success = false ∧
      output.stderr = Utf8.encode "fatal: ref HEAD is not a symbolic ref\n".toList
  originHead : ∀ name, repository.originHead = some name →
    ∃ output, git ["symbolic-ref".toList, "refs/remotes/origin/HEAD".toList] = .ok output ∧
      prints ("refs/remotes/origin/".toList ++ name ++ ['\n']) output
  noOriginHead : repository.originHead = none →
    ∃ output, git ["symbolic-ref".toList, "refs/remotes/origin/HEAD".toList] = .ok output ∧
      output.status.success = false
  shortOriginHead : ∀ name, repository.originHead = some name →
    ¬ repository.ambiguous ("origin/".toList ++ name) →
      ∃ output, git ["symbolic-ref".toList, "--short".toList, "refs/remotes/origin/HEAD".toList] =
          .ok output ∧
        prints ("origin/".toList ++ name ++ ['\n']) output
  localBranch : ∀ name, ∃ output, git ["show-ref".toList, "--verify".toList, "--quiet".toList,
      "refs/heads/".toList ++ name] = .ok output ∧
    (output.status.success = true ↔ name ∈ repository.heads)
  origin : ∀ base branches, repository.origin = some branches →
    ∃ output, git ["ls-remote".toList, "--heads".toList, "origin".toList,
        "refs/heads/".toList ++ base] = .ok output ∧
      prints ((branches.filter fun branch ↦ Listed base branch.2).flatMap listing) output
  unreachable : ∀ base, repository.origin = none →
    ∃ output, git ["ls-remote".toList, "--heads".toList, "origin".toList,
        "refs/heads/".toList ++ base] = .ok output ∧ output.status.success = false

/-- A name that neither begins nor ends with white space. -/
def Names (name : Text) : Prop := name ≠ [] ∧ trim name = name

/-- There is a local branch of this name. -/
def hasHead (repository : Repository) (name : Text) : Bool := repository.heads.contains name

theorem hasHead_iff {repository : Repository} {name : Text} :
    repository.hasHead name = true ↔ name ∈ repository.heads :=
  List.contains_iff_mem

def defaultBranch (repository : Repository) : Text :=
  match repository.originHead with
  | some name => if repository.hasHead name then name else "origin/".toList ++ name
  | none => (Checkout.commonDefaults.find? repository.hasHead).getD "master".toList

/-- A branch is on `origin`. -/
def OnOrigin (repository : Repository) (base : Text) : Prop :=
  ∃ branches, repository.origin = some branches ∧ ∃ branch ∈ branches, Listed base branch.2

variable {repository : Repository} {git : List Text → Except Text Output} {name base : Text}

theorem trim_line {text : Text} (hne : text ≠ []) (h : trim text = text) :
    trim (text ++ ['\n']) = text := by
  obtain ⟨hstart, hend⟩ := trim_eq_self_iff.mp h
  have hfront : trimStart (text ++ ['\n']) = text ++ ['\n'] := by
    apply trimStart_eq_self_iff.mpr
    intro character hhead
    apply trimStart_eq_self_iff.mp hstart
    rwa [List.head?_append_of_ne_nil text hne] at hhead
  calc
    trim (text ++ ['\n']) = trimEnd (text ++ ['\n']) := by rw [trim, hfront]
    _ = trimEnd text := by
      rw [trimEnd, List.reverse_append, List.reverse_singleton, List.singleton_append,
        List.dropWhile_cons_of_pos (by decide), trimEnd]
    _ = text := hend

/-- A line that ends with a name is trimmed to what it says. -/
theorem trim_named (h : Names name) {opening : Text} {first : Char}
    (hfirst : opening.head? = some first) (hblank : isWhitespace first = false) :
    trim (opening ++ name ++ ['\n']) = opening ++ name := by
  have hopening : opening ≠ [] := fun hnil ↦ by
    rw [hnil] at hfirst
    cases hfirst
  apply trim_line
  · simp [hopening]
  · apply trim_eq_self_iff.mpr
    constructor
    · apply trimStart_eq_self_iff.mpr
      intro character hhead
      rw [List.head?_append_of_ne_nil opening hopening, hfirst, Option.some.injEq] at hhead
      rw [← hhead]
      exact hblank
    · apply trimEnd_eq_self_iff.mpr
      intro character hlast
      apply trimEnd_eq_self_iff.mp (trim_eq_self_iff.mp h.2).2
      rwa [List.getLast?_append_of_ne_nil opening h.1] at hlast

theorem lossy_prints {text : Text} {output : Output} (h : prints text output) :
    Utf8.lossy output.stdout = text := by
  rw [h.2, Utf8.lossy_encode]

variable {answers : ∀ question : Question, question.Answer} {ctx : List UInt8}
  {lowercase : Text → Text}

/-- The questions about a checkout are answered by git. -/
abbrev AnswersGit (answers : ∀ question : Question, question.Answer) (ctx : List UInt8)
    (git : List Text → Except Text Output) : Prop :=
  ∀ args, answers (.git ctx args) = git args

theorem result_git (hgit : AnswersGit answers ctx git) {args : List Text} {output : Output}
    (h : git args = .ok output) : (Checkout.git ctx args).result answers = .ok output := by
  rw [Checkout.git, result_call, hgit args, h]
  rfl

theorem result_localBranch (h : Serves repository git) (hgit : AnswersGit answers ctx git)
    (name : Text) :
    (Checkout.localBranch ctx name).result answers = repository.hasHead name := by
  obtain ⟨output, houtput, hstatus⟩ := h.localBranch name
  rw [Checkout.localBranch, result_bind, result_git hgit houtput]
  change output.status.success = _
  rw [Bool.eq_iff_iff, hstatus, hasHead_iff]

theorem result_firstLocal (h : Serves repository git) (hgit : AnswersGit answers ctx git)
    (names : List Text) : (Checkout.firstLocal ctx names).result answers =
      (names.find? repository.hasHead).getD "master".toList := by
  induction names with
  | nil => rfl
  | cons name names ih =>
      rw [Checkout.firstLocal, result_bind, result_localBranch h hgit, List.find?_cons]
      cases repository.hasHead name with
      | true => rfl
      | false => exact ih

/-- The client resolves the default branch that is the repository's. -/
theorem result_defaultBranch (h : Serves repository git) (hgit : AnswersGit answers ctx git)
    (hnames : ∀ name, repository.originHead = some name → Names name) :
    (Checkout.defaultBranch ctx).result answers = repository.defaultBranch := by
  rw [Checkout.defaultBranch, result_bind, defaultBranch]
  cases hhead : repository.originHead with
  | none =>
      obtain ⟨output, houtput, hstatus⟩ := h.noOriginHead hhead
      have hnone : Checkout.originHead (.ok output) = none := by
        rw [Checkout.originHead, hstatus]
        rfl
      rw [result_git hgit houtput]
      simp only [hnone]
      exact result_firstLocal h hgit Checkout.commonDefaults
  | some name =>
      obtain ⟨output, houtput, hprints⟩ := h.originHead name hhead
      have hsome : Checkout.originHead (.ok output) = some name := by
        rw [Checkout.originHead, if_pos hprints.1, lossy_prints hprints,
          trim_named (hnames name hhead) rfl (by decide), stripPrefix, if_pos (by simp),
          List.drop_left]
      rw [result_git hgit houtput]
      simp only [hsome, result_bind, result_localBranch h hgit]
      cases hlocal : repository.hasHead name with
      | true => rfl
      | false => rfl

/-- A text with something to see is not trimmed away. -/
theorem trim_ne_nil {text : Text} {character : Char} (hmem : character ∈ text)
    (hblank : isWhitespace character = false) : trim text ≠ [] := by
  intro hnil
  have hstart : trimStart text = [] := by
    cases hfront : trimStart text with
    | nil => rfl
    | cons first rest =>
        have hfirst : isWhitespace first = false := head?_trimStart text (by rw [hfront]; rfl)
        rw [trim, trimEnd, List.reverse_eq_nil_iff, List.dropWhile_eq_nil_iff] at hnil
        rw [hnil first (by simp [hfront])] at hfirst
        cases hfirst
  rw [trimStart, List.dropWhile_eq_nil_iff] at hstart
  rw [hstart character hmem] at hblank
  cases hblank

/-- The client finds a base on `origin` exactly if it is there. -/
theorem result_requireRemoteBase (h : Serves repository git) (hgit : AnswersGit answers ctx git)
    (base : Text) : (Checkout.requireRemoteBase ctx base).result answers = .ok () ↔
      repository.OnOrigin (localName base) := by
  rw [Checkout.requireRemoteBase, result_bind, OnOrigin]
  cases horigin : repository.origin with
  | none =>
      obtain ⟨output, houtput, hstatus⟩ := h.unreachable (localName base) horigin
      rw [result_git hgit houtput]
      simp [hstatus]
  | some branches =>
      obtain ⟨output, houtput, hprints⟩ := h.origin (localName base) branches horigin
      rw [result_git hgit houtput]
      simp only [hprints.1, Bool.not_true, Bool.false_eq_true, if_false, lossy_prints hprints,
        Option.some.injEq, exists_eq_left']
      constructor
      · intro hok
        by_contra hnone
        rw [List.filter_eq_nil_iff.mpr] at hok
        · cases hok
        · intro branch hbranch hlisted
          exact hnone ⟨branch, hbranch, of_decide_eq_true hlisted⟩
      · rintro ⟨branch, hbranch, hlisted⟩
        have hprinted : 'r' ∈ (branches.filter fun branch ↦
            Listed (localName base) branch.2).flatMap listing := by
          apply List.mem_flatMap.mpr
          refine ⟨branch, List.mem_filter.mpr ⟨hbranch, decide_eq_true hlisted⟩, ?_⟩
          simp [listing]
        rw [if_neg (trim_ne_nil hprinted (by decide))]
        rfl

/-- The client sees where `HEAD` is. -/
theorem result_head (h : Serves repository git) (hgit : AnswersGit answers ctx git)
    (hnames : ∀ name, repository.head = some name → Names name ∧ ¬ repository.ambiguous name)
    (hlower : ∀ text : Text, (∀ character ∈ text, character.toNat < 0x80) →
      lowercase text = text.map Char.toLower) :
    (Checkout.head lowercase ctx).result answers =
      .ok ((repository.head.map .branch).getD .detached) := by
  rw [Checkout.head, result_bind]
  cases hhead : repository.head with
  | none =>
      obtain ⟨output, houtput, hstatus, hstderr⟩ := h.detached hhead
      have hascii : ("fatal: ref HEAD is not a symbolic ref\n".toList.all fun character ↦
          character.toNat < 0x80) = true := by decide
      rw [result_git hgit houtput]
      simp only [hstatus, Bool.false_eq_true, if_false, hstderr, Utf8.lossy_encode]
      rw [hlower _ fun character hmem ↦ of_decide_eq_true (List.all_eq_true.mp hascii _ hmem),
        if_pos (by decide)]
      rfl
  | some name =>
      obtain ⟨hname, hclear⟩ := hnames name hhead
      obtain ⟨output, houtput, hprints⟩ := h.head name hhead hclear
      rw [result_git hgit houtput]
      simp only [hprints.1, if_true, lossy_prints hprints, trim_line hname.1 hname.2]
      rfl

def succeeded (text : Text) : Output := ⟨⟨some 0⟩, Utf8.encode text, []⟩

def refused (text : Text) : Output := ⟨⟨some 128⟩, [], Utf8.encode text⟩

theorem prints_succeeded (text : Text) : prints text (succeeded text) := ⟨rfl, rfl⟩

def answer (repository : Repository) (args : List Text) : Output :=
  if args = ["symbolic-ref".toList, "--short".toList, "HEAD".toList] then
    (repository.head.map fun name ↦ succeeded (name ++ ['\n'])).getD
      (refused "fatal: ref HEAD is not a symbolic ref\n".toList)
  else if args = ["symbolic-ref".toList, "refs/remotes/origin/HEAD".toList] then
    (repository.originHead.map fun name ↦
        succeeded ("refs/remotes/origin/".toList ++ name ++ ['\n'])).getD
      (refused "fatal: ref refs/remotes/origin/HEAD is not a symbolic ref\n".toList)
  else if args = ["symbolic-ref".toList, "--short".toList, "refs/remotes/origin/HEAD".toList] then
    (repository.originHead.map fun name ↦
        succeeded ("origin/".toList ++ name ++ ['\n'])).getD
      (refused "fatal: ref refs/remotes/origin/HEAD is not a symbolic ref\n".toList)
  else if args.head? = some "show-ref".toList then
    if args.getLast?.any (repository.heads.map ("refs/heads/".toList ++ ·)).contains then
      succeeded []
    else refused []
  else
    match repository.origin with
    | none => refused "fatal: Could not read from remote repository.\n".toList
    | some branches => succeeded ((branches.filter fun branch ↦
        Listed ((args.getLast?.getD []).drop "refs/heads/".toList.length) branch.2).flatMap listing)

/-- There is a git that answers as it documents. -/
theorem serves_answer (repository : Repository) :
    repository.Serves fun args ↦ .ok (repository.answer args) where
  head name hhead _ := ⟨_, rfl, by
    rw [answer, if_pos rfl, hhead]
    exact prints_succeeded _⟩
  detached hhead := ⟨_, rfl, by
    rw [answer, if_pos rfl, hhead]
    exact ⟨rfl, rfl⟩⟩
  originHead name hhead := ⟨_, rfl, by
    rw [answer, if_neg (by decide), if_pos rfl, hhead]
    exact prints_succeeded _⟩
  noOriginHead hhead := ⟨_, rfl, by
    rw [answer, if_neg (by decide), if_pos rfl, hhead]
    rfl⟩
  shortOriginHead name hhead _ := ⟨_, rfl, by
    rw [answer, if_neg (by decide), if_neg (by decide), if_pos rfl, hhead]
    exact prints_succeeded _⟩
  localBranch name := ⟨_, rfl, by
    have hlast : (["show-ref".toList, "--verify".toList, "--quiet".toList,
        "refs/heads/".toList ++ name].getLast?.any
          (repository.heads.map ("refs/heads/".toList ++ ·)).contains) = true ↔
        name ∈ repository.heads := by
      simp
    rw [answer, if_neg (by simp), if_neg (by simp), if_neg (by simp),
      if_pos List.head?_cons, ← hlast]
    split_ifs with hlocal
    · exact ⟨fun _ ↦ hlocal, fun _ ↦ rfl⟩
    · exact ⟨Bool.noConfusion, fun hlocal' ↦ absurd hlocal' hlocal⟩⟩
  origin base branches horigin := ⟨_, rfl, by
    have hdrop : ("refs/heads/".toList ++ base).drop "refs/heads/".toList.length = base :=
      List.drop_left
    rw [answer, if_neg (by simp), if_neg (by simp), if_neg (by simp), if_neg (by simp), horigin]
    simp only [List.getLast?_cons_cons, List.getLast?_singleton, Option.getD_some, hdrop]
    exact prints_succeeded _⟩
  unreachable base horigin := ⟨_, rfl, by
    rw [answer, if_neg (by simp), if_neg (by simp), if_neg (by simp), if_neg (by simp), horigin]
    rfl⟩

variable {run : Rxd.RunArgs} {plan : List UInt8} {request : RunRequest} {env : List (Text × Text)}

/-- A run is asked for with this request: the plan is found, the branch is chosen, and the base of
a pull request is on `origin`. -/
def Asks (repository : Repository) (answers : ∀ question : Question, question.Answer)
    (run : Rxd.RunArgs) (ctx : List UInt8) (request : RunRequest) : Prop :=
  ∃ plan resolved current branch, run.plan = some plan ∧
    answers (.canonicalize (Rxd.join ctx plan)) = .ok resolved ∧ repository.head = some current ∧
    choose (.branch current) repository.defaultBranch run.branch (Rxd.planStem resolved)
      request.worktree = .ok branch ∧
    (request.createPr = .yes → repository.OnOrigin (localName repository.defaultBranch)) ∧
    request = Rxd.requested run ctx resolved branch

/-- What the client asks for once the plan is found. -/
theorem result_branched (h : Serves repository git) (hgit : AnswersGit answers ctx git)
    (hhead : ∀ name, repository.head = some name → Names name ∧ ¬ repository.ambiguous name)
    (horigin : ∀ name, repository.originHead = some name → Names name)
    (hlower : ∀ text : Text, (∀ character ∈ text, character.toNat < 0x80) →
      lowercase text = text.map Char.toLower) :
    (Rxd.branched lowercase run ctx plan).result answers = .ok (request, env) ↔
      ∃ current branch, repository.head = some current ∧
        choose (.branch current) repository.defaultBranch run.branch (Rxd.planStem plan)
          (if run.worktree then .yes else .no) = .ok branch ∧
        (run.noPr = false → repository.OnOrigin (localName repository.defaultBranch)) ∧
        request = Rxd.requested run ctx plan branch ∧ env = Rxd.forwarded (answers .vars) := by
  have hdescribed (branch : Text) :
      (Rxd.described run ctx plan branch).result answers = .ok (request, env) ↔
        request = Rxd.requested run ctx plan branch ∧ env = Rxd.forwarded (answers .vars) := by
    change Except.ok _ = Except.ok _ ↔ _
    rw [Except.ok.injEq, Prod.mk.injEq, eq_comm, @eq_comm _ (Rxd.forwarded _)]
  rw [Rxd.branched, result_bind, result_head h hgit hhead hlower]
  cases hcurrent : repository.head with
  | none =>
      simp only [Option.map_none, Option.getD_none, result_bind, choose, result_done]
      simp
  | some current =>
      simp only [Option.map_some, Option.getD_some, result_bind,
        result_defaultBranch h hgit horigin, Option.some.injEq, exists_and_left, exists_eq_left']
      cases hchoose : choose (.branch current) repository.defaultBranch run.branch
          (Rxd.planStem plan) (if run.worktree then .yes else .no) with
      | error error => simp
      | ok branch =>
          simp only [Except.ok.injEq, exists_eq_left']
          cases hpr : run.noPr with
          | true =>
              rw [if_pos rfl, hdescribed]
              simp
          | false =>
              rw [if_neg Bool.false_ne_true, result_bind]
              cases hrequired : (Checkout.requireRemoteBase ctx repository.defaultBranch).result
                  answers with
              | error error =>
                  have hmissing : ¬ repository.OnOrigin (localName repository.defaultBranch) := by
                    rw [← result_requireRemoteBase h hgit, hrequired]
                    intro hok
                    cases hok
                  simp [hmissing]
              | ok done =>
                  have hthere : repository.OnOrigin (localName repository.defaultBranch) :=
                    (result_requireRemoteBase h hgit _).mp hrequired
                  rw [hdescribed]
                  simp [hthere]

/-- The commands of the daemon are answered by the same git, and by some GitHub CLI. -/
def answersDaemon (git : List Text → Except Text Output) (gh : List Text → StepOutcome)
    (command : Command) : StepOutcome :=
  match command.tool with
  | .gh => gh command.args
  | .git =>
      match git command.args with
      | .ok output => .ran output.status output.stdout output.stderr
      | .error error => .notRun error

theorem localName_defaultBranch (hhead : repository.originHead = some base)
    (hbase : base ∈ repository.heads → ¬ "origin/".toList <+: base) :
    localName repository.defaultBranch = base := by
  unfold defaultBranch localName stripPrefix
  rw [hhead]
  dsimp only
  split_ifs with hlocal hprefix hprefix
  · exact absurd (List.isPrefixOf_iff_prefix.mp hprefix) (hbase (hasHead_iff.mp hlocal))
  · rfl
  · rw [Option.getD_some, List.drop_left]
  · exact absurd (List.isPrefixOf_iff_prefix.mpr (List.prefix_append _ _)) hprefix

/-- The daemon finds the same base, long after. -/
theorem result_resolveBase (h : Serves repository git) (hhead : repository.originHead = some base)
    (hname : Names base) (hclear : ¬ repository.ambiguous ("origin/".toList ++ base))
    (tools : PrTools) (gh : List Text → StepOutcome) :
    (Pr.resolveBase tools).result (answersDaemon git gh) = .ok base := by
  obtain ⟨output, houtput, hprints⟩ := h.shortOriginHead base hhead hclear
  have hnamed : (stripPrefix (trim ("origin/".toList ++ base ++ ['\n'])) "origin/".toList).getD
      (trim ("origin/".toList ++ base ++ ['\n'])) = base := by
    rw [trim_named hname rfl (by decide), stripPrefix, if_pos (by simp), Option.getD_some,
      List.drop_left]
  have hempty : base.isEmpty = false := by simp [hname.1]
  rw [Pr.resolveBase, Pr.step, result_bind, ask_bind, result_call]
  simp only [answersDaemon, houtput, Pr.stepResult, hprints.1, if_true, lossy_prints hprints,
    pure_eq, result_done, hnamed, hempty, Bool.false_eq_true, if_false]

/-- **A run that is asked for is one ralphex works on as asked, into a base that is there.**  With
git answering as it documents, a request is made exactly where the plan is found, a branch is
chosen and the base of its pull request is on `origin`; ralphex commits to the branch that is asked
for; and where `origin/HEAD` is known, the base that was looked for is the one the daemon opens the
pull request into. -/
theorem describe_agrees {directory : List UInt8} (h : Serves repository git)
    (hgit : AnswersGit answers ctx git)
    (hhead : ∀ name, repository.head = some name → Names name ∧ ¬ repository.ambiguous name)
    (horigin : ∀ name, repository.originHead = some name → Names name)
    (hlower : ∀ text : Text, (∀ character ∈ text, character.toNat < 0x80) →
      lowercase text = text.map Char.toLower)
    (hdirectory : answers .currentDir = .ok directory)
    (hctx : answers (.canonicalize directory) = .ok ctx) :
    ((Rxd.describe lowercase run).result answers = .ok (request, env) ↔
      Asks repository answers run ctx request ∧ env = Rxd.forwarded (answers .vars)) ∧
    (Asks repository answers run ctx request →
      (∃ current, repository.head = some current ∧
        Ralphex.commits (.branch current) repository.defaultBranch request.branch.name
          request.worktree = some request.branch.name) ∧
      (request.createPr = .yes → repository.OnOrigin (localName repository.defaultBranch) ∧
        ∀ base, repository.originHead = some base →
          ¬ repository.ambiguous ("origin/".toList ++ base) →
          (base ∈ repository.heads → ¬ "origin/".toList <+: base) →
            localName repository.defaultBranch = base ∧
            ∀ tools gh, (Pr.resolveBase tools).result (answersDaemon git gh) = .ok base)) := by
  refine ⟨?_, ?_⟩
  · unfold Rxd.describe
    cases hplan : run.plan with
    | none => simp [Asks, hplan]
    | some plan =>
        simp only [result_call, hdirectory, hctx]
        cases hresolved : answers (.canonicalize (Rxd.join ctx plan)) with
        | error error => simp [Asks, hplan, hresolved]
        | ok resolved =>
            simp only []
            rw [result_branched h hgit hhead horigin hlower]
            constructor
            · rintro ⟨current, branch, hcurrent, hchoose, hbase, rfl, rfl⟩
              refine ⟨⟨plan, resolved, current, branch, hplan, hresolved, hcurrent, hchoose, ?_,
                rfl⟩, rfl⟩
              intro hpr
              apply hbase
              by_contra hno
              rw [Bool.not_eq_false] at hno
              simp [Rxd.requested, hno] at hpr
            · rintro ⟨⟨given, found, current, branch, hgiven, hfound, hcurrent, hchoose, hbase,
                rfl⟩, rfl⟩
              rw [hplan, Option.some.injEq] at hgiven
              subst hgiven
              rw [hresolved, Except.ok.injEq] at hfound
              subst hfound
              refine ⟨current, branch, hcurrent, hchoose, fun hpr ↦ hbase ?_, rfl, rfl⟩
              simp [Rxd.requested, hpr]
  · rintro ⟨plan, resolved, current, branch, -, -, hcurrent, hchoose, hbase, rfl⟩
    refine ⟨⟨current, hcurrent, commits_of_choose hchoose⟩, fun hpr ↦ ⟨hbase hpr, ?_⟩⟩
    intro base hknown hclear hlocal
    exact ⟨localName_defaultBranch hknown hlocal,
      result_resolveBase h hknown (horigin base hknown) hclear⟩

/-- A checkout on `main`, which is on `origin` too. -/
def onMain : Repository where
  head := some "main".toList
  heads := ["main".toList]
  originHead := some "main".toList
  origin := some [("5f".toList, "main".toList)]
  ambiguous _ := False

def answersOnMain : ∀ question : Question, question.Answer
  | .currentDir => .ok (Utf8.encode "/c".toList)
  | .canonicalize path => .ok path
  | .git _ args => .ok (onMain.answer args)
  | .vars => []

def runOnMain : Rxd.RunArgs := ⟨some (Utf8.encode "plans/x.md".toList), none, false, false⟩

def requestOnMain : RunRequest :=
  Rxd.requested runOnMain (Utf8.encode "/c".toList) (Utf8.encode "/c/plans/x.md".toList) "x".toList

theorem describe_agrees_main :
    (Rxd.describe (List.map Char.toLower) runOnMain).result answersOnMain =
      .ok (requestOnMain, []) ∧
    ∀ tools gh, (Pr.resolveBase tools).result
      (answersDaemon (fun args ↦ .ok (onMain.answer args)) gh) = .ok "main".toList := by
  have hmain : Names "main".toList := ⟨by decide, by decide⟩
  have hname (name : Text) (h : some "main".toList = some name) : Names name := by
    rw [← Option.some.inj h]
    exact hmain
  have hasks : Asks onMain answersOnMain runOnMain (Utf8.encode "/c".toList) requestOnMain :=
    ⟨_, Utf8.encode "/c/plans/x.md".toList, "main".toList, "x".toList, rfl, by decide, rfl,
      by decide, fun _ ↦ ⟨_, rfl, ("5f".toList, "main".toList), by decide, by decide⟩, rfl⟩
  have hagrees := @describe_agrees onMain (fun args ↦ .ok (onMain.answer args)) answersOnMain
    (Utf8.encode "/c".toList) (List.map Char.toLower) runOnMain requestOnMain [] _
    (serves_answer onMain) (fun _ ↦ rfl) (fun name h ↦ ⟨hname name h, not_false⟩) hname
    (fun _ _ ↦ rfl) rfl rfl
  refine ⟨hagrees.1.mpr ⟨hasks, rfl⟩, ?_⟩
  exact ((hagrees.2 hasks).2 rfl).2 "main".toList rfl not_false (fun _ ↦ by decide) |>.2

end Repository

end RalphexRunner
