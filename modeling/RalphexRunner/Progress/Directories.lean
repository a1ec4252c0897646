import Mathlib.Data.Finset.Option
import RalphexRunner.Progress.Wakeups

/-!
# The directories a plan watcher watches

A plan is watched through its directory and the directory of completed plans beside it; where the
plan's directory cannot be watched yet, the nearest ancestor that exists is watched instead, so that
its creation is seen.  `attach` is one more try at all three, against whatever the file system has
become.

The watcher is the set of paths it watches.  What is watched is told by the states and the ancestor
alone, whatever calls were made before.
-/

namespace RalphexRunner

theorem Attachment.eq_of_iff {first second : Attachment}
    (h : first = .attached ↔ second = .attached) : first = second := by
  cases first <;> cases second <;> simp_all

/-- A try tells whether it attached anything. -/
theorem Watches.attach_told (watches : Watches) (directory completed : Attachment) :
    (watches.attach directory completed).2 = .attached ↔
      watches.directory = .detached ∧
          (watches.attach directory completed).1.directory = .attached ∨
        watches.completed = .detached ∧
          (watches.attach directory completed).1.completed = .attached := by
  obtain ⟨first, second⟩ := watches
  cases first <;> cases second <;> cases directory <;> cases completed <;> decide

/-- The name of the directory of completed plans. -/
def completedDir : Text := "completed".toList

/-- A path, its names from the last to the first. -/
structure Path where
  absolute : Bool
  names : List Text
  deriving DecidableEq

namespace Path

def join (path : Path) (name : Text) : Path := { path with names := name :: path.names }

/-- A path that lies above another one. -/
def Above (path other : Path) : Prop :=
  path.absolute = other.absolute ∧ path.names <:+ other.names ∧ path ≠ other

end Path

/-- What the file system says while a call is made: which paths are directories, and which of them
the watcher can watch. -/
structure FileSystem where
  isDir : Path → Bool
  watchable : Path → Bool

/-- The watches of a plan: what is watched, and what the watcher thinks it watches. -/
structure DirectoryWatches where
  watcher : Finset Path
  directory : Path
  directoryState : Attachment
  completed : Path
  completedState : Attachment
  ancestor : Option Path
  deriving DecidableEq

namespace DirectoryWatches

/-- Nothing is watched yet. -/
def new (directory : Path) : DirectoryWatches :=
  ⟨∅, directory, .detached, directory.join completedDir, .detached, none⟩

/-- Watch a directory, if it is one and the watcher lets it. -/
def watch (fs : FileSystem) (watcher : Finset Path) (directory : Path) :
    Attachment × Finset Path :=
  if !fs.isDir directory then (.detached, watcher)
  else if fs.watchable directory then (.attached, insert directory watcher)
  else (.detached, watcher)

def nearestAbove (fs : FileSystem) (absolute : Bool) : List Text → Option Path
  | [] => none
  | _ :: rest =>
      if fs.isDir ⟨absolute, rest⟩ then some ⟨absolute, rest⟩ else nearestAbove fs absolute rest

def nearestAncestor (fs : FileSystem) (directory : Path) : Option Path :=
  nearestAbove fs directory.absolute directory.names

/-- Stop watching the ancestor, if one is watched. -/
def release (watches : DirectoryWatches) : DirectoryWatches :=
  match watches.ancestor with
  | none => watches
  | some ancestor => { watches with watcher := watches.watcher.erase ancestor, ancestor := none }

/-- Watch the nearest ancestor instead of the directory. -/
def fallBack (fs : FileSystem) (watches : DirectoryWatches) : DirectoryWatches :=
  let nearest := nearestAncestor fs watches.directory
  if nearest = watches.ancestor then watches
  else
    let watches := watches.release
    match nearest with
    | none => watches
    | some nearest =>
        match watch fs watches.watcher nearest with
        | (.attached, watcher) => { watches with watcher, ancestor := some nearest }
        | (.detached, _) => watches

/-- The directory's half of `attach`. -/
def attachDirectory (fs : FileSystem) (watches : DirectoryWatches) :
    DirectoryWatches × Attachment :=
  match watches.directoryState with
  | .attached => (watches, .detached)
  | .detached =>
      match watch fs watches.watcher watches.directory with
      | (.attached, watcher) =>
          ({ watches with watcher, directoryState := .attached }.release, .attached)
      | (.detached, _) => (watches.fallBack fs, .detached)

/-- One more try to watch what is not watched yet, and whether it attached anything. -/
def attach (fs : FileSystem) (watches : DirectoryWatches) : DirectoryWatches × Attachment :=
  let (watches, result) := watches.attachDirectory fs
  match watches.completedState with
  | .attached => (watches, result)
  | .detached =>
      match watch fs watches.watcher watches.completed with
      | (.attached, watcher) => ({ watches with watcher, completedState := .attached }, .attached)
      | (.detached, _) => (watches, result)

/-- The watches of a plan, one call of `attach` after the other. -/
def machine : Machine DirectoryWatches FileSystem where
  init watches := ∃ directory, watches = new directory
  step watches fs := some (watches.attach fs).1

/-- The states the loop that follows the events knows. -/
def states (watches : DirectoryWatches) : Watches :=
  ⟨watches.directoryState, watches.completedState⟩

/-- What a try to watch a directory comes to. -/
def outcome (fs : FileSystem) (directory : Path) : Attachment :=
  if fs.isDir directory && fs.watchable directory then .attached else .detached

/-- What is watched beside the ancestor. -/
def base (watches : DirectoryWatches) : Finset Path :=
  (if watches.directoryState = .attached then {watches.directory} else ∅) ∪
    if watches.completedState = .attached then {watches.completed} else ∅

/-- The watcher watches what the states and the ancestor say, and nothing else. -/
structure Told (watches : DirectoryWatches) : Prop where
  watched : watches.watcher = watches.base ∪ watches.ancestor.toFinset
  above : ∀ ancestor, watches.ancestor = some ancestor → ancestor.Above watches.directory
  beside : watches.completed = watches.directory.join completedDir

/-- The ancestor stands in for a directory that is not watched. -/
structure Consistent (watches : DirectoryWatches) : Prop extends Told watches where
  detached : watches.ancestor.isSome → watches.directoryState = .detached

/-- The nearest directory above a path, or none where there is none. -/
def Nearest (fs : FileSystem) (directory : Path) : Option Path → Prop
  | none => ∀ other : Path, other.Above directory → fs.isDir other = false
  | some path => fs.isDir path = true ∧ path.Above directory ∧
      ∀ other : Path, other.Above directory → fs.isDir other = true → other.names <:+ path.names

/-- What a call of `attach` comes to. -/
structure Attaches (fs : FileSystem) (before after : DirectoryWatches) (result : Attachment) :
    Prop where
  /-- A directory that is not watched has its nearest ancestor watched, if that can be. -/
  nearest : after.directoryState = .detached → ∃ nearest, Nearest fs after.directory nearest ∧
    (after.ancestor = nearest ∨
      after.ancestor = none ∧ ∃ path, nearest = some path ∧ fs.watchable path = false)
  /-- The call tells whether it attached a directory. -/
  told : result = .attached ↔
    before.directoryState = .detached ∧ after.directoryState = .attached ∨
      before.completedState = .detached ∧ after.completedState = .attached
  directory : before.directoryState = .attached → after.directoryState = .attached
  completed : before.completedState = .attached → after.completedState = .attached

variable {fs : FileSystem} {watches : DirectoryWatches} {watcher : Finset Path} {path : Path}

/-- What lies above a path is its parent, or lies above that. -/
theorem above_cons_iff {absolute : Bool} {name : Text} {rest : List Text} :
    path.Above ⟨absolute, name :: rest⟩ ↔
      path = ⟨absolute, rest⟩ ∨ path.Above ⟨absolute, rest⟩ := by
  obtain ⟨rooted, names⟩ := path
  simp only [Path.Above, List.suffix_cons_iff, ne_eq, Path.mk.injEq]
  constructor
  · rintro ⟨rfl, rfl | hsuffix, hother⟩
    · exact absurd ⟨rfl, rfl⟩ hother
    · by_cases hsame : names = rest
      · exact .inl ⟨rfl, hsame⟩
      · exact .inr ⟨rfl, hsuffix, fun h ↦ hsame h.2⟩
  · rintro (⟨rfl, rfl⟩ | ⟨rfl, hsuffix, hother⟩)
    · exact ⟨rfl, .inr List.suffix_rfl, fun h ↦ by simpa using congrArg List.length h.2⟩
    · refine ⟨rfl, .inr hsuffix, fun h ↦ ?_⟩
      have hlength := hsuffix.length_le
      rw [h.2, List.length_cons] at hlength
      omega

/-- The ancestor that is found is the nearest there is. -/
theorem nearest_nearestAncestor (fs : FileSystem) (directory : Path) :
    Nearest fs directory (nearestAncestor fs directory) := by
  obtain ⟨absolute, names⟩ := directory
  induction names with
  | nil =>
      rintro other ⟨habsolute, hnames, hother⟩
      obtain ⟨rooted, above⟩ := other
      cases habsolute
      cases List.suffix_nil.mp hnames
      exact absurd rfl hother
  | cons name rest ih =>
      rw [nearestAncestor, nearestAbove]
      split
      · rename_i hdir
        refine ⟨hdir, above_cons_iff.mpr (.inl rfl), fun other hother _ ↦ ?_⟩
        rcases above_cons_iff.mp hother with rfl | habove
        · exact List.suffix_rfl
        · exact habove.2.1
      · rename_i hno
        change Nearest fs _ (nearestAncestor fs ⟨absolute, rest⟩)
        cases hnearest : nearestAncestor fs ⟨absolute, rest⟩ with
        | none =>
            rw [hnearest] at ih
            intro other hother
            rcases above_cons_iff.mp hother with rfl | habove
            · simpa using hno
            · exact ih other habove
        | some path =>
            rw [hnearest] at ih
            obtain ⟨hdir, habove, hfirst⟩ := ih
            refine ⟨hdir, above_cons_iff.mpr (.inr habove), fun other hother hother' ↦ ?_⟩
            rcases above_cons_iff.mp hother with rfl | hmore
            · exact absurd hother' hno
            · exact hfirst other hmore hother'

theorem watch_eq (fs : FileSystem) (watcher : Finset Path) (path : Path) :
    watch fs watcher path =
      (outcome fs path, if outcome fs path = .attached then insert path watcher else watcher) := by
  unfold watch outcome
  cases fs.isDir path <;> cases fs.watchable path <;> rfl

theorem watch_of_attached (h : outcome fs path = .attached) (watcher : Finset Path) :
    watch fs watcher path = (.attached, insert path watcher) := by
  rw [watch_eq, h]
  rfl

theorem watch_of_detached (h : outcome fs path = .detached) (watcher : Finset Path) :
    watch fs watcher path = (.detached, watcher) := by
  rw [watch_eq, h]
  rfl

@[simp] theorem release_directory : watches.release.directory = watches.directory := by
  unfold release
  split <;> rfl

@[simp] theorem release_directoryState :
    watches.release.directoryState = watches.directoryState := by
  unfold release
  split <;> rfl

@[simp] theorem release_completed : watches.release.completed = watches.completed := by
  unfold release
  split <;> rfl

@[simp] theorem release_completedState :
    watches.release.completedState = watches.completedState := by
  unfold release
  split <;> rfl

@[simp] theorem release_ancestor : watches.release.ancestor = none := by
  unfold release
  split
  · assumption
  · rfl

@[simp] theorem release_base : watches.release.base = watches.base := by
  unfold base
  rw [release_directory, release_directoryState, release_completed, release_completedState]

/-- Falling back keeps the ancestor that is the nearest already, and otherwise gives it up for the
nearest one, where there is one that lets itself be watched. -/
theorem fallBack_cases (fs : FileSystem) (watches : DirectoryWatches) :
    (nearestAncestor fs watches.directory = watches.ancestor ∧ watches.fallBack fs = watches) ∨
    (nearestAncestor fs watches.directory = none ∧ watches.fallBack fs = watches.release) ∨
    ∃ nearest, nearestAncestor fs watches.directory = some nearest ∧
      ((outcome fs nearest = .detached ∧ watches.fallBack fs = watches.release) ∨
        watches.fallBack fs = { watches.release with
          watcher := insert nearest watches.release.watcher
          ancestor := some nearest }) := by
  by_cases hsame : nearestAncestor fs watches.directory = watches.ancestor
  · exact .inl ⟨hsame, if_pos hsame⟩
  right
  rw [fallBack, if_neg hsame]
  cases hnearest : nearestAncestor fs watches.directory with
  | none => exact .inl ⟨rfl, rfl⟩
  | some nearest =>
      refine .inr ⟨nearest, rfl, ?_⟩
      cases houtcome : outcome fs nearest with
      | attached =>
          dsimp only
          rw [watch_of_attached houtcome]
          exact .inr rfl
      | detached =>
          dsimp only
          rw [watch_of_detached houtcome]
          exact .inl ⟨rfl, rfl⟩

/-- The directory's half: it is watched already, it is watched from now on instead of the ancestor,
or it is fallen back from. -/
theorem attachDirectory_cases (fs : FileSystem) (watches : DirectoryWatches) :
    (watches.directoryState = .attached ∧ watches.attachDirectory fs = (watches, .detached)) ∨
    (watches.directoryState = .detached ∧ outcome fs watches.directory = .attached ∧
      watches.attachDirectory fs = ({ watches with
        watcher := insert watches.directory watches.watcher
        directoryState := .attached }.release, .attached)) ∨
    (watches.directoryState = .detached ∧ outcome fs watches.directory = .detached ∧
      watches.attachDirectory fs = (watches.fallBack fs, .detached)) := by
  unfold attachDirectory
  cases hstate : watches.directoryState with
  | attached => exact .inl ⟨rfl, rfl⟩
  | detached =>
      right
      cases houtcome : outcome fs watches.directory with
      | attached =>
          dsimp only
          rw [watch_of_attached houtcome]
          exact .inl ⟨rfl, rfl, rfl⟩
      | detached =>
          dsimp only
          rw [watch_of_detached houtcome]
          exact .inr ⟨rfl, rfl, rfl⟩

/-- The other half: the directory of completed plans is watched from now on, or is left alone. -/
theorem attach_cases (fs : FileSystem) (watches : DirectoryWatches) :
    (((watches.attachDirectory fs).1.completedState = .attached ∨
        outcome fs (watches.attachDirectory fs).1.completed = .detached) ∧
      watches.attach fs = watches.attachDirectory fs) ∨
    ((watches.attachDirectory fs).1.completedState = .detached ∧
      outcome fs (watches.attachDirectory fs).1.completed = .attached ∧
      watches.attach fs = ({ (watches.attachDirectory fs).1 with
        watcher := insert (watches.attachDirectory fs).1.completed
          (watches.attachDirectory fs).1.watcher
        completedState := .attached }, .attached)) := by
  unfold attach
  generalize watches.attachDirectory fs = first
  obtain ⟨after, result⟩ := first
  cases hstate : after.completedState with
  | attached => exact .inl ⟨.inl rfl, by simp only [hstate]⟩
  | detached =>
      cases houtcome : outcome fs after.completed with
      | attached => exact .inr ⟨rfl, rfl, by simp only [hstate, watch_of_attached houtcome]⟩
      | detached => exact .inl ⟨.inr rfl, by simp only [hstate, watch_of_detached houtcome]⟩

/-! ## What is watched -/

theorem notMem_base (h : Told watches) {ancestor : Path}
    (hancestor : watches.ancestor = some ancestor) : ancestor ∉ watches.base := by
  obtain ⟨habsolute, hnames, hother⟩ := h.above ancestor hancestor
  have hcompleted : ancestor ≠ watches.completed := by
    rintro rfl
    have hlength := hnames.length_le
    rw [h.beside, Path.join, List.length_cons] at hlength
    omega
  unfold base
  split <;> split <;> simp [hother, hcompleted]

theorem Told.release_watcher (h : Told watches) : watches.release.watcher = watches.base := by
  unfold release
  split
  · rename_i hnone
    rw [h.watched, hnone, Option.toFinset_none, Finset.union_empty]
  · rename_i ancestor hancestor
    change watches.watcher.erase ancestor = watches.base
    rw [h.watched, hancestor, Option.toFinset_some, Finset.union_comm, ← Finset.insert_eq]
    exact Finset.erase_insert (notMem_base h hancestor)

/-- Without its ancestor the watcher is consistent, whatever the directory's state. -/
theorem Told.release (h : Told watches) : Consistent watches.release where
  watched := by
    rw [h.release_watcher, release_base, release_ancestor, Option.toFinset_none,
      Finset.union_empty]
  above ancestor hancestor := by
    rw [release_ancestor] at hancestor
    cases hancestor
  beside := by rw [release_completed, release_directory, h.beside]
  detached hsome := by
    rw [release_ancestor] at hsome
    cases hsome

/-- Falling back keeps the record of what is watched. -/
theorem Consistent.fallBack (h : Consistent watches) (hstate : watches.directoryState = .detached)
    (fs : FileSystem) : Consistent (watches.fallBack fs) := by
  rcases fallBack_cases fs watches with ⟨-, hsame⟩ | ⟨-, hsame⟩ |
    ⟨nearest, hnearest, ⟨-, hsame⟩ | hwatched⟩
  · rw [hsame]
    exact h
  · rw [hsame]
    exact h.toTold.release
  · rw [hsame]
    exact h.toTold.release
  · have hreleased := h.toTold.release
    have habove := nearest_nearestAncestor fs watches.directory
    rw [hnearest] at habove
    rw [hwatched]
    exact {
      watched := by
        change insert nearest watches.release.watcher = watches.release.base ∪ {nearest}
        rw [h.toTold.release_watcher, release_base, Finset.union_comm, ← Finset.insert_eq]
      above := by
        intro ancestor hancestor
        cases hancestor
        change nearest.Above watches.release.directory
        rw [release_directory]
        exact habove.2.1
      beside := hreleased.beside
      detached := fun _ ↦ release_directoryState.trans hstate }

/-- So does attaching the directory. -/
theorem Consistent.attachDirectory (h : Consistent watches) (fs : FileSystem) :
    Consistent (watches.attachDirectory fs).1 := by
  rcases attachDirectory_cases fs watches with ⟨-, hsame⟩ | ⟨hstate, -, hattached⟩ |
    ⟨hstate, -, hback⟩
  · rw [hsame]
    exact h
  · rw [hattached]
    apply Told.release
    refine ⟨?_, h.above, h.beside⟩
    have hbase : watches.base =
        ∅ ∪ if watches.completedState = .attached then {watches.completed} else ∅ := by
      rw [base, hstate]
      rfl
    change insert watches.directory watches.watcher = insert watches.directory ∅ ∪ _ ∪ _
    rw [h.watched, hbase, Finset.insert_union, Finset.insert_union]
  · rw [hback]
    exact h.fallBack hstate fs

/-- So does attaching both. -/
theorem Consistent.attach (h : Consistent watches) (fs : FileSystem) :
    Consistent (watches.attach fs).1 := by
  have hfirst := h.attachDirectory fs
  rcases attach_cases fs watches with ⟨-, hsame⟩ | ⟨hstate, -, hattached⟩
  · rw [hsame]
    exact hfirst
  · rw [hattached]
    generalize (watches.attachDirectory fs).1 = first at hfirst hstate
    refine ⟨⟨?_, hfirst.above, hfirst.beside⟩, hfirst.detached⟩
    have hbase : first.base =
        (if first.directoryState = .attached then {first.directory} else ∅) ∪ ∅ := by
      rw [base, hstate]
      rfl
    change insert first.completed first.watcher =
      _ ∪ insert first.completed ∅ ∪ first.ancestor.toFinset
    rw [hfirst.watched, hbase, Finset.union_insert, Finset.insert_union]

theorem consistent_new (directory : Path) : Consistent (new directory) where
  watched := rfl
  above _ h := by cases h
  beside := rfl
  detached _ := rfl

theorem consistent_of_reachable (h : machine.Reachable watches) : Consistent watches := by
  refine h.invariant Consistent ?_ ?_
  · rintro _ ⟨directory, rfl⟩
    exact consistent_new directory
  · rintro before fs after hcons - hstep
    cases hstep
    exact hcons.attach fs

/-- Falling back changes nothing but the ancestor. -/
theorem fallBack_same (fs : FileSystem) (watches : DirectoryWatches) :
    (watches.fallBack fs).directory = watches.directory ∧
      (watches.fallBack fs).completed = watches.completed ∧
      (watches.fallBack fs).states = watches.states := by
  have hreleased : watches.release.directory = watches.directory ∧
      watches.release.completed = watches.completed ∧
      watches.release.states = watches.states := by
    simp [states]
  rcases fallBack_cases fs watches with ⟨-, hsame⟩ | ⟨-, hsame⟩ |
    ⟨nearest, -, ⟨-, hsame⟩ | hwatched⟩
  · rw [hsame]
    exact ⟨rfl, rfl, rfl⟩
  · rw [hsame]
    exact hreleased
  · rw [hsame]
    exact hreleased
  · rw [hwatched]
    exact hreleased

/-- Falling back leaves the nearest ancestor watched, unless it cannot be watched. -/
theorem fallBack_ancestor (fs : FileSystem) (watches : DirectoryWatches) :
    (watches.fallBack fs).ancestor = nearestAncestor fs watches.directory ∨
      (watches.fallBack fs).ancestor = none ∧
        ∃ path, nearestAncestor fs watches.directory = some path ∧ fs.watchable path = false := by
  rcases fallBack_cases fs watches with ⟨hsame, hback⟩ | ⟨hnone, hback⟩ |
    ⟨nearest, hnearest, ⟨houtcome, hback⟩ | hback⟩
  · exact .inl (by rw [hback, hsame])
  · exact .inl (by rw [hback, hnone, release_ancestor])
  · refine .inr ⟨by rw [hback, release_ancestor], nearest, hnearest, ?_⟩
    have hdir := nearest_nearestAncestor fs watches.directory
    rw [hnearest] at hdir
    simpa [outcome, hdir.1] using houtcome
  · exact .inl (by rw [hback, hnearest])

theorem attachDirectory_same (fs : FileSystem) (watches : DirectoryWatches) :
    (watches.attachDirectory fs).1.directory = watches.directory ∧
      (watches.attachDirectory fs).1.completed = watches.completed ∧
      (watches.attachDirectory fs).1.completedState = watches.completedState := by
  rcases attachDirectory_cases fs watches with ⟨-, hsame⟩ | ⟨-, -, hattached⟩ | ⟨-, -, hback⟩
  · rw [hsame]
    exact ⟨rfl, rfl, rfl⟩
  · rw [hattached]
    simp
  · rw [hback]
    obtain ⟨hdirectory, hcompleted, hstates⟩ := fallBack_same fs watches
    exact ⟨hdirectory, hcompleted, congrArg Watches.completed hstates⟩

theorem attachDirectory_result (fs : FileSystem) (watches : DirectoryWatches) :
    (watches.attachDirectory fs).1.directoryState =
        (if watches.directoryState = .attached then .attached
          else outcome fs watches.directory) ∧
      ((watches.attachDirectory fs).2 = .attached ↔ watches.directoryState = .detached ∧
        (watches.attachDirectory fs).1.directoryState = .attached) := by
  rcases attachDirectory_cases fs watches with ⟨hstate, hsame⟩ | ⟨hstate, houtcome, hattached⟩ |
    ⟨hstate, houtcome, hback⟩
  · simp [hsame, hstate]
  · simp [hattached, hstate, houtcome]
  · have hstates := congrArg Watches.directory (fallBack_same fs watches).2.2
    change (watches.fallBack fs).directoryState = watches.directoryState at hstates
    simp [hback, hstates, hstate, houtcome]

/-- The other half changes the state of the completed plans alone. -/
theorem attach_same (fs : FileSystem) (watches : DirectoryWatches) :
    (watches.attach fs).1.directory = (watches.attachDirectory fs).1.directory ∧
      (watches.attach fs).1.completed = (watches.attachDirectory fs).1.completed ∧
      (watches.attach fs).1.directoryState = (watches.attachDirectory fs).1.directoryState ∧
      (watches.attach fs).1.ancestor = (watches.attachDirectory fs).1.ancestor := by
  rcases attach_cases fs watches with ⟨-, hsame⟩ | ⟨-, -, hattached⟩
  · rw [hsame]
    exact ⟨rfl, rfl, rfl, rfl⟩
  · rw [hattached]
    exact ⟨rfl, rfl, rfl, rfl⟩

/-- What attaching comes to, for each of the two directories. -/
theorem attach_result (fs : FileSystem) (watches : DirectoryWatches) :
    (watches.attach fs).1.completedState =
        (if watches.completedState = .attached then .attached
          else outcome fs watches.completed) ∧
      ((watches.attach fs).2 = .attached ↔ (watches.attachDirectory fs).2 = .attached ∨
        watches.completedState = .detached ∧
          (watches.attach fs).1.completedState = .attached) := by
  obtain ⟨-, hcompleted, hstate⟩ := attachDirectory_same fs watches
  rcases attach_cases fs watches with ⟨hno, hsame⟩ | ⟨hdetached, houtcome, hattached⟩
  · rw [hstate, hcompleted] at hno
    rw [hsame, hstate]
    cases hbefore : watches.completedState with
    | attached => simp
    | detached => exact ⟨by simpa [hbefore, eq_comm] using hno, by simp⟩
  · rw [hstate] at hdetached
    rw [hcompleted] at houtcome
    rw [hattached]
    simp [hdetached, houtcome]

/-- The loop that follows the events sees of a call what the two tries came to. -/
theorem states_attach (fs : FileSystem) (watches : DirectoryWatches) :
    ((watches.attach fs).1.states, (watches.attach fs).2) =
      watches.states.attach (outcome fs watches.directory) (outcome fs watches.completed) := by
  obtain ⟨-, -, hsame, -⟩ := attach_same fs watches
  obtain ⟨hdirectory, hfirst⟩ := attachDirectory_result fs watches
  obtain ⟨hcompleted, hresult⟩ := attach_result fs watches
  rw [hdirectory] at hsame hfirst
  rw [hfirst, hcompleted] at hresult
  have hstates : (watches.attach fs).1.states =
      (watches.states.attach (outcome fs watches.directory) (outcome fs watches.completed)).1 :=
    congrArg₂ Watches.mk hsame hcompleted
  refine Prod.ext hstates (Attachment.eq_of_iff ?_)
  rw [hresult, Watches.attach_told]
  rfl

/-- Attaching does all it is meant to. -/
theorem attaches_attach (fs : FileSystem) (watches : DirectoryWatches) :
    Attaches fs watches (watches.attach fs).1 (watches.attach fs).2 := by
  obtain ⟨hpath, -, hstate, hancestor⟩ := attach_same fs watches
  obtain ⟨hdirectory, hfirst⟩ := attachDirectory_result fs watches
  obtain ⟨hcompleted, hresult⟩ := attach_result fs watches
  refine ⟨fun hdetached ↦ ?_, ?_, fun hbefore ↦ ?_, fun hbefore ↦ ?_⟩
  · rw [hpath, hancestor]
    rw [hstate] at hdetached
    rcases attachDirectory_cases fs watches with ⟨hbefore, -⟩ | ⟨-, houtcome, -⟩ | ⟨-, -, hback⟩
    · simp [hbefore, hdetached] at hdirectory
    · simp [houtcome, hdetached] at hdirectory
    · refine ⟨nearestAncestor fs watches.directory, ?_, ?_⟩
      · rw [(attachDirectory_same fs watches).1]
        exact nearest_nearestAncestor fs watches.directory
      · rw [hback]
        exact fallBack_ancestor fs watches
  · rw [hresult, hfirst, hstate]
  · rw [hstate, hdirectory, if_pos hbefore]
  · rw [hcompleted, if_pos hbefore]

/-- What is watched stays watched. -/
theorem states_of_exec {later : DirectoryWatches} {calls : List FileSystem}
    (hexec : machine.exec watches calls = some later) :
    (watches.directoryState = .attached → later.directoryState = .attached) ∧
      (watches.completedState = .attached → later.completedState = .attached) := by
  induction calls generalizing watches with
  | nil =>
      cases hexec
      exact ⟨id, id⟩
  | cons fs calls ih =>
      obtain ⟨hdirectory, hcompleted⟩ := ih hexec
      have hattaches := attaches_attach fs watches
      exact ⟨hdirectory ∘ hattaches.directory, hcompleted ∘ hattaches.completed⟩

/-- In every state the watcher watches what the states and the ancestor tell, and the ancestor
stands in for a directory that is not watched; every call falls back to the nearest ancestor and
tells what it attached; and what was attached once is attached ever after. -/
theorem watches_consistent (h : machine.Reachable watches) :
    Consistent watches ∧
      (∀ fs, Attaches fs watches (watches.attach fs).1 (watches.attach fs).2) ∧
      ∀ calls later, machine.exec watches calls = some later →
        (watches.directoryState = .attached → later.directoryState = .attached) ∧
          (watches.completedState = .attached → later.completedState = .attached) :=
  ⟨consistent_of_reachable h, fun fs ↦ attaches_attach fs watches,
    fun _ _ hexec ↦ states_of_exec hexec⟩

/-- Under a root without the directory of plans, the root is watched for it. -/
theorem watches_consistent_missing :
    ∃ watches, machine.Reachable watches ∧ watches.watcher = {⟨true, []⟩} ∧
      Consistent watches ∧
        (∀ fs, Attaches fs watches (watches.attach fs).1 (watches.attach fs).2) ∧
        ∀ calls later, machine.exec watches calls = some later →
          (watches.directoryState = .attached → later.directoryState = .attached) ∧
            (watches.completedState = .attached → later.completedState = .attached) := by
  have hinit : machine.Reachable (new ⟨true, ["plans".toList]⟩) := .init ⟨_, rfl⟩
  have hreach : machine.Reachable
      ((new ⟨true, ["plans".toList]⟩).attach ⟨fun path ↦ path.names = [], fun _ ↦ true⟩).1 :=
    .step hinit trivial rfl
  exact ⟨_, hreach, by decide, watches_consistent hreach⟩

end DirectoryWatches

end RalphexRunner
