import Mathlib.Data.List.Infix
import Mathlib.Logic.Function.Basic
import RalphexRunner.Semantics.World

/-!
# Files

A tree of directories, files and sockets as a function of absolute paths, and the requests a program
makes of it.  A request that fails leaves the tree as it was, except where it is made of many steps:
then a part of them may have been taken, and what is removed goes before its directory does.  The
mode of what is created is cut down by the umask.

`entry_of_apart` is the frame rule: a request changes nothing apart from what it names.
-/

namespace RalphexRunner

abbrev FilePath := List (List Char)

abbrev FileMode := BitVec 12

/-- What a path leads to; a socket is the program's `own` if the program bound it. -/
inductive FileEntry where
  | directory (mode : FileMode)
  | file (mode : FileMode) (content : List UInt8)
  | socket (mode : FileMode) (own : Bool)

namespace FileEntry

def IsDirectory : FileEntry → Prop
  | .directory _ => True
  | _ => False

def withMode : FileEntry → FileMode → FileEntry
  | .directory _, mode => .directory mode
  | .file _ content, mode => .file mode content
  | .socket _ own, mode => .socket mode own

end FileEntry

/-- What every path leads to, and the bits no new entry has. -/
structure Files where
  entry : FilePath → Option FileEntry
  umask : FileMode

/-- Why a request failed. -/
structure FileError where
  notFound : Bool
  message : List Char

namespace Files

/-- What a program asks of the files. -/
inductive Request where
  | connect (path : FilePath)
  | createAll (path : FilePath) (mode : FileMode)
  | create (path : FilePath) (mode : FileMode)
  | removeAll (path : FilePath)
  | removeDir (path : FilePath)
  | removeFile (path : FilePath)
  | bind (path : FilePath)
  | setMode (path : FilePath) (mode : FileMode)
  | rename (source target : FilePath)
  | copy (source target : FilePath)
  | write (path : FilePath) (content : List UInt8)

abbrev Answer (_ : Request) : Type := Except FileError Unit

/-- The mode of a new entry. -/
def created (files : Files) (mode : FileMode) : FileMode := mode &&& ~~~files.umask

def set (files : Files) (path : FilePath) (entry : Option FileEntry) : Files :=
  { files with entry := Function.update files.entry path entry }

/-- Everything at the path and below it is gone. -/
def without (files : Files) (path : FilePath) : Files :=
  { files with entry := fun other ↦ if path <+: other then none else files.entry other }

def Succeeds (files : Files) : Request → Files → Prop
  | .connect path, after => after = files ∧ ∃ mode own, files.entry path = some (.socket mode own)
  | .createAll path mode, after => after.umask = files.umask ∧
      (∀ other, other <+: path → ∃ made, after.entry other = some (.directory made) ∧
        (files.entry other = some (.directory made) ∨
          files.entry other = none ∧ made = files.created mode)) ∧
      ∀ other, ¬ other <+: path → after.entry other = files.entry other
  | .create path mode, after => files.entry path = none ∧
      after = files.set path (some (.directory (files.created mode)))
  | .removeAll path, after => after = files.without path
  | .removeDir path, after => (∃ mode, files.entry path = some (.directory mode)) ∧
      (∀ other, path <+: other → other ≠ path → files.entry other = none) ∧
      after = files.set path none
  | .removeFile path, after => (∃ entry, files.entry path = some entry ∧ ¬ entry.IsDirectory) ∧
      after = files.set path none
  | .bind path, after => files.entry path = none ∧
      after = files.set path (some (.socket (files.created 0o777) true))
  | .setMode path mode, after => ∃ entry, files.entry path = some entry ∧
      after = files.set path (some (entry.withMode mode))
  | .rename source target, after => ∃ entry, files.entry source = some entry ∧
      ¬ entry.IsDirectory ∧ (∀ mode, files.entry target ≠ some (.directory mode)) ∧
      after = (files.set target (some entry)).set source none
  | .copy source target, after => ∃ mode content, files.entry source = some (.file mode content) ∧
      after = files.set target (some (.file mode content))
  | .write path content, after => ∃ mode, after = files.set path (some (.file mode content))

def Fails (files : Files) : Request → Files → Prop
  | .createAll path mode, after => after.umask = files.umask ∧ ∀ other,
      after.entry other = files.entry other ∨ other <+: path ∧ files.entry other = none ∧
        after.entry other = some (.directory (files.created mode))
  | .removeAll path, after => after.umask = files.umask ∧
      (∀ other, after.entry other = files.entry other ∨ path <+: other ∧ after.entry other = none) ∧
      ∀ above other, above <+: other → after.entry other ≠ none →
        after.entry above = files.entry above
  | .copy _ target, after => after = files ∨ ∃ mode content,
      after = files.set target (some (.file mode content))
  | .write path content, after => after = files ∨ ∃ mode part, part <+: content ∧
      after = files.set path (some (.file mode part))
  | _, after => after = files

def effect : Program.Effect Request Answer Files := fun files request answer after ↦
  match answer with
  | .ok () => files.Succeeds request after
  | .error _ => files.Fails request after

variable {files after : Files} {path other : FilePath} {entry : Option FileEntry}

@[simp] theorem entry_set : (files.set path entry).entry path = entry :=
  Function.update_self ..

@[simp] theorem entry_set_of_ne (h : other ≠ path) :
    (files.set path entry).entry other = files.entry other :=
  Function.update_of_ne h ..

@[simp] theorem umask_set : (files.set path entry).umask = files.umask := rfl

theorem entry_without (h : path <+: other) : (files.without path).entry other = none := if_pos h

theorem entry_without_of_not_below (h : ¬ path <+: other) :
    (files.without path).entry other = files.entry other := if_neg h

@[simp] theorem umask_without : (files.without path).umask = files.umask := rfl

def Names : Request → FilePath → Prop
  | .connect _, _ => False
  | .createAll path _, other => other <+: path
  | .removeAll path, other => path <+: other
  | .rename source target, other => other = source ∨ other = target
  | .copy _ target, other => other = target
  | .create path _, other | .removeDir path, other | .removeFile path, other
  | .bind path, other | .setMode path _, other | .write path _, other => other = path

/-- A request changes nothing apart from what it names. -/
theorem entry_of_apart {request : Request} {answer : Answer request}
    (h : effect files request answer after) (hapart : ¬ Names request other) :
    after.entry other = files.entry other := by
  cases answer with
  | ok done =>
      cases request with
      | connect path => rw [h.1]
      | createAll path mode => exact h.2.2 other hapart
      | removeAll path =>
          obtain rfl := h
          exact entry_without_of_not_below hapart
      | rename source target =>
          obtain ⟨entry, -, -, -, rfl⟩ := h
          rw [entry_set_of_ne fun heq ↦ hapart (.inl heq),
            entry_set_of_ne fun heq ↦ hapart (.inr heq)]
      | copy source target =>
          obtain ⟨mode, content, -, rfl⟩ := h
          exact entry_set_of_ne hapart
      | create path mode | bind path =>
          obtain ⟨-, rfl⟩ := h
          exact entry_set_of_ne hapart
      | removeDir path =>
          obtain ⟨-, -, rfl⟩ := h
          exact entry_set_of_ne hapart
      | removeFile path =>
          obtain ⟨-, rfl⟩ := h
          exact entry_set_of_ne hapart
      | setMode path mode =>
          obtain ⟨entry, -, rfl⟩ := h
          exact entry_set_of_ne hapart
      | write path content =>
          obtain ⟨mode, rfl⟩ := h
          exact entry_set_of_ne hapart
  | error error =>
      cases request with
      | createAll path mode =>
          rcases h.2 other with hsame | ⟨hbelow, -⟩
          · exact hsame
          · exact absurd hbelow hapart
      | removeAll path =>
          rcases h.2.1 other with hsame | ⟨hbelow, -⟩
          · exact hsame
          · exact absurd hbelow hapart
      | copy source target =>
          rcases h with rfl | ⟨mode, content, rfl⟩
          · rfl
          · exact entry_set_of_ne hapart
      | write path content =>
          rcases h with rfl | ⟨mode, part, -, rfl⟩
          · rfl
          · exact entry_set_of_ne hapart
      | connect | create | removeDir | removeFile | bind | setMode | rename =>
          obtain rfl := h
          rfl

/-- Directories are made where nothing is. -/
theorem entry_of_createAll {mode : FileMode} {answer : Answer (.createAll path mode)}
    (h : effect files (.createAll path mode) answer after) (hexists : files.entry other ≠ none) :
    after.entry other = files.entry other := by
  cases answer with
  | ok done =>
      by_cases habove : other <+: path
      · obtain ⟨made, hafter, hbefore | ⟨hnone, -⟩⟩ := h.2.1 other habove
        · exact hafter.trans hbefore.symm
        · exact absurd hnone hexists
      · exact h.2.2 other habove
  | error error =>
      rcases h.2 other with hsame | ⟨-, hnone, -⟩
      · exact hsame
      · exact absurd hnone hexists

/-- The files with every missing directory made. -/
def withDirectories (files : Files) (path : FilePath) (mode : FileMode) : Files where
  entry other :=
    if other <+: path then (files.entry other).or (some (.directory (files.created mode)))
    else files.entry other
  umask := files.umask

theorem effect_withDirectories {mode : FileMode}
    (habove : ∀ other, other <+: path →
      files.entry other = none ∨ ∃ made, files.entry other = some (.directory made)) :
    effect files (.createAll path mode) (.ok ()) (files.withDirectories path mode) := by
  refine ⟨rfl, fun other hother ↦ ?_, fun other hother ↦ if_neg hother⟩
  have hentry : (files.withDirectories path mode).entry other =
    (files.entry other).or (some (.directory (files.created mode))) := if_pos hother
  rcases habove other hother with hnone | ⟨made, hmade⟩
  · rw [hnone] at hentry
    exact ⟨_, hentry, .inr ⟨hnone, rfl⟩⟩
  · rw [hmade] at hentry
    exact ⟨made, hentry, .inl hmade⟩

theorem entry_withDirectories {mode : FileMode} {found : FileEntry}
    (h : files.entry other = some found) :
    (files.withDirectories path mode).entry other = some found := by
  unfold withDirectories
  dsimp only
  split
  · rw [h, Option.some_or]
  · exact h

theorem directory_withDirectories {mode : FileMode}
    (h : files.entry other = none ∨ ∃ made, files.entry other = some (.directory made)) :
    (files.withDirectories path mode).entry other = none ∨
      ∃ made, (files.withDirectories path mode).entry other = some (.directory made) := by
  unfold withDirectories
  dsimp only
  split
  · right
    rcases h with hnone | ⟨made, hmade⟩
    · exact ⟨_, by rw [hnone, Option.none_or]⟩
    · exact ⟨made, by rw [hmade, Option.some_or]⟩
  · exact h

/-- Removing a file leaves every other entry as it was. -/
theorem entry_of_removeFile {answer : Answer (.removeFile path)}
    (h : effect files (.removeFile path) answer after) (hexists : after.entry other ≠ none) :
    after.entry other = files.entry other := by
  cases answer with
  | error error =>
      obtain rfl := h
      rfl
  | ok done =>
      obtain ⟨-, rfl⟩ := h
      apply entry_set_of_ne
      rintro rfl
      exact hexists entry_set

/-- No request changes the umask. -/
theorem umask_of_effect {request : Request} {answer : Answer request}
    (h : effect files request answer after) : after.umask = files.umask := by
  cases answer with
  | ok done =>
      cases request with
      | connect path => rw [h.1]
      | createAll path mode => exact h.1
      | removeAll path =>
          obtain rfl := h
          rfl
      | rename source target =>
          obtain ⟨entry, -, -, -, rfl⟩ := h
          rfl
      | copy source target =>
          obtain ⟨mode, content, -, rfl⟩ := h
          rfl
      | create path mode | bind path | removeFile path =>
          obtain ⟨-, rfl⟩ := h
          rfl
      | removeDir path =>
          obtain ⟨-, -, rfl⟩ := h
          rfl
      | setMode path mode =>
          obtain ⟨entry, -, rfl⟩ := h
          rfl
      | write path content =>
          obtain ⟨mode, rfl⟩ := h
          rfl
  | error error =>
      cases request with
      | createAll path mode | removeAll path => exact h.1
      | copy source target =>
          rcases h with rfl | ⟨mode, content, rfl⟩ <;> rfl
      | write path content =>
          rcases h with rfl | ⟨mode, part, -, rfl⟩ <;> rfl
      | connect | create | removeDir | removeFile | bind | setMode | rename =>
          obtain rfl := h
          rfl

end Files

end RalphexRunner
