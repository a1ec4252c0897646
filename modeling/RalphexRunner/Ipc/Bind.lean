import RalphexRunner.Ipc.Framing
import RalphexRunner.Semantics.Files
import RalphexRunner.Text.Chars

/-!
# Binding the daemon's socket

`bind` makes the socket in a staging directory nobody else can enter, closes it down there and only
then moves it to its path.  Every request of it can fail, and the daemon can be stopped between any
two of them.

Nobody else is taken to write to the socket's directory meanwhile.
-/

namespace RalphexRunner

namespace Ipc

open Files Program

/-- The permissions the daemon's socket carries. -/
def socketMode : FileMode := 0o600

/-- The permissions a directory created for the socket carries. -/
def directoryMode : FileMode := 0o700

def socketPathMax : ℕ := 104

/-- The name the socket carries in its staging directory. -/
def stagedName : Text := ['s']

/-- A path as it is shown. -/
def display (path : FilePath) : Text := if path = [] then ['/'] else path.flatMap ('/' :: ·)

def parentAndName (path : FilePath) : Option (FilePath × Text) :=
  match path.getLast? with
  | some name => if name = "..".toList then none else some (path.dropLast, name)
  | none => none

/-- The directory a socket is bound in before it is moved. -/
def stagingPath (parent : FilePath) (name : Text) : FilePath := parent ++ ['.' :: name]

abbrev Binding := Program Request Answer (Except IpcError Unit)

/-- Nobody listens at the path. -/
def unoccupied (path : FilePath) : Binding :=
  .call (.connect path) fun
    | .ok () => .done (.error (.io ("another daemon is listening at ".toList ++ display path)))
    | .error _ => .done (.ok ())

/-- Remove what was staged, and report the error. -/
def abandon (staging : FilePath) (error : FileError) : Binding :=
  .call (.removeAll staging) fun _ ↦ .done (.error (.io error.message))

/-- Close the socket down where it is staged, and move it to its path. -/
def settle (path staging staged : FilePath) : Binding :=
  .call (.setMode staged socketMode) fun
    | .error error => abandon staging error
    | .ok () => .call (.rename staged path) fun
        | .error error => abandon staging error
        | .ok () => .call (.removeDir staging) fun _ ↦ .done (.ok ())

/-- Bind the socket in a staging directory that has just been made. -/
def stage (path staging : FilePath) : Binding :=
  let staged := staging ++ [stagedName]
  if socketPathMax ≤ Utf8.size (display staged) then
    .done (.error (.io (display staged ++ " needs ".toList ++ numeral socketPathMax ++
      " bytes or fewer to be bound".toList)))
  else
    .call (.removeAll staging) fun _ ↦ .call (.create staging directoryMode) fun
      | .error error => .done (.error (.io error.message))
      | .ok () => .call (.bind staged) fun
          | .error error => abandon staging error
          | .ok () => settle path staging staged

def bind (path : FilePath) : Binding :=
  match parentAndName path with
  | none =>
      .done (.error (.io (display path ++ " is not a path a socket can be bound at".toList)))
  | some (parent, name) =>
      unoccupied path >>= fun
        | .error error => .done (.error error)
        | .ok () => .call (.createAll parent directoryMode) fun
            | .error error => .done (.error (.io error.message))
            | .ok () => stage path (stagingPath parent name)

variable {path parent other : FilePath} {name : Text}

theorem parentAndName_eq (h : parentAndName path = some (parent, name)) :
    path = parent ++ [name] := by
  unfold parentAndName at h
  split at h
  · rename_i last hlast
    split at h
    · cases h
    · cases h
      exact (List.dropLast_append_getLast? _ hlast).symm
  · cases h

theorem not_staging_below_path : ¬ stagingPath parent name <+: parent ++ [name] := by
  intro h
  have hlength : (stagingPath parent name).length = (parent ++ [name]).length := by
    simp [stagingPath]
  have hlast := List.append_cancel_left (h.eq_of_length hlength)
  have hname := congrArg List.length (List.singleton_inj.mp hlast)
  simp at hname

theorem not_path_above : ¬ parent ++ [name] <+: parent := by
  intro h
  have hlength := h.length_le
  rw [List.length_append, List.length_singleton] at hlength
  omega

theorem staging_below_staged :
    stagingPath parent name <+: stagingPath parent name ++ [stagedName] :=
  List.prefix_append ..

theorem staged_ne_path : stagingPath parent name ++ [stagedName] ≠ parent ++ [name] := by
  intro h
  apply not_staging_below_path
  rw [← h]
  exact staging_below_staged

theorem staging_ne_path : stagingPath parent name ≠ parent ++ [name] := by
  intro h
  apply not_staging_below_path
  rw [h]

/-! ## What a moment looks like -/

/-- Nobody but the owner can enter a directory of this mode. -/
def Private (mode : FileMode) : Prop := mode &&& 0o077 = 0

/-- The files at some moment of binding a socket: what the socket's path leads to, and where sockets
of the daemon's own are.  Everything else is as it was, but for missing directories on the way. -/
structure Moment (files : Files) (parent : FilePath) (name : Text) (taken : Option FileEntry)
    (own : FilePath → FileMode → Prop) (after : Files) : Prop where
  umask : after.umask = files.umask
  apart : ∀ other, other ≠ parent ++ [name] → ¬ stagingPath parent name <+: other →
    after.entry other = files.entry other ∨ other <+: parent ∧ files.entry other = none ∧
      after.entry other = some (.directory (files.created directoryMode))
  taken : after.entry (parent ++ [name]) = taken
  own : ∀ other mode, after.entry other = some (.socket mode true) → own other mode

/-- The files are safe: the path leads where it led or to the finished socket, and an unfinished one
is in a directory nobody else can enter. -/
def Safe (files : Files) (parent : FilePath) (name : Text) (after : Files) : Prop :=
  Moment files parent name (files.entry (parent ++ [name])) (fun _ _ ↦ False) after ∨
  (Moment files parent name (files.entry (parent ++ [name]))
      (fun other _ ↦ other = stagingPath parent name ++ [stagedName]) after ∧
    ∃ mode, after.entry (stagingPath parent name) = some (.directory mode) ∧ Private mode) ∨
  Moment files parent name (some (.socket socketMode true))
    (fun other mode ↦ other = parent ++ [name] ∧ mode = socketMode) after

theorem Safe.moment {files after : Files} (h : Safe files parent name after) :
    ∃ taken own, Moment files parent name taken own after ∧
      (taken = files.entry (parent ++ [name]) ∨ taken = some (.socket socketMode true)) := by
  rcases h with h | ⟨h, -⟩ | h
  · exact ⟨_, _, h, .inl rfl⟩
  · exact ⟨_, _, h, .inl rfl⟩
  · exact ⟨_, _, h, .inr rfl⟩

/-- How binding may end: with the socket at its path, or with nothing of it there. -/
def Ends (files : Files) (parent : FilePath) (name : Text) (after : Files) :
    Except IpcError Unit → Prop
  | .ok () => Moment files parent name (some (.socket socketMode true))
      (fun other mode ↦ other = parent ++ [name] ∧ mode = socketMode) after
  | .error _ => after.entry (parent ++ [name]) = files.entry (parent ++ [name])

variable {files before after : Files} {taken : Option FileEntry}
  {own more : FilePath → FileMode → Prop}

theorem Moment.imp (h : Moment files parent name taken own before)
    (hmore : ∀ other mode, own other mode → more other mode) :
    Moment files parent name taken more before :=
  ⟨h.umask, h.apart, h.taken, fun other mode hsocket ↦ hmore other mode (h.own other mode hsocket)⟩

/-- The finished socket is moved to its path. -/
theorem Moment.moves (h : Moment files parent name taken
      (fun other _ ↦ other = stagingPath parent name ++ [stagedName]) before) :
    Moment files parent name (some (.socket socketMode true))
      (fun other mode ↦ other = parent ++ [name] ∧ mode = socketMode)
      ((before.set (parent ++ [name]) (some (.socket socketMode true))).set
        (stagingPath parent name ++ [stagedName]) none) := by
  refine ⟨h.umask, ?_, ?_, ?_⟩
  · intro other hne hapart
    have hstaged : other ≠ stagingPath parent name ++ [stagedName] := by
      rintro rfl
      exact hapart staging_below_staged
    rw [Files.entry_set_of_ne hstaged, Files.entry_set_of_ne hne]
    exact h.apart other hne hapart
  · rw [Files.entry_set_of_ne staged_ne_path.symm, Files.entry_set]
  · intro other mode hsocket
    by_cases hstaged : other = stagingPath parent name ++ [stagedName]
    · rw [hstaged, Files.entry_set] at hsocket
      cases hsocket
    · rw [Files.entry_set_of_ne hstaged] at hsocket
      by_cases hpath : other = parent ++ [name]
      · rw [hpath, Files.entry_set] at hsocket
        cases hsocket
        exact ⟨hpath, rfl⟩
      · rw [Files.entry_set_of_ne hpath] at hsocket
        exact absurd (h.own other mode hsocket) hstaged

/-- What is removed below the staging directory is removed for good. -/
theorem Moment.removeAll {answer : Except FileError Unit}
    (h : Moment files parent name taken own before)
    (heffect : Files.effect before (.removeAll (stagingPath parent name)) answer after) :
    Moment files parent name taken own after := by
  have hsame {path : FilePath} (hapart : ¬ stagingPath parent name <+: path) :
      after.entry path = before.entry path := Files.entry_of_apart heffect hapart
  refine ⟨(Files.umask_of_effect heffect).trans h.umask, ?_, ?_, ?_⟩
  · intro path hne hapart
    rw [hsame hapart]
    exact h.apart path hne hapart
  · rw [hsame not_staging_below_path]
    exact h.taken
  · intro path mode hsocket
    by_cases hapart : stagingPath parent name <+: path
    · have hkept : after.entry path = before.entry path ∨ after.entry path = none := by
        cases answer with
        | ok done =>
            obtain rfl := heffect
            exact .inr (Files.entry_without hapart)
        | error error =>
            rcases heffect.2.1 path with hkept | ⟨-, hgone⟩
            · exact .inl hkept
            · exact .inr hgone
      rcases hkept with hkept | hgone
      · exact h.own path mode (hkept ▸ hsocket)
      · rw [hgone] at hsocket
        cases hsocket
    · exact h.own path mode (hsame hapart ▸ hsocket)

/-- A staged socket that is alone in its directory can be moved to its path. -/
theorem settles {mode made : FileMode}
    (hstaged : files.entry (stagingPath parent name ++ [stagedName]) = some (.socket mode true))
    (hstaging : files.entry (stagingPath parent name) = some (.directory made))
    (halone : ∀ other, stagingPath parent name <+: other → other ≠ stagingPath parent name →
      other ≠ stagingPath parent name ++ [stagedName] → files.entry other = none)
    (hfree : ∀ mode, files.entry (parent ++ [name]) ≠ some (.directory mode)) :
    ∃ history after, Runs Files.effect files (settle (parent ++ [name]) (stagingPath parent name)
      (stagingPath parent name ++ [stagedName])) history after (.done (.ok ())) := by
  have hne : stagingPath parent name ≠ stagingPath parent name ++ [stagedName] := by simp
  let closed := files.set (stagingPath parent name ++ [stagedName]) (some (.socket socketMode true))
  let moved := (closed.set (parent ++ [name]) (some (.socket socketMode true))).set
    (stagingPath parent name ++ [stagedName]) none
  have hclosed {other : FilePath} (h : other ≠ stagingPath parent name ++ [stagedName]) :
      closed.entry other = files.entry other := Files.entry_set_of_ne h
  have hmoved {other : FilePath} (hgone : other ≠ stagingPath parent name ++ [stagedName])
      (hpath : other ≠ parent ++ [name]) : moved.entry other = files.entry other :=
    (Files.entry_set_of_ne hgone).trans ((Files.entry_set_of_ne hpath).trans (hclosed hgone))
  have hcloses : Files.effect files
      (.setMode (stagingPath parent name ++ [stagedName]) socketMode) (.ok ()) closed :=
    ⟨_, hstaged, rfl⟩
  have hmoves : Files.effect closed
      (.rename (stagingPath parent name ++ [stagedName]) (parent ++ [name])) (.ok ()) moved := by
    refine ⟨_, Files.entry_set, id, fun mode ↦ ?_, rfl⟩
    rw [hclosed staged_ne_path.symm]
    exact hfree mode
  have hremoves : Files.effect moved (.removeDir (stagingPath parent name)) (.ok ())
      (moved.set (stagingPath parent name) none) := by
    refine ⟨⟨made, ?_⟩, fun other hbelow hother ↦ ?_, rfl⟩
    · rw [hmoved hne staging_ne_path]
      exact hstaging
    · by_cases hgone : other = stagingPath parent name ++ [stagedName]
      · rw [hgone]
        exact Files.entry_set
      · have hpath : other ≠ parent ++ [name] := by
          rintro rfl
          exact not_staging_below_path hbelow
        rw [hmoved hgone hpath]
        exact halone other hbelow hother hgone
  exact ⟨_, _, .called hcloses (.called hmoves (.called hremoves .start))⟩

/-- Whatever is staged already, the socket can be staged anew. -/
theorem stages
    (hshort : Utf8.size (display (stagingPath parent name ++ [stagedName])) < socketPathMax)
    (hfree : ∀ mode, files.entry (parent ++ [name]) ≠ some (.directory mode)) :
    ∃ history after, Runs Files.effect files (stage (parent ++ [name]) (stagingPath parent name))
      history after (.done (.ok ())) := by
  have hne : stagingPath parent name ≠ stagingPath parent name ++ [stagedName] := by simp
  let cleared := files.without (stagingPath parent name)
  let made := cleared.set (stagingPath parent name)
    (some (.directory (cleared.created directoryMode)))
  let bound := made.set (stagingPath parent name ++ [stagedName])
    (some (.socket (made.created 0o777) true))
  have hmade {other : FilePath} (h : other ≠ stagingPath parent name)
      (hbelow : stagingPath parent name <+: other) : made.entry other = none :=
    (Files.entry_set_of_ne h).trans (Files.entry_without hbelow)
  have hclears : Files.effect files (.removeAll (stagingPath parent name)) (.ok ()) cleared := rfl
  have hmakes : Files.effect cleared (.create (stagingPath parent name) directoryMode) (.ok ())
      made := ⟨Files.entry_without (List.prefix_refl _), rfl⟩
  have hbinds : Files.effect made (.bind (stagingPath parent name ++ [stagedName])) (.ok ())
      bound := ⟨hmade hne.symm staging_below_staged, rfl⟩
  obtain ⟨history, after, hsettle⟩ := @settles parent name bound _ _ Files.entry_set
    ((Files.entry_set_of_ne hne).trans Files.entry_set)
    (fun other hbelow hstaging hstaged ↦
      (Files.entry_set_of_ne hstaged).trans (hmade hstaging hbelow))
    (fun mode ↦ by
      have hpath : bound.entry (parent ++ [name]) = files.entry (parent ++ [name]) :=
        (Files.entry_set_of_ne staged_ne_path.symm).trans
          ((Files.entry_set_of_ne staging_ne_path.symm).trans
            (Files.entry_without_of_not_below not_staging_below_path))
      rw [hpath]
      exact hfree mode)
  simp only [stage, if_neg (Nat.not_le_of_lt hshort)]
  exact ⟨_, after, .called hclears (.called hmakes (.called hbinds hsettle))⟩

/-- Whatever is staged already, a bind none of whose requests fails ends with the socket in
place. -/
theorem binds (hpath : parentAndName path = some (parent, name))
    (hshort : Utf8.size (display (stagingPath parent name ++ [stagedName])) < socketPathMax)
    (habove : ∀ other, other <+: parent →
      files.entry other = none ∨ ∃ made, files.entry other = some (.directory made))
    (hfree : ∀ mode, files.entry path ≠ some (.directory mode)) :
    ∃ history after, Runs Files.effect files (bind path) history after (.done (.ok ())) := by
  obtain rfl := parentAndName_eq hpath
  have hrefused : Files.effect files (.connect (parent ++ [name])) (.error ⟨true, []⟩) files := rfl
  have hmade := @Files.effect_withDirectories files parent directoryMode habove
  obtain ⟨history, after, hstage⟩ := @stages parent name
    (files.withDirectories parent directoryMode) hshort fun mode ↦ by
      rw [Files.entry_of_apart hmade not_path_above]
      exact hfree mode
  simp only [bind, hpath]
  exact ⟨_, after, .called hrefused (.called hmade hstage)⟩

/-- A socket left behind by a daemon that is gone. -/
def stale : Files where
  entry path :=
    if path = ["run".toList, "d.sock".toList] then some (.socket socketMode false)
    else if path <+: ["run".toList] then some (.directory 0o755)
    else none
  umask := 0o022

end Ipc

end RalphexRunner
