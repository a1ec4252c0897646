import RalphexRunner.Semantics.Files
import RalphexRunner.Text.Chars

/-!
# The locations the daemon and the client share

Every location is named after the build profile, so that a daemon under development and an installed
one have none in common.
-/

namespace RalphexRunner

/-- The application directory name a release build uses. -/
def appName : Text := "ralphex-macos-runner".toList

def launchdPrefix : Text := "dev.pkarpovich".toList

inductive Profile where
  | release
  | debug
  deriving DecidableEq

/-- The application directory name a profile owns. -/
def Profile.appDirName : Profile → Text
  | .release => appName
  | .debug => "ralphex-macos-runner-dev".toList

/-- Why a location could not be resolved. -/
inductive PathError where
  | dataDir
  | homeDir

def PathError.message : PathError → Text
  | .dataDir => "the user data directory could not be determined".toList
  | .homeDir => "the user home directory could not be determined".toList

/-- What the locations depend on. -/
structure Places where
  profile : Profile
  dataDir : Option FilePath
  homeDir : Option FilePath

namespace Places

variable (places : Places)

def joinAppDir (root : FilePath) (profile : Profile) : FilePath := root ++ [profile.appDirName]

def appDir : Except PathError FilePath :=
  match places.dataDir with
  | none => .error .dataDir
  | some root => .ok (joinAppDir root places.profile)

def configPath : Except PathError FilePath := places.appDir.map (· ++ ["config.toml".toList])

def socketPath : Except PathError FilePath := places.appDir.map (· ++ ["daemon.sock".toList])

def farmOutDir : Except PathError FilePath := places.appDir.map (· ++ ["farm-out".toList])

def daemonBinaryPath : Except PathError FilePath := places.appDir.map (· ++ ["bin".toList, appName])

def logDir : Except PathError FilePath :=
  match places.homeDir with
  | none => .error .homeDir
  | some home => .ok (joinAppDir (home ++ ["Library".toList, "Logs".toList]) places.profile)

def launchdLabel : Text := launchdPrefix ++ '.' :: places.profile.appDirName

def launchAgentPath : Except PathError FilePath :=
  match places.homeDir with
  | none => .error .homeDir
  | some home => .ok (home ++ ["Library".toList, "LaunchAgents".toList,
      places.launchdLabel ++ ".plist".toList])

/-- A path is one of those the daemon or the client reads or writes. -/
def Owns (path : FilePath) : Prop :=
  places.configPath = .ok path ∨ places.socketPath = .ok path ∨
    places.daemonBinaryPath = .ok path ∨ places.launchAgentPath = .ok path

variable {places} {path daemonPath plistPath : FilePath} {profile : Profile}

theorem appDir_map_eq {names : FilePath} (h : places.appDir.map (· ++ names) = .ok path) :
    ∃ root, places.dataDir = some root ∧ path = root ++ (places.profile.appDirName :: names) := by
  cases hroot : places.dataDir with
  | none =>
      rw [appDir, hroot] at h
      cases h
  | some root =>
      rw [appDir, hroot] at h
      cases h
      exact ⟨root, rfl, List.append_cons root _ names |>.symm⟩

theorem launchAgentPath_eq (h : places.launchAgentPath = .ok path) :
    ∃ home, places.homeDir = some home ∧ path = home ++ ["Library".toList, "LaunchAgents".toList,
      places.launchdLabel ++ ".plist".toList] := by
  cases hhome : places.homeDir with
  | none =>
      rw [launchAgentPath, hhome] at h
      cases h
  | some home =>
      rw [launchAgentPath, hhome] at h
      cases h
      exact ⟨home, rfl, rfl⟩

/-- The last name of a location. -/
theorem getLast?_of_owns (h : places.Owns path) :
    (places.daemonBinaryPath = .ok path ∧ path.getLast? = some appName) ∨
    (places.launchAgentPath = .ok path ∧
      path.getLast? = some (places.launchdLabel ++ ".plist".toList)) ∨
    path.getLast? = some "config.toml".toList ∨ path.getLast? = some "daemon.sock".toList := by
  rcases h with h | h | h | h
  · obtain ⟨root, -, rfl⟩ := appDir_map_eq h
    right
    right
    left
    simp
  · obtain ⟨root, -, rfl⟩ := appDir_map_eq h
    right
    right
    right
    simp
  · refine .inl ⟨h, ?_⟩
    obtain ⟨root, -, rfl⟩ := appDir_map_eq h
    simp
  · refine .inr (.inl ⟨h, ?_⟩)
    obtain ⟨home, -, rfl⟩ := launchAgentPath_eq h
    simp

theorem appDirName_injective : Function.Injective Profile.appDirName := by
  intro first second h
  cases first <;> cases second <;> first | rfl | exact absurd h (by decide)

/-- No binary carries the name of a property list, of the configuration or of the socket. -/
theorem appName_ne (profile : Profile) :
    appName ≠ launchdPrefix ++ '.' :: profile.appDirName ++ ".plist".toList ∧
      appName ≠ "config.toml".toList ∧ appName ≠ "daemon.sock".toList := by
  cases profile <;> decide

/-- No property list carries the name of the configuration or of the socket. -/
theorem plistName_ne (profile : Profile) :
    launchdPrefix ++ '.' :: profile.appDirName ++ ".plist".toList ≠ "config.toml".toList ∧
      launchdPrefix ++ '.' :: profile.appDirName ++ ".plist".toList ≠ "daemon.sock".toList := by
  cases profile <;> decide

theorem daemonBinaryPath_ne_launchAgentPath (hdaemon : places.daemonBinaryPath = .ok daemonPath)
    (hplist : places.launchAgentPath = .ok plistPath) : daemonPath ≠ plistPath := by
  rintro rfl
  obtain ⟨root, -, hroot⟩ := appDir_map_eq hdaemon
  obtain ⟨home, -, hhome⟩ := launchAgentPath_eq hplist
  have hlast := congrArg List.getLast? (hroot.symm.trans hhome)
  have hname : appName = places.launchdLabel ++ ".plist".toList := by simpa using hlast
  exact (appName_ne places.profile).1 hname

/-- The daemon's binary and its property list are no files of another profile. -/
theorem not_owns_other (hprofile : profile ≠ places.profile)
    (h : places.daemonBinaryPath = .ok path ∨ places.launchAgentPath = .ok path) :
    ¬ { places with profile }.Owns path := by
  intro howns
  rcases h with h | h
  · obtain ⟨root, hdata, hpath⟩ := appDir_map_eq h
    have hlast : path.getLast? = some appName := by
      rw [hpath]
      simp
    rcases getLast?_of_owns howns with ⟨hother, -⟩ | ⟨-, hname⟩ | hname | hname
    · obtain ⟨other, hdata', hpath'⟩ := appDir_map_eq hother
      rw [hdata] at hdata'
      cases hdata'
      rw [hpath] at hpath'
      have hsame := List.append_cancel_left hpath'
      exact hprofile (appDirName_injective (List.cons.inj hsame).1).symm
    · rw [hlast] at hname
      exact (appName_ne profile).1 (Option.some.inj hname)
    · rw [hlast] at hname
      exact (appName_ne profile).2.1 (Option.some.inj hname)
    · rw [hlast] at hname
      exact (appName_ne profile).2.2 (Option.some.inj hname)
  · obtain ⟨home, hhome, hpath⟩ := launchAgentPath_eq h
    have hlast : path.getLast? = some (places.launchdLabel ++ ".plist".toList) := by
      rw [hpath]
      simp
    rcases getLast?_of_owns howns with ⟨-, hname⟩ | ⟨-, hname⟩ | hname | hname
    · rw [hlast] at hname
      exact (appName_ne places.profile).1 (Option.some.inj hname).symm
    · rw [hlast] at hname
      have hsame := List.append_cancel_right (Option.some.inj hname)
      have htail := List.append_cancel_left hsame
      exact hprofile (appDirName_injective (List.cons.inj htail).2).symm
    · rw [hlast] at hname
      exact (plistName_ne places.profile).1 (Option.some.inj hname)
    · rw [hlast] at hname
      exact (plistName_ne places.profile).2 (Option.some.inj hname)

end Places

end RalphexRunner
