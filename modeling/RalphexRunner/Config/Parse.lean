import RalphexRunner.Protocol.Duration
import RalphexRunner.Text.Search

/-!
# The daemon's configuration

`parse` reads the settings out of the configuration file.  The TOML parser is a parameter: what it
hands over is the five settings the file may have.  A duration is a number and a unit, checked
against the range of seconds alone.
-/

namespace RalphexRunner

/-- The settings as the file has them. -/
structure FileConfig where
  farmUrl : Option Text
  token : Option Text
  name : Option Text
  drainTimeout : Option Text
  ralphexBin : Option Text
  deriving DecidableEq

/-- Everything the daemon reads out of the file. -/
structure DaemonConfig where
  farmUrl : Text
  token : Text
  name : Text
  drainTimeout : Duration
  ralphexBin : Text
  deriving DecidableEq

/-- Why a configuration could not be used. -/
inductive ConfigError where
  | parse (message : Text)
  | missing (field : Text)
  | duration (value : Text)
  deriving DecidableEq

namespace DaemonConfig

theorem defaultDrainTimeout_fits : 120 < secsBound := by decide

/-- The time a shutdown lets a running job finish before it is stopped. -/
def defaultDrainTimeout : Duration := .fromSecs 120 defaultDrainTimeout_fits

/-- The binary a configuration without `ralphex_bin` runs. -/
def defaultRalphexBin : Text := "ralphex".toList

def required (value : Option Text) (field : Text) : Except ConfigError Text :=
  match value with
  | none => .error (.missing field)
  | some value => if (trim value).isEmpty then .error (.missing field) else .ok value

/-- One more character of a duration: a digit of the number up to the first of the unit. -/
def splitUnitStep (split : Text × Text) (character : Char) : Text × Text :=
  if isDigit character && split.2.isEmpty then (split.1 ++ [character], split.2)
  else (split.1, split.2 ++ [character])

/-- The digits a text starts with, and everything after them. -/
def splitUnit (text : Text) : Text × Text := text.foldl splitUnitStep ([], [])

def unitFactor (unit : Text) : Option ℕ :=
  if unit = ['s'] then some 1
  else if unit = ['m'] then some 60
  else if unit = ['h'] then some 3600
  else none

def parseDuration (value : Text) : Except ConfigError Duration :=
  let (digits, unit) := splitUnit (trim value)
  match parseU64 digits, unitFactor unit with
  | some amount, some factor =>
      if h : amount.val * factor < secsBound then .ok (.fromSecs (amount.val * factor) h)
      else .error (.duration value)
  | _, _ => .error (.duration value)

/-- The drain timeout of a file, or the default. -/
def drainTimeoutOf (file : FileConfig) : Except ConfigError Duration :=
  match file.drainTimeout with
  | some value => parseDuration value
  | none => .ok defaultDrainTimeout

/-- Parse the configuration in `contents`. -/
def parse (fromStr : Text → Except Text FileConfig) (contents : Text) :
    Except ConfigError DaemonConfig :=
  match fromStr contents with
  | .error error => .error (.parse error)
  | .ok file => do
      let farmUrl ← required file.farmUrl "farm_url".toList
      let token ← required file.token "token".toList
      let name ← required file.name "name".toList
      let drainTimeout ← drainTimeoutOf file
      .ok ⟨farmUrl, token, name, drainTimeout, file.ralphexBin.getD defaultRalphexBin⟩

example : parseDuration " 2m ".toList = .ok (.fromSecs 120 (by decide)) := by decide

/-- The seconds a duration spells, whether or not they fit. -/
def spelledSeconds (value : Text) : ℕ :=
  let (digits, unit) := splitUnit (trim value)
  decimal digits * (unitFactor unit).getD 0

/-- The seconds of drain timeout a file asks for. -/
def drainSeconds (file : FileConfig) : ℕ :=
  match file.drainTimeout with
  | some value => spelledSeconds value
  | none => defaultDrainTimeout.asSecs

theorem all_isDigit_splitUnitStep {split : Text × Text} (h : split.1.all isDigit = true)
    (character : Char) : (splitUnitStep split character).1.all isDigit = true := by
  unfold splitUnitStep
  split
  · rename_i hdigit
    rw [Bool.and_eq_true] at hdigit
    rw [List.all_append, h, List.all_cons, hdigit.1]
    rfl
  · exact h

theorem all_isDigit_splitUnit (text : Text) : (splitUnit text).1.all isDigit = true := by
  suffices hfold : ∀ split : Text × Text, split.1.all isDigit = true →
      (text.foldl splitUnitStep split).1.all isDigit = true from hfold ([], []) rfl
  induction text with
  | nil => exact fun _ h ↦ h
  | cons character rest ih => exact fun split h ↦ ih _ (all_isDigit_splitUnitStep h character)

/-- A duration that was read spans the seconds it spells. -/
theorem nanos_of_parseDuration {value : Text} {duration : Duration}
    (h : parseDuration value = .ok duration) :
    duration.nanos = spelledSeconds value * nanosPerSec := by
  have hdigits := all_isDigit_splitUnit (trim value)
  unfold parseDuration at h
  unfold spelledSeconds
  dsimp only at h ⊢
  split at h
  · rename_i amount factor hamount hfactor
    rw [hfactor, Option.getD_some, ← val_of_parseU64 hdigits hamount]
    split at h
    · rw [← Except.ok.inj h, Duration.nanos_fromSecs]
    · cases h
  · cases h

theorem bind_eq_ok {ε α β : Type} {first : Except ε α} {next : α → Except ε β} {result : β}
    (h : (first >>= next) = .ok result) :
    ∃ value, first = .ok value ∧ next value = .ok result := by
  cases first with
  | error _ => cases h
  | ok value => exact ⟨value, rfl, h⟩

/-- An accepted file has the drain timeout it asks for. -/
theorem nanos_drainTimeout_of_parse {fromStr : Text → Except Text FileConfig} {contents : Text}
    {file : FileConfig} {config : DaemonConfig} (hfile : fromStr contents = .ok file)
    (h : parse fromStr contents = .ok config) :
    config.drainTimeout.nanos = drainSeconds file * nanosPerSec := by
  have htimeout : drainTimeoutOf file = .ok config.drainTimeout := by
    rw [parse, hfile] at h
    obtain ⟨farmUrl, -, h⟩ := bind_eq_ok h
    obtain ⟨token, -, h⟩ := bind_eq_ok h
    obtain ⟨name, -, h⟩ := bind_eq_ok h
    obtain ⟨drainTimeout, htimeout, h⟩ := bind_eq_ok h
    rw [← Except.ok.inj h, htimeout]
  unfold drainTimeoutOf at htimeout
  unfold drainSeconds
  split at htimeout
  · exact nanos_of_parseDuration htimeout
  · rw [← Except.ok.inj htimeout, defaultDrainTimeout, Duration.asSecs_fromSecs,
      Duration.nanos_fromSecs]

end DaemonConfig

end RalphexRunner
