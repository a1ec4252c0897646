import RalphexRunner.Config.Parse
import RalphexRunner.Service.Plist

/-!
# The sums an accepted drain timeout enters

An install adds up the exit timeout it writes and the time it waits for the old agent, and adds that
time to the clock; the daemon's start adds the exit timeout up again for a warning.  The
configuration bounds the product of a number and a unit by the range of a duration, which leaves no
room for what is added, and the clock's range is the narrower one.
-/

namespace RalphexRunner

namespace Service

open Duration DaemonConfig

theorem bootoutMargin_fits : 10 < secsBound := by decide

/-- The time an old agent gets over its exit timeout. -/
def bootoutMargin : Duration := .fromSecs 10 bootoutMargin_fits

/-- The property list an install writes, the time it waits for the old agent and the moment it waits
until, where they can be computed.  The clock is read once the old agent is booted out. -/
def install (label : Text) (daemonPath : List UInt8) (pathEnv : Text) (logDir : List UInt8)
    (drainTimeout : Duration) (now : Instant) : Option (Text × Duration × Instant) :=
  (exitTimeout drainTimeout).bind fun exitTimeout ↦
    let plist := generatePlist label daemonPath pathEnv logDir exitTimeout
    (exitTimeout.checkedAdd bootoutMargin).bind fun budget ↦
      (now.checkedAdd budget).map fun deadline ↦ (plist, budget, deadline)

/-- The warning the property list on disk earns, where the exit timeout can be computed. -/
def installedDrift (plist : Option Text) (drainTimeout : Duration) : Option (Option Text) :=
  match plist with
  | none => some none
  | some plist => exitTimeoutDrift plist drainTimeout

/-- Every sum an install and the daemon's start make of a drain timeout can be computed, whatever is
installed, by an install whose clock reads `now` when it starts to wait. -/
def Computes (now : Instant) (drainTimeout : Duration) : Prop :=
  (exitTimeout drainTimeout).isSome ∧
  (∀ label daemonPath pathEnv logDir,
    (install label daemonPath pathEnv logDir drainTimeout now).isSome) ∧
  ∀ plist, (installedDrift plist drainTimeout).isSome

/-- The seconds an install adds to the drain timeout. -/
def installOverhead : ℕ := 1100

theorem exitOverhead_add_bootoutMargin :
    exitOverhead * nanosPerSec + bootoutMargin.nanos = installOverhead * nanosPerSec := by
  rw [bootoutMargin, nanos_fromSecs, ← Nat.add_mul]
  rfl

/-- What the clock has room for, a duration has room for. -/
theorem fits_of_instant {now : Instant} {nanos : ℕ}
    (h : now.nanos + nanos < instantBound * nanosPerSec) : nanos < secsBound * nanosPerSec := by
  have hbounds : instantBound * nanosPerSec ≤ secsBound * nanosPerSec :=
    Nat.mul_le_mul_right nanosPerSec (by decide)
  exact ((Nat.le_add_left nanos now.nanos).trans_lt h).trans_le hbounds

/-- The time an install waits is found where it is a duration. -/
theorem isSome_budget {drainTimeout : Duration} :
    ((exitTimeout drainTimeout).bind (·.checkedAdd bootoutMargin)).isSome ↔
      drainTimeout.nanos + installOverhead * nanosPerSec < secsBound * nanosPerSec := by
  rw [← exitOverhead_add_bootoutMargin, ← Nat.add_assoc]
  cases hexit : exitTimeout drainTimeout with
  | none =>
      have hover := isSome_exitTimeout.not.mp (by rw [hexit]; nofun)
      refine iff_of_false (by nofun) fun hfits ↦ hover ?_
      exact (Nat.le_add_right _ bootoutMargin.nanos).trans_lt hfits
  | some exit => rw [← exitTimeout_eq_some.mp hexit, ← isSome_checkedAdd, Option.bind_some]

theorem nanos_budget {drainTimeout exit budget : Duration}
    (hexit : exitTimeout drainTimeout = some exit)
    (hbudget : exit.checkedAdd bootoutMargin = some budget) :
    budget.nanos = drainTimeout.nanos + installOverhead * nanosPerSec := by
  rw [checkedAdd_eq_some.mp hbudget, exitTimeout_eq_some.mp hexit, Nat.add_assoc,
    exitOverhead_add_bootoutMargin]

/-- What an install computes is found where the moment it waits until is one. -/
theorem isSome_install {label : Text} {daemonPath : List UInt8} {pathEnv : Text}
    {logDir : List UInt8} {drainTimeout : Duration} {now : Instant} :
    (install label daemonPath pathEnv logDir drainTimeout now).isSome ↔
      now.nanos + (drainTimeout.nanos + installOverhead * nanosPerSec) <
        instantBound * nanosPerSec := by
  have hbudget := @isSome_budget drainTimeout
  unfold install
  cases hexit : exitTimeout drainTimeout with
  | none =>
      rw [hexit, Option.bind_none] at hbudget
      exact iff_of_false (by nofun) fun hfits ↦ by cases hbudget.mpr (fits_of_instant hfits)
  | some exit =>
      rw [hexit, Option.bind_some] at hbudget
      rw [Option.bind_some]
      cases hsum : exit.checkedAdd bootoutMargin with
      | none =>
          rw [hsum] at hbudget
          exact iff_of_false (by nofun) fun hfits ↦ by cases hbudget.mpr (fits_of_instant hfits)
      | some budget =>
          rw [← nanos_budget hexit hsum, ← Instant.isSome_checkedAdd]
          dsimp only [Option.bind_some]
          rw [Option.isSome_map]

theorem isSome_installedDrift {drainTimeout : Duration} (h : (exitTimeout drainTimeout).isSome)
    (plist : Option Text) : (installedDrift plist drainTimeout).isSome := by
  cases plist with
  | none => rfl
  | some plist =>
      rw [installedDrift, exitTimeoutDrift]
      split
      · rfl
      · rw [Option.isSome_map, h]

/-- The last sum of an install is the one that decides: every other is part of it. -/
theorem computes_iff {now : Instant} {drainTimeout : Duration} : Computes now drainTimeout ↔
    now.nanos + (drainTimeout.nanos + installOverhead * nanosPerSec) <
      instantBound * nanosPerSec := by
  constructor
  · intro h
    exact isSome_install.mp (h.2.1 [] [] [] [])
  · intro h
    have hexit : (exitTimeout drainTimeout).isSome := by
      have hless : exitOverhead * nanosPerSec ≤ installOverhead * nanosPerSec :=
        Nat.mul_le_mul_right nanosPerSec (by decide)
      exact isSome_exitTimeout.mpr ((Nat.add_le_add_left hless _).trans_lt (fits_of_instant h))
    exact ⟨hexit, fun _ _ _ _ ↦ isSome_install.mpr h, isSome_installedDrift hexit⟩

/-- Of an accepted configuration every sum can be computed exactly where the clock has room for the
drain timeout the file asks for and for what an install adds. -/
theorem accepted_computes {fromStr : Text → Except Text FileConfig} {contents : Text}
    {file : FileConfig} {config : DaemonConfig} (hfile : fromStr contents = .ok file)
    (haccepted : parse fromStr contents = .ok config) (now : Instant) :
    Computes now config.drainTimeout ↔
      now.nanos + (drainSeconds file + installOverhead) * nanosPerSec <
        instantBound * nanosPerSec := by
  rw [computes_iff, nanos_drainTimeout_of_parse hfile haccepted, ← Nat.add_mul]

/-- A configuration's text with a drain timeout. -/
def exampleContents (drainTimeout : Text) : Text :=
  "farm_url = \"http://farm.example:7077\"\ntoken = \"secret\"\nname = \"mbp-native\"\n".toList ++
    "drain_timeout = \"".toList ++ drainTimeout ++ "\"\n".toList

/-- The settings of that text. -/
def exampleFile (drainTimeout : Text) : FileConfig where
  farmUrl := some "http://farm.example:7077".toList
  token := some "secret".toList
  name := some "mbp-native".toList
  drainTimeout := some drainTimeout
  ralphexBin := none

/-- The TOML parser, on one text. -/
def exampleFromStr (drainTimeout contents : Text) : Except Text FileConfig :=
  if contents = exampleContents drainTimeout then .ok (exampleFile drainTimeout) else .error []

/-- The configuration of that text, for a drain timeout of some seconds. -/
def exampleConfig (seconds : ℕ) (h : seconds < secsBound) : DaemonConfig where
  farmUrl := "http://farm.example:7077".toList
  token := "secret".toList
  name := "mbp-native".toList
  drainTimeout := .fromSecs seconds h
  ralphexBin := defaultRalphexBin

theorem drainTimeout_exampleConfig (seconds : ℕ) (h : seconds < secsBound) :
    (exampleConfig seconds h).drainTimeout = .fromSecs seconds h := rfl

theorem exampleFromStr_eq (drainTimeout : Text) :
    exampleFromStr drainTimeout (exampleContents drainTimeout) = .ok (exampleFile drainTimeout) :=
  if_pos rfl

theorem parse_example {drainTimeout : Text} {seconds : ℕ} {h : seconds < secsBound}
    (hread : parseDuration drainTimeout = .ok (.fromSecs seconds h)) :
    parse (exampleFromStr drainTimeout) (exampleContents drainTimeout) =
      .ok (exampleConfig seconds h) := by
  have hurl : required (some "http://farm.example:7077".toList) "farm_url".toList =
      .ok "http://farm.example:7077".toList := by decide
  have htoken : required (some "secret".toList) "token".toList = .ok "secret".toList := by decide
  have hname : required (some "mbp-native".toList) "name".toList =
      .ok "mbp-native".toList := by decide
  rw [parse, exampleFromStr_eq]
  simp only [exampleFile, drainTimeoutOf, hurl, htoken, hname, hread]
  rfl

theorem parse_half_minute : parseDuration "30s".toList = .ok (fromSecs 30 (by decide)) := by
  decide +kernel

theorem parse_largest : parseDuration "18446744073709551615s".toList =
    .ok (fromSecs 18446744073709551615 (by decide +kernel)) := by
  decide +kernel

/-- An hour after the machine came up, half a minute of drain timeout is accepted and added up. -/
theorem accepted_computes_half_minute :
    Computes ⟨3600 * nanosPerSec, by decide⟩ (fromSecs 30 (by decide)) :=
  (accepted_computes (exampleFromStr_eq "30s".toList) (parse_example parse_half_minute) _).mpr
    (by decide +kernel)

/-- The largest number of seconds is accepted, and its exit timeout is no duration. -/
theorem accepted_overflows : ¬ ∀ (fromStr : Text → Except Text FileConfig) (contents : Text)
    (config : DaemonConfig) (now : Instant), parse fromStr contents = .ok config →
      Computes now config.drainTimeout := by
  intro h
  have hcomputes := h _ _ _ ⟨0, by decide⟩ (parse_example parse_largest)
  have hover : ¬ 0 + (18446744073709551615 * nanosPerSec + installOverhead * nanosPerSec) <
      instantBound * nanosPerSec := by decide +kernel
  rw [drainTimeout_exampleConfig, computes_iff, nanos_fromSecs] at hcomputes
  exact hover hcomputes

end Service

end RalphexRunner
