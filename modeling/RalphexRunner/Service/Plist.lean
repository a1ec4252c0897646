import RalphexRunner.Protocol.Types
import RalphexRunner.Text.Search

/-!
# The property list launchd loads the daemon from

The list is written as text with four values of the caller in it and read back by a search for the
key of the exit timeout.  The values are escaped, so that no `<` of theirs is left to be found.
-/

namespace RalphexRunner

namespace Service

open Duration

/-- The file launchd writes the daemon's standard output to. -/
def stdoutFile : List UInt8 := "daemon.out.log".toUTF8.toList

/-- The file launchd writes the daemon's standard error to. -/
def stderrFile : List UInt8 := "daemon.err.log".toUTF8.toList

/-- How long launchd must wait for the daemon after it sends the signal: every await the daemon
makes after it. -/
def exitTimeout (drainTimeout : Duration) : Option Duration :=
  validateTimeout.checkedSum
    [watchStartTimeout, drainTimeout, stopGrace, stopGrace, logCloseTimeout, prBudget,
      progressPostTimeout, progressPostTimeout, progressPostTimeout, completeBudget, retryMaxDelay,
      requestTimeout, outputRemoveTimeout]

/-- The seconds the exit timeout adds to the drain timeout. -/
def exitOverhead : ℕ := 1090

theorem exitTimeout_eq_some {drainTimeout exit : Duration} :
    exitTimeout drainTimeout = some exit ↔
      exit.nanos = drainTimeout.nanos + exitOverhead * nanosPerSec := by
  rw [exitTimeout, checkedSum_eq_some]
  -- the spans stay folded for the kernel, which would count their nanoseconds one by one
  simp -implicitDefEqProofs only [List.map_cons, List.map_nil, List.sum_cons, List.sum_nil,
    validateTimeout, watchStartTimeout, stopGrace, logCloseTimeout, prBudget, prStepTimeout,
    prSteps, progressPostTimeout, completeBudget, leaseTtl, retryMaxDelay, requestTimeout,
    outputRemoveTimeout, exitOverhead, nanos_fromSecs, asSecs_fromSecs]
  generalize nanosPerSec = unit
  omega

theorem isSome_exitTimeout {drainTimeout : Duration} : (exitTimeout drainTimeout).isSome ↔
    drainTimeout.nanos + exitOverhead * nanosPerSec < secsBound * nanosPerSec := by
  rw [Option.isSome_iff_exists]
  constructor
  · intro ⟨exit, hexit⟩
    exact exitTimeout_eq_some.mp hexit ▸ exit.representable
  · intro h
    exact ⟨⟨_, h⟩, exitTimeout_eq_some.mpr rfl⟩

theorem exitTimeout_fromSecs (seconds : ℕ) (h : seconds + exitOverhead < secsBound) :
    exitTimeout (fromSecs seconds ((Nat.le_add_right _ _).trans_lt h)) =
      some (fromSecs (seconds + exitOverhead) h) := by
  rw [exitTimeout_eq_some, nanos_fromSecs, nanos_fromSecs, Nat.add_mul]

def escapeChar : Char → Text
  | '&' => "&amp;".toList
  | '<' => "&lt;".toList
  | '>' => "&gt;".toList
  | character => [character]

def escape (value : Text) : Text := value.flatMap escapeChar

/-- A path with a relative one behind it. -/
def join (path name : List UInt8) : List UInt8 :=
  match path.getLast? with
  | none => name
  | some last => if last = 0x2F then path ++ name else path ++ 0x2F :: name

def plistLabel : Text :=
  ("<?xml version=\"1.0\" encoding=\"UTF-8\"?>\n" ++
    "<!DOCTYPE plist PUBLIC \"-//Apple//DTD PLIST 1.0//EN\" " ++
    "\"http://www.apple.com/DTDs/PropertyList-1.0.dtd\">\n" ++
    "<plist version=\"1.0\">\n<dict>\n\t<key>Label</key>\n\t<string>").toList

def plistProgram : Text :=
  ("</string>\n\t<key>ProgramArguments</key>\n\t<array>\n\t\t<string>").toList

def plistExitTimeout : Text :=
  ("</string>\n\t</array>\n\t<key>RunAtLoad</key>\n\t<true/>\n\t<key>KeepAlive</key>\n" ++
    "\t<true/>\n\t<key>ExitTimeOut</key>\n\t<integer>").toList

def plistStdout : Text :=
  ("</integer>\n\t<key>StandardOutPath</key>\n\t<string>").toList

def plistStderr : Text :=
  ("</string>\n\t<key>StandardErrorPath</key>\n\t<string>").toList

def plistPath : Text :=
  ("</string>\n\t<key>EnvironmentVariables</key>\n\t<dict>\n\t\t<key>PATH</key>\n" ++
    "\t\t<string>").toList

def plistEnd : Text := ("</string>\n\t</dict>\n</dict>\n</plist>\n").toList

/-- The property list launchd loads the daemon from. -/
def generatePlist (label : Text) (daemonPath : List UInt8) (pathEnv : Text) (logDir : List UInt8)
    (exitTimeout : Duration) : Text :=
  let label := escape label
  let daemonPath := escape (Utf8.lossy daemonPath)
  let pathEnv := escape pathEnv
  let stdoutPath := escape (Utf8.lossy (join logDir stdoutFile))
  let stderrPath := escape (Utf8.lossy (join logDir stderrFile))
  let exitTimeout := numeral exitTimeout.asSecs
  plistLabel ++ (label ++ (plistProgram ++ (daemonPath ++ (plistExitTimeout ++ (exitTimeout ++
    (plistStdout ++ (stdoutPath ++ (plistStderr ++ (stderrPath ++ (plistPath ++ (pathEnv ++
    plistEnd)))))))))))

def installedExitTimeout (plist : Text) : Option Duration := do
  let (_, after) ← splitOnce "<key>ExitTimeOut</key>".toList plist
  let (_, after) ← splitOnce "<integer>".toList after
  let (seconds, _) ← splitOnce "</integer>".toList after
  let seconds ← parseU64 (trim seconds)
  some (.fromSecs seconds.val seconds.isLt)

/-- The warning a property list too impatient for a drain timeout earns, where the exit timeout the
daemon wants can be computed. -/
def exitTimeoutDrift (plist : Text) (drainTimeout : Duration) : Option (Option Text) :=
  match installedExitTimeout plist with
  | none => some none
  | some installed =>
      (exitTimeout drainTimeout).map fun wanted ↦
        if wanted ≤ installed then none
        else some ("the installed agent gives the shutdown ".toList ++ numeral installed.asSecs ++
          " s, which is less than the ".toList ++ numeral wanted.asSecs ++
          " s this configuration now needs; run rxd install".toList)

theorem lt_notMem_escapeChar (character : Char) : '<' ∉ escapeChar character := by
  unfold escapeChar
  split
  · decide
  · decide
  · decide
  · rename_i hother _
    exact fun h ↦ hother (List.mem_singleton.mp h).symm

theorem lt_notMem_escape (value : Text) : '<' ∉ escape value := by
  intro h
  obtain ⟨character, -, hmem⟩ := List.mem_flatMap.mp h
  exact lt_notMem_escapeChar character hmem

theorem lt_notMem_toDigits (number : ℕ) : '<' ∉ Nat.toDigits 10 number := fun h ↦
  absurd (isDigit_of_mem_toDigits h) (by decide)

/-- The split of an assembled text at a pattern that begins with `<`. -/
theorem splitOnce_list {pattern first second third firstValue secondValue before after : Text}
    (hpattern : pattern.head? = some '<') (hfirst : avoids pattern first = true)
    (hfirstValue : '<' ∉ firstValue) (hsecond : avoids pattern second = true)
    (hsecondValue : '<' ∉ secondValue) (hthird : splitOnce pattern third = some (before, after))
    (more : Text) :
    splitOnce pattern (first ++ (firstValue ++ (second ++ (secondValue ++ (third ++ more))))) =
      some (first ++ (firstValue ++ (second ++ (secondValue ++ before))), after ++ more) := by
  rw [splitOnce_of_avoids hfirst, splitOnce_of_avoids (avoids_of_notMem hpattern hfirstValue),
    splitOnce_of_avoids hsecond, splitOnce_of_avoids (avoids_of_notMem hpattern hsecondValue),
    splitOnce_append hthird]
  rfl

theorem trim_toDigits (number : ℕ) : trim (Nat.toDigits 10 number) = Nat.toDigits 10 number := by
  apply trim_eq_self
  intro digit hdigit
  exact isWhitespace_of_isDigit (isDigit_of_mem_toDigits hdigit)

/-- What stands between the daemon's path and the key of the exit timeout. -/
def beforeKey : Text :=
  ("</string>\n\t</array>\n\t<key>RunAtLoad</key>\n\t<true/>\n\t<key>KeepAlive</key>\n" ++
    "\t<true/>\n\t").toList

/-! The texts are compared character by character; a literal is the list of its characters by
`String.toList_ofList`, which spares the kernel its encoding. -/

theorem avoids_plistLabel : avoids "<key>ExitTimeOut</key>".toList plistLabel = true := by
  have hkey : "<key>ExitTimeOut</key>".toList = _ := String.toList_ofList
  have htext : plistLabel = _ := toList_append_eq (toList_append_eq
    (toList_append_eq String.toList_ofList String.toList_ofList) String.toList_ofList)
    String.toList_ofList
  rw [hkey, htext]
  decide

theorem avoids_plistProgram : avoids "<key>ExitTimeOut</key>".toList plistProgram = true := by
  have hkey : "<key>ExitTimeOut</key>".toList = _ := String.toList_ofList
  have htext : plistProgram = _ := String.toList_ofList
  rw [hkey, htext]
  decide

theorem splitOnce_plistExitTimeout : splitOnce "<key>ExitTimeOut</key>".toList plistExitTimeout =
    some (beforeKey, "\n\t<integer>".toList) := by
  have hkey : "<key>ExitTimeOut</key>".toList = _ := String.toList_ofList
  have htext : plistExitTimeout = _ := toList_append_eq String.toList_ofList String.toList_ofList
  have hbefore : beforeKey = _ := toList_append_eq String.toList_ofList String.toList_ofList
  have hafter : "\n\t<integer>".toList = _ := String.toList_ofList
  rw [hkey, htext, hbefore, hafter]
  decide

theorem splitOnce_plistStdout : splitOnce "</integer>".toList plistStdout =
    some ([], "\n\t<key>StandardOutPath</key>\n\t<string>".toList) := by
  have hkey : "</integer>".toList = _ := String.toList_ofList
  have htext : plistStdout = _ := String.toList_ofList
  have hafter : "\n\t<key>StandardOutPath</key>\n\t<string>".toList = _ := String.toList_ofList
  rw [hkey, htext, hafter]
  decide

/-- What is read of a property list is the exit timeout it was written with, in whole seconds. -/
theorem installedExitTimeout_generatePlist (label : Text) (daemonPath : List UInt8)
    (pathEnv : Text) (logDir : List UInt8) (timeout : Duration) :
    installedExitTimeout (generatePlist label daemonPath pathEnv logDir timeout) =
      some (.fromSecs timeout.asSecs timeout.asSecs_lt) := by
  have hopening : splitOnce "<integer>".toList "\n\t<integer>".toList =
      some ("\n\t".toList, []) := by decide
  have hdigits : avoids "</integer>".toList (numeral timeout.asSecs) = true := by
    rw [numeral_eq]
    exact avoids_of_notMem rfl (lt_notMem_toDigits timeout.asSecs)
  have hseconds : parseU64 (trim (numeral timeout.asSecs)) =
      some ⟨timeout.asSecs, timeout.asSecs_lt⟩ := by
    rw [numeral_eq, trim_toDigits, parseU64_toDigits timeout.asSecs_lt]
  rw [installedExitTimeout, generatePlist, splitOnce_list rfl avoids_plistLabel
    (lt_notMem_escape label) avoids_plistProgram (lt_notMem_escape _) splitOnce_plistExitTimeout]
  simp only [Option.bind_eq_bind, Option.bind_some]
  rw [splitOnce_append hopening]
  simp only [Option.bind_some, List.nil_append]
  rw [splitOnce_of_avoids hdigits, splitOnce_append splitOnce_plistStdout]
  simp only [Option.map_some, Option.bind_some, List.append_nil]
  rw [hseconds]
  rfl

/-- An exit timeout of whole seconds is read back as it is. -/
theorem fromSecs_exitTimeout {drainTimeout exit : Duration} (hwhole : drainTimeout.IsWhole)
    (h : exitTimeout drainTimeout = some exit) : fromSecs exit.asSecs exit.asSecs_lt = exit := by
  have hnanos := exitTimeout_eq_some.mp h
  have hdivides : exit.IsWhole := by
    rw [IsWhole, hnanos]
    exact Nat.dvd_add hwhole (Nat.dvd_mul_left nanosPerSec exitOverhead)
  rw [Duration.ext_iff, nanos_fromSecs, hdivides.nanos_eq]

/-- The daemon finds the list too impatient exactly where the drain timeout has grown since. -/
theorem exitTimeoutDrift_generatePlist {installed drainTimeout exit wanted : Duration}
    (hwhole : installed.IsWhole) (hexit : exitTimeout installed = some exit)
    (hwanted : exitTimeout drainTimeout = some wanted) (label : Text) (daemonPath : List UInt8)
    (pathEnv : Text) (logDir : List UInt8) :
    exitTimeoutDrift (generatePlist label daemonPath pathEnv logDir exit) drainTimeout =
      some none ↔ drainTimeout ≤ installed := by
  have hsums : wanted ≤ exit ↔ drainTimeout ≤ installed := by
    rw [le_def, le_def, exitTimeout_eq_some.mp hexit, exitTimeout_eq_some.mp hwanted]
    exact Nat.add_le_add_iff_right
  rw [exitTimeoutDrift, installedExitTimeout_generatePlist, fromSecs_exitTimeout hwhole hexit,
    hwanted]
  simp only [Option.map_some, Option.some_inj]
  rw [← hsums]
  split
  · exact iff_of_true rfl ‹_›
  · exact iff_of_false (by nofun) ‹_›

/-- What a property list is read for is what it was written with, whatever the caller's values
are, and the daemon's warning compares the drain timeouts behind the two exit timeouts. -/
theorem plist_round_trip (label : Text) (daemonPath : List UInt8) (pathEnv : Text)
    (logDir : List UInt8) :
    (∀ timeout, installedExitTimeout (generatePlist label daemonPath pathEnv logDir timeout) =
      some (fromSecs timeout.asSecs timeout.asSecs_lt)) ∧
    ∀ installed drainTimeout exit wanted, installed.IsWhole → drainTimeout.IsWhole →
      exitTimeout installed = some exit → exitTimeout drainTimeout = some wanted →
      (exitTimeoutDrift (generatePlist label daemonPath pathEnv logDir exit) drainTimeout =
        some none ↔ drainTimeout ≤ installed) :=
  ⟨installedExitTimeout_generatePlist label daemonPath pathEnv logDir,
    fun _ _ _ _ hwhole _ hexit hwanted ↦
      exitTimeoutDrift_generatePlist hwhole hexit hwanted label daemonPath pathEnv logDir⟩

/-- A label that spells the key of the exit timeout, a list written for a drain timeout of two
minutes, and a daemon that now wants three. -/
theorem plist_round_trip_spelled :
    installedExitTimeout (generatePlist "<key>ExitTimeOut</key><integer>1</integer>".toList
      [0x2F, 0x3C] "a&b".toList [] (fromSecs 1210 (by decide))) =
        some (fromSecs 1210 (by decide)) ∧
    exitTimeoutDrift (generatePlist "<key>ExitTimeOut</key><integer>1</integer>".toList
      [0x2F, 0x3C] "a&b".toList [] (fromSecs 1210 (by decide))) (fromSecs 180 (by decide)) ≠
        some none := by
  have h := plist_round_trip "<key>ExitTimeOut</key><integer>1</integer>".toList
    [0x2F, 0x3C] "a&b".toList []
  have hdrift := h.2 (fromSecs 120 (by decide)) (fromSecs 180 (by decide)) _ _
    (isWhole_fromSecs _) (isWhole_fromSecs _) (exitTimeout_fromSecs 120 (by decide))
    (exitTimeout_fromSecs 180 (by decide))
  refine ⟨(h.1 _).trans ?_, fun hnone ↦ ?_⟩
  · rw [Option.some_inj, Duration.ext_iff, nanos_fromSecs, asSecs_fromSecs]
    rfl
  · exact absurd (hdrift.mp hnone) (by decide)

end Service

end RalphexRunner
