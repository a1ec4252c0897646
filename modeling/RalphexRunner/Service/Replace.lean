import RalphexRunner.Ipc.Bind
import RalphexRunner.Ipc.Codec
import RalphexRunner.Service.Install
import RalphexRunner.Service.Paths
import RalphexRunner.Text.Trimming

/-!
# Replacing the daemon launchd runs

`rxd install` asks the daemon whether it holds a run, puts the binary and the property list in their
places, boots the old agent out, waits until launchd has let its label go and hands the new list
over.  Each of these can fail, and the client can be stopped between any two of them.

The world is the files, the agent launchd has registered, the clock, and where the running `rxd` is.
The daemon that is asked answers what it will; nobody else is taken to write to the files meanwhile.
-/

namespace RalphexRunner

namespace Installer

open Program Service

def probeTimeout : Duration := .fromSecs 5 (by decide)

/-- The pause between two looks at the old agent. -/
def bootoutPoll : Duration := ⟨500 * 1000 * 1000, by decide⟩

inductive ServiceError where
  | path (message : Text)
  | exe (message : Text)
  | daemonMissing (path : Text)
  | write (path message : Text)
  | launchctl (action message : Text)
  | busy (message : Text)
  | config (path message : Text)

/-- Whether a daemon that is busy is replaced. -/
inductive Force where
  | yes
  | no

/-- What the daemon answered when it was asked whether it holds a run. -/
inductive Daemon where
  | absent
  | idle
  | busy (runId : RunId)
  | unclear (message : Text)

/-- Whether the daemon may be booted out. -/
inductive Replace where
  | proceed
  | refuse (message : Text)

def replaceable (daemon : Daemon) : Force → Replace
  | .yes => .proceed
  | .no =>
      match daemon with
      | .absent => .proceed
      | .idle => .proceed
      | .busy runId => .refuse ("a run is in progress (run ".toList ++ runId.value ++
          "); wait for it or pass --force".toList)
      | .unclear message => .refuse ("the daemon answered ".toList ++ message ++
          ", so a run may be in progress; wait for it or pass --force".toList)

/-- How far an attach to the daemon came. -/
inductive Probe where
  | unconnected
  | unsent
  | unreceived
  | answered (reply : Ipc.Reply)
  | silent

def askDaemon : Probe → Daemon
  | .unconnected | .unsent | .unreceived => .absent
  | .answered .noRun => .idle
  | .answered (.response (.started runId _)) => .busy runId
  | .answered (.busy runId) => .busy runId
  | .answered (.response (.line _)) => .unclear "a line of a run's output".toList
  | .answered (.response (.ended _ _ _ _)) => .unclear "a run that had just ended".toList
  | .answered (.response (.error message)) => .unclear message
  | .silent => .unclear ("nothing within ".toList ++ numeral probeTimeout.asSecs ++ ['s'])

/-- What launchd is told. -/
inductive Order where
  | bootout
  | bootstrap

def Order.name : Order → Text
  | .bootout => "bootout".toList
  | .bootstrap => "bootstrap".toList

/-- What came of a `launchctl`. -/
inductive Launched where
  | unrun (message : Text)
  | exited (status : ExitStatus) (stderr : List UInt8)

/-- What an install asks of the world. -/
inductive Request where
  | probe (socket : FilePath)
  | currentExe
  | canonicalize (path : FilePath)
  | isFile (path : FilePath)
  | files (request : Files.Request)
  | loadConfig (path : FilePath)
  | launchctl (order : Order) (plistPath : FilePath)
  | listed (label : Text)
  | now
  | sleep (span : Duration)

abbrev Answer : Request → Type
  | .probe _ => Probe
  | .currentExe => Except Text FilePath
  | .canonicalize _ => Except Text FilePath
  | .isFile _ => Bool
  | .files _ => Except FileError Unit
  | .loadConfig _ => Except Text Duration
  | .launchctl _ _ => Launched
  | .listed _ => Option ExitStatus
  | .now => Instant
  | .sleep _ => Unit

/-- What an install left on disk. -/
structure Installed where
  daemonPath : FilePath
  plistPath : FilePath
  logDir : FilePath

/-- How an install ends: it returns, an addition of durations or to the clock overflows, or it is
still waiting when its fuel is used up. -/
inductive Outcome where
  | installed (installed : Installed)
  | failed (error : ServiceError)
  | overflowed
  | waiting

abbrev Installing := Program Request Answer

def orFail {α : Type} (program : Installing (Except ServiceError α))
    (next : α → Installing Outcome) : Installing Outcome :=
  program >>= fun
    | .error error => .done (.failed error)
    | .ok found => next found

def launchctl (order : Order) (plistPath : FilePath) : Installing (Except ServiceError Unit) :=
  .call (.launchctl order plistPath) fun
    | .unrun message => .done (.error (.launchctl order.name
        ("launchctl could not be run: ".toList ++ message)))
    | .exited status stderr =>
        if status.success then .done (.ok ())
        else
          let code := match status.code with
            | some code => numeral code
            | none => "a signal".toList
          .done (.error (.launchctl order.name ("exited with ".toList ++ code ++ ": ".toList ++
            trim (Utf8.lossy stderr))))

def createDir (path : FilePath) : Installing (Except ServiceError Unit) :=
  .call (.files (.createAll path 0o777)) fun
    | .ok () => .done (.ok ())
    | .error error => .done (.error (.write (Ipc.display path) error.message))

/-- The binary that sits next to the running one. -/
def daemonSource : Installing (Except ServiceError FilePath) :=
  .call .currentExe fun
    | .error error => .done (.error (.exe error))
    | .ok exe => .call (.canonicalize exe) fun
        | .error error => .done (.error (.exe
            (Ipc.display exe ++ " does not resolve: ".toList ++ error)))
        | .ok exe =>
            if exe = [] then
              .done (.error (.exe (Ipc.display exe ++ " has no directory".toList)))
            else
              let source := exe.dropLast ++ [appName]
              .call (.isFile source) fun isFile ↦
                if isFile then .done (.ok source)
                else .done (.error (.daemonMissing (Ipc.display source)))

/-- Copy the binary into place, once the old one is gone. -/
def placeDaemon (source daemonPath : FilePath) : Installing (Except ServiceError Unit) :=
  .call (.files (.removeFile daemonPath)) fun removed ↦
    let stuck := match removed with
      | .ok () => none
      | .error error => if error.notFound then none else some error.message
    match stuck with
    | some message => .done (.error (.write (Ipc.display daemonPath) message))
    | none => .call (.files (.copy source daemonPath)) fun
        | .ok () => .done (.ok ())
        | .error error => .done (.error (.write (Ipc.display daemonPath)
            (Ipc.display source ++ " could not be copied: ".toList ++ error.message)))

def configuredDrainTimeout (places : Places) : Installing (Except ServiceError Duration) :=
  match places.configPath with
  | .error error => .done (.error (.path error.message))
  | .ok path => .call (.loadConfig path) fun
      | .ok drainTimeout => .done (.ok drainTimeout)
      | .error message => .done (.error (.config (Ipc.display path) message))

/-- Wait until the label is let go; none where the fuel is used up first. -/
def unregistered (label budget : Text) (deadline : Instant) :
    ℕ → Installing (Option (Except ServiceError Unit))
  | 0 => .done none
  | fuel + 1 =>
      .call (.listed label) fun status ↦
        if !(status.map ExitStatus.success).getD false then .done (some (.ok ()))
        else .call .now fun now ↦
          if deadline ≤ now then
            .done (some (.error (.launchctl "bootout".toList
              (label ++ " was still registered after ".toList ++ budget))))
          else .call (.sleep bootoutPoll) fun _ ↦ unregistered label budget deadline fuel

/-- Boot the old agent out, and hand the new list over once its label is let go. -/
def replace (label : Text) (debug : Duration → Text) (exitTimeout : Duration)
    (installed : Installed) (fuel : ℕ) : Installing Outcome :=
  launchctl .bootout installed.plistPath >>= fun _ ↦
    match exitTimeout.checkedAdd bootoutMargin with
    | none => .done .overflowed
    | some budget => .call .now fun now ↦
        match now.checkedAdd budget with
        | none => .done .overflowed
        | some deadline => unregistered label (debug budget) deadline fuel >>= fun
            | none => .done .waiting
            | some (.error error) => .done (.failed error)
            | some (.ok ()) => orFail (launchctl .bootstrap installed.plistPath) fun _ ↦
                .done (.installed installed)

/-- Put the binary and the list in their places, and replace the agent. -/
def place (places : Places) (pathEnv : Text) (debug : Duration → Text) (installed : Installed)
    (source : FilePath) (fuel : ℕ) : Installing Outcome :=
  orFail (createDir installed.daemonPath.dropLast) fun _ ↦
  orFail (createDir installed.plistPath.dropLast) fun _ ↦
  orFail (createDir installed.logDir) fun _ ↦
  orFail (placeDaemon source installed.daemonPath) fun _ ↦
  orFail (configuredDrainTimeout places) fun drainTimeout ↦
    match exitTimeout drainTimeout with
    | none => .done .overflowed
    | some exitTimeout =>
        let plist := generatePlist places.launchdLabel (Utf8.encode (Ipc.display
          installed.daemonPath)) pathEnv (Utf8.encode (Ipc.display installed.logDir)) exitTimeout
        .call (.files (.write installed.plistPath (Utf8.encode plist))) fun
          | .error error =>
              .done (.failed (.write (Ipc.display installed.plistPath) error.message))
          | .ok () => replace places.launchdLabel debug exitTimeout installed fuel

def located (places : Places) : Except ServiceError Installed :=
  match places.daemonBinaryPath, places.launchAgentPath, places.logDir with
  | .ok daemonPath, .ok plistPath, .ok logDir => .ok ⟨daemonPath, plistPath, logDir⟩
  | .error error, _, _ => .error (.path error.message)
  | _, .error error, _ => .error (.path error.message)
  | _, _, .error error => .error (.path error.message)

def install (places : Places) (pathEnv : Text) (debug : Duration → Text) (force : Force)
    (fuel : ℕ) : Installing Outcome :=
  match places.socketPath with
  | .error error => .done (.failed (.path error.message))
  | .ok socket => .call (.probe socket) fun probe ↦
      match replaceable (askDaemon probe) force with
      | .refuse message => .done (.failed (.busy message))
      | .proceed => orFail daemonSource fun source ↦
          match located places with
          | .error error => .done (.failed error)
          | .ok installed => place places pathEnv debug installed source fuel

/-! ## The world -/

/-- What stays as it is meanwhile: where the running `rxd` was started from and what that resolves
to, and what the configuration says. -/
structure Setting where
  exe : FilePath
  canonical : FilePath → FilePath
  config : Except Text Duration

/-- The binary next to the running one. -/
def Setting.daemonSource (setting : Setting) : FilePath :=
  (setting.canonical setting.exe).dropLast ++ [appName]

/-- The files, the list the registered agent was loaded from, whether the old agent was booted out
and the clock. -/
structure System where
  setting : Setting
  files : Files
  agent : Option (List UInt8)
  booted : Bool
  clock : Instant

/-- Nothing but the clock has moved. -/
def Still (before after : System) : Prop :=
  after.files = before.files ∧ after.agent = before.agent ∧ after.booted = before.booted

/-- An agent that was booted out leaves when it will. -/
def Leaves (before after : System) : Prop :=
  after.files = before.files ∧ after.booted = before.booted ∧
    (after.agent = before.agent ∨ before.booted = true ∧ after.agent = none)

def Launched.Succeeded : Launched → Prop
  | .unrun _ => False
  | .exited status _ => status.success = true

/-- What a request does beside taking its time. -/
def Does (before : System) : (request : Request) → Answer request → System → Prop
  | .probe _, _, after => Still before after
  | .currentExe, answer, after => Still before after ∧
      ∀ exe, answer = .ok exe → exe = before.setting.exe
  | .canonicalize path, answer, after => Still before after ∧
      ∀ exe, answer = .ok exe → exe = before.setting.canonical path
  | .isFile path, answer, after => Still before after ∧
      (answer = true → ∃ mode content, before.files.entry path = some (.file mode content))
  | .files request, answer, after => Files.effect before.files request answer after.files ∧
      after.agent = before.agent ∧ after.booted = before.booted
  | .loadConfig _, answer, after => Still before after ∧ answer = before.setting.config
  | .launchctl .bootout _, _, after => after.files = before.files ∧ after.booted = true ∧
      (after.agent = before.agent ∨ after.agent = none)
  | .launchctl .bootstrap path, answer, after =>
      (answer.Succeeded ∧ after.files = before.files ∧ after.booted = before.booted ∧
        before.agent = none ∧ ∃ mode content,
          before.files.entry path = some (.file mode content) ∧ after.agent = some content) ∨
      (¬ answer.Succeeded ∧ Leaves before after)
  | .listed _, _, after => Leaves before after
  | .now, answer, after => Leaves before after ∧ answer = after.clock
  | .sleep span, _, after => Leaves before after ∧
      before.clock.nanos + span.nanos ≤ after.clock.nanos

def effect : Effect Request Answer System := fun before request answer after ↦
  after.setting = before.setting ∧ before.clock ≤ after.clock ∧ Does before request answer after

/-- The list an install writes for the configuration it finds. -/
def Written (places : Places) (pathEnv : Text) (initial : System) (plist : List UInt8) : Prop :=
  ∃ installed drainTimeout exit, located places = .ok installed ∧
    initial.setting.config = .ok drainTimeout ∧ exitTimeout drainTimeout = some exit ∧
    plist = Utf8.encode (generatePlist places.launchdLabel
      (Utf8.encode (Ipc.display installed.daemonPath)) pathEnv
      (Utf8.encode (Ipc.display installed.logDir)) exit)

/-- The binary is a copy of the one that was next to the running `rxd`. -/
def Copied (installed : Installed) (initial : System) (files : Files) : Prop :=
  ∃ mode content,
    initial.files.entry initial.setting.daemonSource = some (.file mode content) ∧
    files.entry installed.daemonPath = some (.file mode content)

/-- The binary and the list are in their places. -/
def Placed (places : Places) (pathEnv : Text) (initial : System) (files : Files) : Prop :=
  ∃ installed plist mode, located places = .ok installed ∧ Copied installed initial files ∧
    Written places pathEnv initial plist ∧
    files.entry installed.plistPath = some (.file mode plist)

/-- Nothing that was there is changed but the binary and the list. -/
def Spared (places : Places) (initial : System) (files : Files) : Prop :=
  ∀ path, initial.files.entry path ≠ none → places.daemonBinaryPath ≠ .ok path →
    places.launchAgentPath ≠ .ok path → files.entry path = initial.files.entry path

/-- The old agent is registered until it is booted out, which it is only once the new binary and the
new list are in their places; then it is registered, or nothing is, or the new list is. -/
structure Safe (places : Places) (pathEnv : Text) (initial after : System) : Prop where
  setting : after.setting = initial.setting
  spared : Spared places initial after.files
  agent : after.agent = initial.agent ∨ after.booted = true ∧
    (after.agent = none ∨ ∃ plist, Written places pathEnv initial plist ∧
      after.agent = some plist)
  placed : after.booted = true → Placed places pathEnv initial after.files

/-- How an install may end. -/
def Ends (places : Places) (pathEnv : Text) (initial : System) (fuel : ℕ) (after : System) :
    Outcome → Prop
  | .installed installed => located places = .ok installed ∧
      ∃ plist, Written places pathEnv initial plist ∧ after.agent = some plist
  | .failed _ => True
  | .overflowed => ∃ drainTimeout, initial.setting.config = .ok drainTimeout ∧
      ¬ Computes after.clock drainTimeout
  | .waiting => ∃ drainTimeout budget, initial.setting.config = .ok drainTimeout ∧
      (exitTimeout drainTimeout).bind (·.checkedAdd bootoutMargin) = some budget ∧
      fuel * bootoutPoll.nanos < budget.nanos + bootoutPoll.nanos

/-! ## Every step keeps it -/

variable {places : Places} {pathEnv : Text} {initial before after : System}
  {installed : Installed}

/-- The old agent has not been booted out. -/
structure Early (places : Places) (initial after : System) : Prop where
  setting : after.setting = initial.setting
  spared : Spared places initial after.files
  agent : after.agent = initial.agent
  booted : after.booted = false

theorem Early.safe (h : Early places initial after) : Safe places pathEnv initial after := by
  refine ⟨h.setting, h.spared, .inl h.agent, fun hbooted ↦ ?_⟩
  rw [h.booted] at hbooted
  cases hbooted

theorem Early.still (h : Early places initial before)
    (hsetting : after.setting = before.setting) (hstill : Still before after) :
    Early places initial after :=
  ⟨hsetting.trans h.setting, hstill.1 ▸ h.spared, hstill.2.1.trans h.agent,
    hstill.2.2.trans h.booted⟩

/-- A request of the files that spares what was there. -/
theorem Early.files {request : Files.Request} {answer : Answer (.files request)}
    (h : Early places initial before) (heffect : effect before (.files request) answer after)
    (hspared : Spared places initial after.files) : Early places initial after := by
  obtain ⟨hsetting, -, -, hagent, hbooted⟩ := heffect
  exact ⟨hsetting.trans h.setting, hspared, hagent.trans h.agent, hbooted.trans h.booted⟩

variable {debug : Duration → Text} {force : Force} {fuel : ℕ}

/-- The rule of a part that can fail. -/
theorem orFail_keeps {α : Type} {program : Installing (Except ServiceError α)}
    {next : α → Installing Outcome} {goes : System → α → Prop}
    (h : Keeps effect (Safe places pathEnv initial)
      (fun world result ↦ ∀ found, result = .ok found → goes world found) before program)
    (hnext : ∀ world found, goes world found → Keeps effect (Safe places pathEnv initial)
      (Ends places pathEnv initial fuel) world (next found)) :
    Keeps effect (Safe places pathEnv initial) (Ends places pathEnv initial fuel) before
      (orFail program next) := by
  apply Keeps.bind
  apply h.imp
  intro world result hsafe hresult
  cases result with
  | error error => exact ⟨hsafe, trivial⟩
  | ok found => exact hnext world found (hresult found rfl)

/-- Nothing that was there is changed. -/
def Intact (initial : System) (files : Files) : Prop :=
  ∀ path, initial.files.entry path ≠ none → files.entry path = initial.files.entry path

theorem createDir_keeps {path : FilePath} (h : Early places initial before)
    (hintact : Intact initial before.files) :
    Keeps effect (Safe places pathEnv initial)
      (fun world result ↦ ∀ found, result = .ok found →
        Early places initial world ∧ Intact initial world.files) before (createDir path) := by
  refine ⟨h.safe, fun answer after heffect ↦ ?_⟩
  have hafter : Intact initial after.files := by
    intro other hexists
    have hsame := hintact other hexists
    rw [Files.entry_of_createAll heffect.2.2.1 (hsame ▸ hexists), hsame]
  have hearly := h.files heffect fun other hexists _ _ ↦ hafter other hexists
  cases answer with
  | ok done => exact ⟨hearly.safe, fun _ _ ↦ ⟨hearly, hafter⟩⟩
  | error error => exact ⟨hearly.safe, fun _ _ ↦ ⟨hearly, hafter⟩⟩

/-- The binary next to the running one is there before anything is changed. -/
theorem daemonSource_keeps (h : Early places initial before)
    (hfiles : before.files = initial.files) :
    Keeps effect (Safe places pathEnv initial)
      (fun world result ↦ ∀ source, result = .ok source → Early places initial world ∧
        world.files = initial.files ∧ source = initial.setting.daemonSource ∧
        ∃ mode content, initial.files.entry source = some (.file mode content)) before
      daemonSource := by
  refine ⟨h.safe, fun answer started hexe ↦ ?_⟩
  have hstarted := h.still hexe.1 hexe.2.2.1
  cases answer with
  | error error => exact ⟨hstarted.safe, nofun⟩
  | ok exe =>
      refine ⟨hstarted.safe, fun answer resolved hresolve ↦ ?_⟩
      have hresolved := hstarted.still hresolve.1 hresolve.2.2.1
      cases answer with
      | error error => exact ⟨hresolved.safe, nofun⟩
      | ok found =>
          dsimp only
          split
          · exact ⟨hresolved.safe, nofun⟩
          · refine ⟨hresolved.safe, fun isFile looked hlook ↦ ?_⟩
            have hlooked := hresolved.still hlook.1 hlook.2.2.1
            cases isFile with
            | false => exact ⟨hlooked.safe, nofun⟩
            | true =>
                refine ⟨hlooked.safe, fun source hsource ↦ ?_⟩
                cases hsource
                have hsame : resolved.files = initial.files := by
                  rw [hresolve.2.2.1.1, hexe.2.2.1.1, hfiles]
                refine ⟨hlooked, hlook.2.2.1.1.trans hsame, ?_, hsame ▸ hlook.2.2.2 rfl⟩
                rw [hresolve.2.2.2 found rfl, hstarted.setting, hexe.2.2.2 exe rfl, h.setting]
                rfl

theorem located_eq (h : located places = .ok installed) :
    places.daemonBinaryPath = .ok installed.daemonPath ∧
      places.launchAgentPath = .ok installed.plistPath ∧
      places.logDir = .ok installed.logDir := by
  unfold located at h
  split at h <;> cases h
  exact ⟨‹_›, ‹_›, ‹_›⟩

/-- A request that names the binary or the list alone spares what was there. -/
theorem Spared.of_names {files : Files} {request : Files.Request}
    {answer : Files.Answer request} (h : Spared places initial before.files)
    (heffect : Files.effect before.files request answer files)
    (hnames : ∀ other, Files.Names request other →
      places.daemonBinaryPath = .ok other ∨ places.launchAgentPath = .ok other) :
    Spared places initial files := by
  intro other hexists hdaemon hplist
  rw [Files.entry_of_apart heffect fun hnamed ↦ ?_]
  · exact h other hexists hdaemon hplist
  · rcases hnames other hnamed with hother | hother
    · exact hdaemon hother
    · exact hplist hother

/-- The binary is copied into place, with what it held before anything was changed. -/
theorem placeDaemon_keeps (h : Early places initial before)
    (hintact : Intact initial before.files) (hlocated : located places = .ok installed)
    (hexists : initial.files.entry initial.setting.daemonSource ≠ none) :
    Keeps effect (Safe places pathEnv initial)
      (fun world result ↦ ∀ found, result = .ok found → Early places initial world ∧
        Copied installed initial world.files) before
      (placeDaemon initial.setting.daemonSource installed.daemonPath) := by
  obtain ⟨hdaemon, hplist, -⟩ := located_eq hlocated
  refine ⟨h.safe, fun answer removed hremove ↦ ?_⟩
  have hremoved : Early places initial removed := by
    refine h.files hremove (h.spared.of_names hremove.2.2.1 fun other hother ↦ .inl ?_)
    rw [hdaemon, show other = installed.daemonPath from hother]
  dsimp only
  split
  · exact ⟨hremoved.safe, nofun⟩
  · refine ⟨hremoved.safe, fun answer copied hcopy ↦ ?_⟩
    have hcopied : Early places initial copied := by
      refine hremoved.files hcopy
        (hremoved.spared.of_names hcopy.2.2.1 fun other hother ↦ .inl ?_)
      rw [hdaemon, show other = installed.daemonPath from hother]
    cases answer with
    | error error => exact ⟨hcopied.safe, nofun⟩
    | ok done =>
        refine ⟨hcopied.safe, fun _ _ ↦ ⟨hcopied, ?_⟩⟩
        obtain ⟨mode, content, hentry, hset⟩ := hcopy.2.2.1
        refine ⟨mode, content, ?_, by rw [hset, Files.entry_set]⟩
        rw [← hintact _ hexists, ← Files.entry_of_removeFile hremove.2.2.1 ?_, hentry]
        rw [hentry]
        exact Option.some_ne_none _

/-- Looking for the configuration changes nothing. -/
theorem configuredDrainTimeout_keeps (h : Early places initial before)
    (hcopied : Copied installed initial before.files) :
    Keeps effect (Safe places pathEnv initial)
      (fun world result ↦ ∀ drainTimeout, result = .ok drainTimeout →
        (Early places initial world ∧ Copied installed initial world.files) ∧
          initial.setting.config = .ok drainTimeout) before
      (configuredDrainTimeout places) := by
  unfold configuredDrainTimeout
  split
  · exact ⟨h.safe, nofun⟩
  · refine ⟨h.safe, fun answer loaded hload ↦ ?_⟩
    have hloaded := h.still hload.1 hload.2.2.1
    cases answer with
    | error message => exact ⟨hloaded.safe, nofun⟩
    | ok drainTimeout =>
        refine ⟨hloaded.safe, fun found hfound ↦ ?_⟩
        cases hfound
        rw [hload.2.2.1.1]
        rw [← h.setting, ← hload.2.2.2]
        exact ⟨⟨hloaded, hcopied⟩, rfl⟩

/-- The old agent has been booted out, and everything is in its place. -/
structure Late (places : Places) (pathEnv : Text) (initial : System) (after : System) : Prop where
  setting : after.setting = initial.setting
  spared : Spared places initial after.files
  agent : after.agent = initial.agent ∨ after.agent = none
  booted : after.booted = true
  placed : Placed places pathEnv initial after.files

theorem Late.safe (h : Late places pathEnv initial after) : Safe places pathEnv initial after := by
  refine ⟨h.setting, h.spared, ?_, fun _ ↦ h.placed⟩
  rcases h.agent with hagent | hagent
  · exact .inl hagent
  · exact .inr ⟨h.booted, .inl hagent⟩

theorem Late.leaves (h : Late places pathEnv initial before)
    (hsetting : after.setting = before.setting) (hleaves : Leaves before after) :
    Late places pathEnv initial after := by
  obtain ⟨hfiles, hbooted, hagent⟩ := hleaves
  refine ⟨hsetting.trans h.setting, hfiles ▸ h.spared, ?_, hbooted.trans h.booted,
    hfiles ▸ h.placed⟩
  rcases hagent with hagent | ⟨-, hagent⟩
  · exact hagent ▸ h.agent
  · exact .inr hagent

/-- The wait for the old agent takes no more looks than the time given has room for. -/
theorem unregistered_keeps {label shown : Text} {started deadline : Instant} {budget : Duration}
    {spent : ℕ} (h : Late places pathEnv initial before)
    (hdeadline : deadline.nanos = started.nanos + budget.nanos)
    (hclock : started.nanos + spent * bootoutPoll.nanos ≤ before.clock.nanos)
    (hspent : spent * bootoutPoll.nanos < budget.nanos + bootoutPoll.nanos) :
    Keeps effect (Safe places pathEnv initial)
      (fun world result ↦ Late places pathEnv initial world ∧
        (result = none →
          (spent + fuel) * bootoutPoll.nanos < budget.nanos + bootoutPoll.nanos)) before
      (unregistered label shown deadline fuel) := by
  induction fuel generalizing spent before with
  | zero => exact ⟨h.safe, h, fun _ ↦ hspent⟩
  | succ fuel ih =>
      refine ⟨h.safe, fun status looked hlook ↦ ?_⟩
      have hlooked := h.leaves hlook.1 hlook.2.2
      dsimp only
      split
      · exact ⟨hlooked.safe, hlooked, nofun⟩
      · refine ⟨hlooked.safe, fun now told htell ↦ ?_⟩
        have htold := hlooked.leaves htell.1 htell.2.2.1
        have hnow : now = told.clock := htell.2.2.2
        dsimp only
        split
        · exact ⟨htold.safe, htold, nofun⟩
        · rename_i hearly
          refine ⟨htold.safe, fun _ slept hsleep ↦ ?_⟩
          have hslept := htold.leaves hsleep.1 hsleep.2.2.1
          have hlater : told.clock.nanos + bootoutPoll.nanos ≤ slept.clock.nanos := hsleep.2.2.2
          have hforward : before.clock.nanos ≤ told.clock.nanos := Nat.le_trans hlook.2.1 htell.2.1
          have hmore : (spent + 1) * bootoutPoll.nanos =
            spent * bootoutPoll.nanos + bootoutPoll.nanos := Nat.succ_mul _ _
          have hbefore : told.clock.nanos < deadline.nanos := hnow ▸ Nat.lt_of_not_le hearly
          have hclock' : started.nanos + (spent + 1) * bootoutPoll.nanos ≤ slept.clock.nanos := by
            omega
          have hspent' : (spent + 1) * bootoutPoll.nanos < budget.nanos + bootoutPoll.nanos := by
            omega
          have hkeeps := ih hslept hclock' hspent'
          rwa [Nat.add_right_comm, Nat.add_assoc] at hkeeps

/-- Booting the old agent out, whatever `launchctl` says of it. -/
theorem bootout_keeps {plistPath : FilePath} (h : Early places initial before)
    (hplaced : Placed places pathEnv initial before.files) :
    Keeps effect (Safe places pathEnv initial)
      (fun world _ ↦ Late places pathEnv initial world) before (launchctl .bootout plistPath) := by
  refine ⟨h.safe, fun answer after heffect ↦ ?_⟩
  obtain ⟨hsetting, -, hfiles, hbooted, hagent⟩ := heffect
  have hlate : Late places pathEnv initial after :=
    ⟨hsetting.trans h.setting, hfiles ▸ h.spared, h.agent ▸ hagent, hbooted, hfiles ▸ hplaced⟩
  cases answer with
  | unrun message => exact ⟨hlate.safe, hlate⟩
  | exited status stderr =>
      dsimp only
      split
      · exact ⟨hlate.safe, hlate⟩
      · exact ⟨hlate.safe, hlate⟩

/-- What launchd takes over is the list that was written. -/
theorem bootstrapped {answer : Launched} (h : Late places pathEnv initial before)
    (hlocated : located places = .ok installed)
    (heffect : effect before (.launchctl .bootstrap installed.plistPath) answer after) :
    Safe places pathEnv initial after ∧ (answer.Succeeded →
      ∃ plist, Written places pathEnv initial plist ∧ after.agent = some plist) := by
  obtain ⟨hsetting, -, ⟨hsucceeded, hfiles, hbooted, hnone, mode, content, hentry, hagent⟩ |
    ⟨hfailed, hleaves⟩⟩ := heffect
  · obtain ⟨other, plist, otherMode, hother, hcopied, hwritten, hplist⟩ := h.placed
    rw [hlocated] at hother
    cases hother
    rw [hplist] at hentry
    cases hentry
    refine ⟨⟨hsetting.trans h.setting, hfiles ▸ h.spared, ?_, fun _ ↦ hfiles ▸ h.placed⟩,
      fun _ ↦ ⟨content, hwritten, hagent⟩⟩
    exact .inr ⟨hbooted.trans h.booted, .inr ⟨content, hwritten, hagent⟩⟩
  · exact ⟨(h.leaves hsetting hleaves).safe, fun hsucceeded ↦ absurd hsucceeded hfailed⟩

/-- A bootstrap hands launchd the list in its place, or nothing. -/
theorem bootstrap_keeps (h : Late places pathEnv initial before)
    (hlocated : located places = .ok installed) :
    Keeps effect (Safe places pathEnv initial)
      (fun world result ↦ ∀ found, result = .ok found →
        Safe places pathEnv initial world ∧
          ∃ plist, Written places pathEnv initial plist ∧ world.agent = some plist) before
      (launchctl .bootstrap installed.plistPath) := by
  refine ⟨h.safe, fun answer after heffect ↦ ?_⟩
  obtain ⟨hsafe, htaken⟩ := bootstrapped h hlocated heffect
  cases answer with
  | unrun message => exact ⟨hsafe, nofun⟩
  | exited status stderr =>
      dsimp only
      split
      · exact ⟨hsafe, fun _ _ ↦ ⟨hsafe, htaken ‹_›⟩⟩
      · exact ⟨hsafe, nofun⟩

/-- Replacing the agent is safe wherever it ends. -/
theorem replace_keeps {label : Text} {drainTimeout exit : Duration}
    (h : Early places initial before) (hplaced : Placed places pathEnv initial before.files)
    (hlocated : located places = .ok installed)
    (hconfig : initial.setting.config = .ok drainTimeout)
    (hexit : exitTimeout drainTimeout = some exit) :
    Keeps effect (Safe places pathEnv initial) (Ends places pathEnv initial fuel) before
      (replace label debug exit installed fuel) := by
  apply Keeps.bind
  refine (bootout_keeps h hplaced).imp fun world _ _ hlate ↦ ?_
  cases hbudget : exit.checkedAdd bootoutMargin with
  | none =>
      refine ⟨hlate.safe, drainTimeout, hconfig, fun hcomputes ↦ ?_⟩
      have hfound := isSome_budget.mpr (fits_of_instant (computes_iff.mp hcomputes))
      rw [hexit, Option.bind_some, hbudget] at hfound
      cases hfound
  | some budget =>
      refine ⟨hlate.safe, fun now told htell ↦ ?_⟩
      have htold := hlate.leaves htell.1 htell.2.2.1
      obtain rfl : now = told.clock := htell.2.2.2
      dsimp only
      cases hdeadline : told.clock.checkedAdd budget with
      | none =>
          refine ⟨htold.safe, drainTimeout, hconfig, fun hcomputes ↦ ?_⟩
          rw [computes_iff, ← nanos_budget hexit hbudget, ← Instant.isSome_checkedAdd,
            hdeadline] at hcomputes
          cases hcomputes
      | some deadline =>
          have hlater := Instant.checkedAdd_eq_some.mp hdeadline
          have hclock : told.clock.nanos + 0 * bootoutPoll.nanos ≤ told.clock.nanos := by
            rw [Nat.zero_mul]
            exact Nat.le_refl _
          have hnone : 0 * bootoutPoll.nanos < budget.nanos + bootoutPoll.nanos := by
            rw [Nat.zero_mul]
            exact Nat.add_pos_right _ (by decide)
          apply Keeps.bind
          refine (unregistered_keeps htold hlater hclock hnone).imp fun world result _ hends ↦ ?_
          obtain ⟨hwaited, hbound⟩ := hends
          cases result with
          | none =>
              have hfuel := hbound rfl
              rw [Nat.zero_add] at hfuel
              exact ⟨hwaited.safe, drainTimeout, budget, hconfig,
                by rw [hexit, Option.bind_some, hbudget], hfuel⟩
          | some result =>
              cases result with
              | error error => exact ⟨hwaited.safe, trivial⟩
              | ok released =>
                  exact orFail_keeps (bootstrap_keeps hwaited hlocated) fun world _ htaken ↦
                    ⟨htaken.1, hlocated, htaken.2⟩

/-- Everything is put in its place before the old agent is booted out. -/
theorem place_keeps (h : Early places initial before)
    (hfiles : before.files = initial.files) (hlocated : located places = .ok installed)
    (hexists : initial.files.entry initial.setting.daemonSource ≠ none) :
    Keeps effect (Safe places pathEnv initial) (Ends places pathEnv initial fuel) before
      (place places pathEnv debug installed initial.setting.daemonSource fuel) := by
  have hintact : Intact initial before.files := fun path _ ↦ by rw [hfiles]
  refine orFail_keeps (createDir_keeps h hintact) fun _ _ h ↦ ?_
  refine orFail_keeps (createDir_keeps h.1 h.2) fun _ _ h ↦ ?_
  refine orFail_keeps (createDir_keeps h.1 h.2) fun _ _ h ↦ ?_
  refine orFail_keeps (placeDaemon_keeps h.1 h.2 hlocated hexists) fun _ _ hplaced ↦ ?_
  refine orFail_keeps (configuredDrainTimeout_keeps hplaced.1 hplaced.2)
    fun world drainTimeout hloaded ↦ ?_
  obtain ⟨⟨hearly, hcopied⟩, hconfig⟩ := hloaded
  cases hexit : exitTimeout drainTimeout with
  | none =>
      refine ⟨hearly.safe, drainTimeout, hconfig, fun hcomputes ↦ ?_⟩
      have hfound := hcomputes.1
      rw [hexit] at hfound
      cases hfound
  | some exit =>
      obtain ⟨hdaemon, hplist, -⟩ := located_eq hlocated
      refine ⟨hearly.safe, fun answer written hwrite ↦ ?_⟩
      have hspared : Spared places initial written.files := by
        refine hearly.spared.of_names hwrite.2.2.1 fun other hother ↦ .inr ?_
        rw [hplist, show other = installed.plistPath from hother]
      have hwritten := hearly.files hwrite hspared
      cases answer with
      | error error => exact ⟨hwritten.safe, trivial⟩
      | ok done =>
          obtain ⟨mode, hset⟩ := hwrite.2.2.1
          have hne := Places.daemonBinaryPath_ne_launchAgentPath hdaemon hplist
          refine replace_keeps hwritten ?_ hlocated hconfig hexit
          refine ⟨installed, _, mode, hlocated, ?_, ⟨installed, drainTimeout, exit, hlocated,
            hconfig, hexit, rfl⟩, by rw [hset, Files.entry_set]⟩
          obtain ⟨binaryMode, content, hsource, hentry⟩ := hcopied
          refine ⟨binaryMode, content, hsource, ?_⟩
          rw [hset, Files.entry_set_of_ne hne]
          exact hentry

theorem early_self (h : initial.booted = false) : Early places initial initial :=
  ⟨rfl, fun _ _ _ _ ↦ rfl, rfl, h⟩

/-- Installing is safe wherever it ends. -/
theorem install_keeps (h : initial.booted = false) :
    Keeps effect (Safe places pathEnv initial) (Ends places pathEnv initial fuel) initial
      (install places pathEnv debug force fuel) := by
  have hself : Early places initial initial := early_self h
  unfold install
  split
  · exact ⟨hself.safe, trivial⟩
  · refine ⟨hself.safe, fun probe probed hprobe ↦ ?_⟩
    have hprobed := hself.still hprobe.1 hprobe.2.2
    dsimp only
    split
    · exact ⟨hprobed.safe, trivial⟩
    · refine orFail_keeps (daemonSource_keeps hprobed hprobe.2.2.1) fun world source hfound ↦ ?_
      obtain ⟨hearly, hfiles, rfl, mode, content, hsource⟩ := hfound
      split
      · exact ⟨hearly.safe, trivial⟩
      · refine place_keeps hearly hfiles ‹_› ?_
        rw [hsource]
        exact Option.some_ne_none _

/-- **An install never leaves launchd with anything but the old agent, none or the new one.**
Wherever it is stopped and whatever fails, the old agent is registered until it is booted out, which
it is only once the new binary, a copy of the one next to `rxd`, and the new list are in their
places.  An install that succeeds leaves the list of the configuration it found with launchd.  One
that is refused, because the daemon holds a run or does not say, leaves everything as it was.  The
wait for the old agent ends, a sum overflows only where the clock has no room for it, and no file of
another profile is ever touched. -/
theorem install_safe {history : List (Exchange Request Answer)} {rest : Installing Outcome}
    (h : Runs effect initial (install places pathEnv debug force fuel) history after rest)
    (hfresh : initial.booted = false) :
    Safe places pathEnv initial after ∧
    (∀ outcome, rest = .done outcome → Ends places pathEnv initial fuel after outcome) ∧
    (∀ socket probe tail message, history = ⟨.probe socket, probe⟩ :: tail →
      replaceable (askDaemon probe) force = .refuse message →
        Still initial after ∧ rest = .done (.failed (.busy message))) ∧
    ∀ profile path, profile ≠ places.profile → { places with profile }.Owns path →
      initial.files.entry path ≠ none →
        after.files.entry path = initial.files.entry path := by
  have hkeeps := (install_keeps hfresh).runs h
  refine ⟨hkeeps.now, ?_, ?_, fun profile path hprofile howns hexists ↦ ?_⟩
  · rintro outcome rfl
    exact hkeeps.2
  · rintro socket probe tail message rfl hrefused
    unfold install at h
    split at h
    · cases h.of_done.1
    · rcases h.of_call with ⟨hnone, -, -⟩ | ⟨answer, middle, more, hsplit, hprobe, htail⟩
      · cases hnone
      · cases hsplit
        rw [hrefused] at htail
        obtain ⟨-, rfl, rfl⟩ := htail.of_done
        exact ⟨hprobe.2.2, rfl⟩
  · refine hkeeps.now.spared path hexists ?_ ?_
    · exact fun hdaemon ↦ Places.not_owns_other hprofile (.inl hdaemon) howns
    · exact fun hplist ↦ Places.not_owns_other hprofile (.inr hplist) howns

theorem effect_files {files : Files} {request : Files.Request} {answer : Answer (.files request)}
    (h : Files.effect before.files request answer files) :
    effect before (.files request) answer { before with files } :=
  ⟨rfl, Nat.le_refl _, h, rfl, rfl⟩

/-- Where the label is let go at once, the list at its path is handed over. -/
theorem replaces {label : Text} {drainTimeout exit : Duration} {mode : FileMode}
    {plist : List UInt8} (hcomputes : Computes before.clock drainTimeout)
    (hexit : exitTimeout drainTimeout = some exit)
    (hplist : before.files.entry installed.plistPath = some (.file mode plist)) :
    ∃ history, Runs effect before (replace label debug exit installed (fuel + 1)) history
      { before with agent := some plist, booted := true } (.done (.installed installed)) := by
  have hfits := computes_iff.mp hcomputes
  obtain ⟨budget, hbudget⟩ :=
    Option.isSome_iff_exists.mp (isSome_budget.mpr (fits_of_instant hfits))
  rw [hexit, Option.bind_some] at hbudget
  rw [← nanos_budget hexit hbudget, ← Instant.isSome_checkedAdd] at hfits
  obtain ⟨deadline, hdeadline⟩ := Option.isSome_iff_exists.mp hfits
  have hbootout : effect before (.launchctl .bootout installed.plistPath) (.exited ⟨some 0⟩ [])
      { before with agent := none, booted := true } :=
    ⟨rfl, Nat.le_refl _, rfl, rfl, .inr rfl⟩
  have hstill {world : System} : Leaves world world := ⟨rfl, rfl, .inl rfl⟩
  have hnow : effect { before with agent := none, booted := true } .now before.clock
      { before with agent := none, booted := true } := ⟨rfl, Nat.le_refl _, hstill, rfl⟩
  have hlisted : effect { before with agent := none, booted := true } (.listed label) none
      { before with agent := none, booted := true } := ⟨rfl, Nat.le_refl _, hstill⟩
  have hbootstrap : effect { before with agent := none, booted := true }
      (.launchctl .bootstrap installed.plistPath) (.exited ⟨some 0⟩ [])
      { before with agent := some plist, booted := true } :=
    ⟨rfl, Nat.le_refl _, .inl ⟨rfl, rfl, rfl, rfl, mode, plist, hplist, rfl⟩⟩
  simp only [replace, hbudget]
  apply Exists.intro
  apply Runs.called hbootout
  apply Runs.called hnow
  simp only [hdeadline]
  exact .called hlisted (.called hbootstrap .start)

/-- The locations of an installed build. -/
def home : Places := ⟨.release, some ["data".toList], some ["home".toList]⟩

def installedHome : Installed where
  daemonPath := ["data".toList, appName, "bin".toList, appName]
  plistPath := ["home".toList, "Library".toList, "LaunchAgents".toList,
    "dev.pkarpovich.ralphex-macos-runner.plist".toList]
  logDir := ["home".toList, "Library".toList, "Logs".toList, appName]

theorem hour_representable : 3600 * nanosPerSec < instantBound * nanosPerSec := by decide

/-- The drain timeout of that build. -/
def homeDrain : Duration := ⟨120 * 1000000000, by decide⟩

/-- A directory with `rxd` and a daemon, an older daemon's agent, and two minutes to drain. -/
def unpacked : System where
  setting := ⟨["opt".toList, "rxd".toList], id, .ok homeDrain⟩
  files := ⟨fun path ↦
    if path = ["opt".toList, appName] then some (.file 0o755 [1, 2, 3]) else none, 0o022⟩
  agent := some [60]
  booted := false
  clock := ⟨3600 * nanosPerSec, hour_representable⟩

/-- Those files with the directories of an install. -/
def withHome : Files :=
  ((unpacked.files.withDirectories installedHome.daemonPath.dropLast 0o777).withDirectories
    installedHome.plistPath.dropLast 0o777).withDirectories installedHome.logDir 0o777

/-- And with the binary. -/
def withBinary : Files := withHome.set installedHome.daemonPath (some (.file 0o755 [1, 2, 3]))

/-- And with a list in the place of the agent's. -/
def withList (plist : List UInt8) : System :=
  { unpacked with files := withBinary.set installedHome.plistPath (some (.file 0o644 plist)) }

theorem unpacked_source :
    unpacked.files.entry ["opt".toList, appName] = some (.file 0o755 [1, 2, 3]) := rfl

/-- Nothing is in the way of a directory that is not below the daemon. -/
theorem unpacked_clear {path : FilePath} (hapart : ¬ ["opt".toList, appName] <+: path)
    (other : FilePath) (hother : other <+: path) : unpacked.files.entry other = none ∨
      ∃ made, unpacked.files.entry other = some (.directory made) := by
  left
  apply if_neg
  rintro rfl
  exact hapart hother

/-- The requests for the three directories, one after the other. -/
theorem unpacked_directories : ∃ bin agents,
    Files.effect unpacked.files (.createAll installedHome.daemonPath.dropLast 0o777) (.ok ()) bin ∧
    Files.effect bin (.createAll installedHome.plistPath.dropLast 0o777) (.ok ()) agents ∧
    Files.effect agents (.createAll installedHome.logDir 0o777) (.ok ()) withHome := by
  have hbin {path : FilePath} (hapart : ¬ ["opt".toList, appName] <+: path) (other : FilePath)
      (hother : other <+: path) := @Files.directory_withDirectories unpacked.files
    installedHome.daemonPath.dropLast other 0o777 (unpacked_clear hapart other hother)
  have hagents {path : FilePath} (hapart : ¬ ["opt".toList, appName] <+: path) (other : FilePath)
      (hother : other <+: path) := @Files.directory_withDirectories _
    installedHome.plistPath.dropLast other 0o777 (hbin hapart other hother)
  refine ⟨_, _, Files.effect_withDirectories ?_, Files.effect_withDirectories ?_,
    Files.effect_withDirectories ?_⟩
  · exact unpacked_clear (by decide)
  · exact hbin (by decide)
  · exact hagents (by decide)

/-- The old binary is not there, and the new one is copied. -/
theorem withHome_copied :
    Files.effect withHome (.removeFile installedHome.daemonPath) (.error ⟨true, []⟩) withHome ∧
    Files.effect withHome (.copy ["opt".toList, appName] installedHome.daemonPath) (.ok ())
      withBinary := by
  refine ⟨rfl, 0o755, [1, 2, 3], ?_, rfl⟩
  apply Files.entry_withDirectories
  apply Files.entry_withDirectories
  apply Files.entry_withDirectories
  exact unpacked_source

/-- What is asked up to the first directory. -/
theorem unpacked_asked :
    effect unpacked (.probe ["data".toList, appName, "daemon.sock".toList]) (.answered .noRun)
      unpacked ∧
    effect unpacked .currentExe (.ok unpacked.setting.exe) unpacked ∧
    effect unpacked (.canonicalize unpacked.setting.exe) (.ok unpacked.setting.exe) unpacked ∧
    effect unpacked (.isFile ["opt".toList, appName]) true unpacked := by
  have hstill : Still unpacked unpacked := ⟨rfl, rfl, rfl⟩
  have hsame (exe : FilePath) (h : (.ok unpacked.setting.exe : Except Text FilePath) = .ok exe) :
      exe = unpacked.setting.exe := (Except.ok.inj h).symm
  refine ⟨⟨rfl, Nat.le_refl _, hstill⟩, ⟨rfl, Nat.le_refl _, hstill, hsame⟩,
    ⟨rfl, Nat.le_refl _, hstill, hsame⟩, rfl, Nat.le_refl _, hstill, fun _ ↦ ?_⟩
  exact ⟨0o755, [1, 2, 3], unpacked_source⟩

/-- A first install over an older daemon's agent, from its probe to its bootstrap. -/
theorem unpacked_runs : ∃ history plist,
    Runs effect unpacked (install home [] (fun _ ↦ []) .no 1) history
      { withList plist with agent := some plist, booted := true }
      (.done (.installed installedHome)) := by
  obtain ⟨hprobe, hexe, hcanonical, hfile⟩ := unpacked_asked
  obtain ⟨bin, agents, hbin, hagents, hlogs⟩ := unpacked_directories
  obtain ⟨hremove, hcopy⟩ := withHome_copied
  obtain ⟨exit, hexit⟩ := Option.isSome_iff_exists.mp
    (@isSome_exitTimeout homeDrain |>.mpr (by decide))
  have hload : effect { unpacked with files := withBinary }
      (.loadConfig ["data".toList, appName, "config.toml".toList]) (.ok homeDrain)
      { unpacked with files := withBinary } :=
    ⟨rfl, Nat.le_refl _, ⟨rfl, rfl, rfl⟩, rfl⟩
  have hwrite (plist : List UInt8) : Files.effect withBinary (.write installedHome.plistPath plist)
      (.ok ()) (withList plist).files := ⟨0o644, rfl⟩
  have hcomputes : Computes unpacked.clock homeDrain := computes_iff.mpr (by decide)
  obtain ⟨later, hreplace⟩ := @replaces
    (withList (Utf8.encode (generatePlist home.launchdLabel
      (Utf8.encode (Ipc.display installedHome.daemonPath)) []
      (Utf8.encode (Ipc.display installedHome.logDir)) exit)))
    installedHome (fun _ ↦ []) 0 home.launchdLabel _ exit 0o644 _
    hcomputes hexit Files.entry_set
  apply Exists.intro
  apply Exists.intro
  apply Runs.called hprobe
  apply Runs.called hexe
  apply Runs.called hcanonical
  apply Runs.called hfile
  apply Runs.called (effect_files hbin)
  apply Runs.called (effect_files hagents)
  apply Runs.called (effect_files hlogs)
  apply Runs.called (effect_files hremove)
  apply Runs.called (effect_files hcopy)
  apply Runs.called hload
  simp only [Program.bind, hexit]
  apply Runs.called (effect_files (hwrite _))
  exact hreplace

theorem install_safe_unpacked : ∃ history after,
    Runs effect unpacked (install home [] (fun _ ↦ []) .no 1) history after
      (.done (.installed installedHome)) ∧
    Placed home [] unpacked after.files ∧
    ∃ plist, Written home [] unpacked plist ∧ after.agent = some plist := by
  obtain ⟨history, plist, hruns⟩ := unpacked_runs
  have hsafe := install_safe hruns rfl
  exact ⟨history, _, hruns, hsafe.1.placed rfl, (hsafe.2.1 _ rfl).2⟩

end Installer

end RalphexRunner
