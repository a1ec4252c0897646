import RalphexRunner.Agent.Openings
import RalphexRunner.Client.Session

/-!
# The daemon's end of the socket

`serve` accepts connections until a shutdown is raised, and `handle` has one command of each: it
hands a run to the agent, or attaches to the run in progress, and answers.  A connection that does
not name what it wants in time is dropped, an accept that fails is tried again after a pause, and
the log hears of failing accepts once in a while.

The clients, the accept loop, the tasks of the connections, the clock and the agent with everything
in it take their steps in any order.  What a connection is sent behind its first reply is the
follower's.
-/

namespace RalphexRunner

namespace Ipc

/-- The time a fresh connection has to name what it wants. -/
def firstCommandTimeout : Duration := ⟨10 * 1000000000, by decide⟩

def acceptPause : Duration := ⟨100 * 1000000, by decide⟩

/-- The shortest interval between two complaints about a failing accept. -/
def acceptComplaint : Duration := ⟨60 * 1000000000, by decide⟩

/-- What a client is answered that asked for a run. -/
def startReply : LocalStart → Reply
  | .started current => .response (.started current.runId current.dashboardUrl)
  | .busy runId => .busy runId
  | .refused message => .response (.error message)

/-- What a client is answered that asked for the run in progress. -/
def attachReply : Option RunHandle → Reply
  | some current => .response (.started current.runId current.dashboardUrl)
  | none => .noRun

def answerOf (trace : List Agent.Event) (index : ℕ) : Option LocalStart :=
  trace.findSome? fun
    | .answered other start => if other = index then some start else none
    | _ => none

/-- Where the task of a connection stands, up to its first reply. -/
inductive Handling where
  | naming (deadline : ℕ)
  | starting
  | replying (reply : Reply)
  | finished

/-- What had arrived of a connection when its task was done waiting for a command, and when that
was. -/
structure Heard where
  bytes : List UInt8
  hangup : Option Ending
  time : ℕ

/-- A connection: when it was accepted, the bytes that have arrived, how it ended if it did, the
command it named and the first reply it was sent.  It is noted what its task had heard. -/
structure Connection where
  since : ℕ
  bytes : List UInt8
  hangup : Option Ending
  handling : Handling
  heard : Option Heard
  command : Option Command
  sent : Option Reply

/-- What happens to a connection, or what its task does. -/
inductive Move where
  | arrives (bytes : List UInt8)
  | hangsUp (ending : Ending)
  | reads
  | expires
  | hears
  | sends (whole : Bool)

namespace Connection

def accepted (now : ℕ) : Connection where
  since := now
  bytes := []
  hangup := none
  handling := .naming (now + firstCommandTimeout.nanos)
  heard := none
  command := none
  sent := none

def firstCommand (connection : Connection) : Option (Except IpcError Command × List UInt8) :=
  receiveArrived (fromSlice Command.codec fun _ ↦ []) connection.bytes connection.hangup

/-- The task waits for no command any more. -/
def settle (connection : Connection) (now : ℕ) (handling : Handling)
    (command : Option Command) : Connection :=
  { connection with
    handling, command
    heard := some ⟨connection.bytes, connection.hangup, now⟩ }

/-- Where a command leads. -/
def handles (agent : Agent) : Command → Handling
  | .run _ _ => .starting
  | .attach => .replying (attachReply agent.current)

def asks (index : ℕ) : Command → Agent.Action
  | .run request _ => .request index (.arrives request)
  | .attach => .attaches

/-- A step of a connection, and what it asks of the agent. -/
def move (agent : Agent) (now index : ℕ) (connection : Connection) :
    Move → Option (Connection × Option Agent.Action)
  | .arrives bytes =>
      match connection.hangup with
      | none => some ({ connection with bytes := connection.bytes ++ bytes }, none)
      | some _ => none
  | .hangsUp ending =>
      match connection.hangup with
      | none => some ({ connection with hangup := some ending }, none)
      | some _ => none
  | .reads =>
      match connection.handling, connection.firstCommand with
      | .naming _, some (.ok command, _) =>
          some (connection.settle now (handles agent command) (some command),
            some (asks index command))
      | .naming _, some (.error _, _) => some (connection.settle now .finished none, none)
      | _, _ => none
  | .expires =>
      match connection.handling, connection.firstCommand with
      | .naming deadline, none =>
          if deadline ≤ now then some (connection.settle now .finished none, none) else none
      | _, _ => none
  | .hears =>
      match connection.handling with
      | .starting => (answerOf agent.trace index).map fun start ↦
          ({ connection with handling := .replying (startReply start) }, none)
      | _ => none
  | .sends whole =>
      match connection.handling with
      | .replying reply => some ({ connection with
          handling := .finished
          sent := if whole then some reply else none }, none)
      | _ => none

end Connection

/-! ## The server -/

/-- Where the accept loop stands. -/
inductive Accepting where
  | binding
  | ready
  | pausing (expiry : ℕ)
  | closed
  deriving DecidableEq

/-- The daemon: its agent, the clock, the accept loop, the connections in the order they were
accepted in, and whether its socket is at its path.  It is noted when an accept failed and when the
log heard of it, the latest first. -/
structure Server where
  agent : Agent
  now : ℕ
  accepting : Accepting
  complained : Option ℕ
  connections : List Connection
  bound : Bool
  failures : List ℕ
  complaints : List ℕ
  exit : Option ℕ

def exitStatus : AgentExit → ℕ
  | .shutdown => 0
  | .versionMismatch _ => 2

namespace Server

inductive Action where
  | binds (bound : Bool)
  | accepts
  | fails
  | resumes
  | closes
  | elapses (span : ℕ)
  | agent (action : Agent.Action)
  | serves (index : ℕ) (move : Move)
  | exits

/-- What the agent does that no connection asks of it. -/
def OfAgent : Agent.Action → Bool
  | .attaches => false
  | .request _ (.arrives _) => false
  | _ => true

def due (complained : Option ℕ) (now : ℕ) : Bool :=
  match complained with
  | none => true
  | some last => acceptComplaint.nanos ≤ now - last

/-- The log hears of a failing accept, if that is due. -/
def complain (server : Server) : Server :=
  if due server.complained server.now then
    { server with
      complained := some server.now
      complaints := server.now :: server.complaints }
  else server

def fail (server : Server) : Server :=
  { server.complain with
    accepting := .pausing (server.now + acceptPause.nanos)
    failures := server.now :: server.failures }

/-- A step of a connection. -/
def serve (server : Server) (index : ℕ) (move : Move) : Option Server :=
  server.connections[index]?.bind fun connection ↦
    (connection.move server.agent server.now index move).bind fun moved ↦
      match moved.2 with
      | none => some { server with connections := server.connections.set index moved.1 }
      | some asked => (server.agent.step asked).map fun agent ↦
          { server with agent, connections := server.connections.set index moved.1 }

/-- A step of a daemon that has not exited. -/
def act (server : Server) : Action → Option Server
  | .binds bound =>
      match server.accepting with
      | .binding => some { server with accepting := if bound then .ready else .closed, bound }
      | _ => none
  | .accepts =>
      match server.accepting with
      | .ready =>
          some { server with connections := server.connections ++ [.accepted server.now] }
      | _ => none
  | .fails =>
      match server.accepting with
      | .ready => some server.fail
      | _ => none
  | .resumes =>
      match server.accepting with
      | .pausing expiry =>
          if expiry ≤ server.now then some { server with accepting := .ready } else none
      | _ => none
  | .closes =>
      match server.accepting with
      | .ready =>
          if server.agent.shutdown.raised then
            some { server with accepting := .closed, bound := false }
          else none
      | _ => none
  | .elapses span => some { server with now := server.now + span }
  | .agent action =>
      if OfAgent action then (server.agent.step action).map fun agent ↦ { server with agent }
      else none
  | .serves index move => server.serve index move
  | .exits =>
      match server.agent.loop with
      | .exited exit =>
          some { server with accepting := .closed, bound := false, exit := some (exitStatus exit) }
      | _ => none

def step (server : Server) (action : Action) : Option Server :=
  if server.exit.isSome then none else server.act action

/-- A daemon whose agent has just been made, and whose socket is still to be bound. -/
def machine : Machine Server Action where
  init server := ∃ config tools now,
    server = ⟨.new config tools, now, .binding, none, [], false, [], [], none⟩
  step := step

end Server

/-- The first frame of some bytes holds the command. -/
def Names (bytes : List UInt8) (command : Command) : Prop :=
  ∃ body rest, bytes = frame body ++ rest ∧ body.length ≤ maxMessageBytes ∧
    Command.codec.read body = some command

theorem Names.append {bytes : List UInt8} {command : Command} (h : Names bytes command)
    (more : List UInt8) : Names (bytes ++ more) command := by
  obtain ⟨body, rest, rfl, hcap, hread⟩ := h
  exact ⟨body, rest ++ more, by rw [List.append_assoc], hcap, hread⟩

/-- What the first frame of some bytes holds is received. -/
theorem Names.received {bytes : List UInt8} {command : Command} (h : Names bytes command)
    (ending : Option Ending) : ∃ rest,
      receiveArrived (fromSlice Command.codec fun _ ↦ []) bytes ending =
        some (.ok command, rest) := by
  obtain ⟨body, rest, rfl, hcap, hread⟩ := h
  have hholds : fromSlice Command.codec (fun _ ↦ []) body = .ok command := by
    rw [fromSlice, hread]
  exact ⟨rest, receiveArrived_holding hcap hholds rest⟩

/-- A first command that is received is named by what has arrived. -/
theorem names_of_firstCommand {connection : Connection} {command : Command} {rest : List UInt8}
    (h : connection.firstCommand = some (.ok command, rest)) : Names connection.bytes command := by
  unfold Connection.firstCommand receiveArrived at h
  split at h
  · have hreceived := congrArg Prod.fst (Option.some.inj h)
    obtain ⟨body, rest, hbytes, hcap, hslice⟩ := receive_ok hreceived
    rw [bytes_arrived] at hbytes
    refine ⟨body, rest, hbytes, hcap, ?_⟩
    unfold fromSlice at hslice
    split at hslice
    · rename_i message hread
      cases hslice
      exact hread
    · cases hslice
  · cases h

/-- What had arrived is an error: too long a message, one that is no command, or an end in
between. -/
def Heard.Unusable (heard : Heard) : Prop :=
  ∃ error rest, receiveArrived (fromSlice Command.codec fun _ ↦ []) heard.bytes heard.hangup =
    some (.error error, rest)

/-- A connection has its whole time to name a command.  It named one exactly if the first frame of
what had arrived when its task was done waiting holds it, and it was given up without one only
because that was unusable or the time was up. -/
def Heeded (connection : Connection) : Prop :=
  match connection.heard with
  | none => connection.command = none ∧
      connection.handling = .naming (connection.since + firstCommandTimeout.nanos)
  | some heard => heard.bytes <+: connection.bytes ∧
      (∀ deadline, connection.handling ≠ .naming deadline) ∧
      (∀ command, connection.command = some command ↔ Names heard.bytes command) ∧
      (connection.command = none →
        heard.Unusable ∨ connection.since + firstCommandTimeout.nanos ≤ heard.time)

variable {connection moved : Connection}

theorem Heeded.naming (h : Heeded connection) {deadline : ℕ}
    (hnaming : connection.handling = .naming deadline) :
    connection.command = none ∧ deadline = connection.since + firstCommandTimeout.nanos := by
  unfold Heeded at h
  split at h
  · rw [hnaming, Handling.naming.injEq] at h
    exact h
  · exact absurd hnaming (h.2.1 deadline)

/-- A step that leaves what was heard leaves the connection heeded. -/
theorem Heeded.stays (h : Heeded connection) (hsince : moved.since = connection.since)
    (hheard : moved.heard = connection.heard) (hcommand : moved.command = connection.command)
    (hbytes : connection.bytes <+: moved.bytes)
    (hnaming : ∀ deadline, moved.handling = .naming deadline ↔
      connection.handling = .naming deadline) : Heeded moved := by
  unfold Heeded at h ⊢
  rw [hheard]
  split at h
  · exact ⟨hcommand.trans h.1, hsince ▸ (hnaming _).mpr h.2⟩
  · refine ⟨h.1.trans hbytes, fun deadline hmoved ↦ ?_, ?_, ?_⟩
    · exact h.2.1 deadline ((hnaming deadline).mp hmoved)
    · rw [hcommand]
      exact h.2.2.1
    · rw [hcommand, hsince]
      exact h.2.2.2

/-- A connection that names something is heeded. -/
theorem heeded_named {command : Command} {rest : List UInt8} {now : ℕ} {handling : Handling}
    (hcommand : connection.firstCommand = some (.ok command, rest))
    (hhandling : ∀ deadline, handling ≠ .naming deadline) :
    Heeded (connection.settle now handling (some command)) := by
  refine ⟨List.prefix_refl _, hhandling, fun other ↦ ⟨?_, fun hnames ↦ ?_⟩, nofun⟩
  · rintro ⟨⟩
    exact names_of_firstCommand hcommand
  · obtain ⟨more, hreceived⟩ := hnames.received connection.hangup
    have hsame := congrArg Prod.fst (Option.some.inj (hcommand.symm.trans hreceived))
    exact congrArg some (Except.ok.inj hsame)

theorem not_names_of_firstCommand {command : Command}
    (h : ∀ rest, connection.firstCommand ≠ some (.ok command, rest)) :
    ¬ Names connection.bytes command := by
  intro hnames
  obtain ⟨rest, hreceived⟩ := hnames.received connection.hangup
  exact h rest hreceived

theorem heeded_refused {error : IpcError} {rest : List UInt8} {now : ℕ}
    (hrefused : connection.firstCommand = some (.error error, rest)) :
    Heeded (connection.settle now .finished none) := by
  refine ⟨List.prefix_refl _, nofun, fun command ↦ ⟨nofun, fun hnames ↦ ?_⟩,
    fun _ ↦ .inl ⟨error, rest, hrefused⟩⟩
  refine absurd hnames (not_names_of_firstCommand fun more ↦ ?_)
  rw [hrefused]
  nofun

theorem heeded_expired {now : ℕ} (hnone : connection.firstCommand = none)
    (hpast : connection.since + firstCommandTimeout.nanos ≤ now) :
    Heeded (connection.settle now .finished none) := by
  refine ⟨List.prefix_refl _, nofun, fun command ↦ ⟨nofun, fun hnames ↦ ?_⟩, fun _ ↦ .inr hpast⟩
  refine absurd hnames (not_names_of_firstCommand fun more ↦ ?_)
  rw [hnone]
  nofun

theorem answerOf_grown {trace later : List Agent.Event} {index : ℕ} {start : LocalStart}
    (h : answerOf trace index = some start) (hlater : trace <+: later) :
    answerOf later index = some start := by
  obtain ⟨events, rfl⟩ := hlater
  unfold answerOf at h ⊢
  rw [List.findSome?_append, h, Option.some_or]

/-- What a connection may be answered first. -/
inductive Answers (trace : List Agent.Event) (index : ℕ) : Option Command → Reply → Prop
  | started (request : RunRequest) (env : List (Text × Text)) (start : LocalStart) :
      answerOf trace index = some start →
        Answers trace index (some (.run request env)) (startReply start)
  | attached (current : Option RunHandle) : .attached current ∈ trace →
      Answers trace index (some .attach) (attachReply current)

theorem Answers.later {trace later : List Agent.Event} {index : ℕ} {command : Option Command}
    {reply : Reply} (h : Answers trace index command reply) (hlater : trace <+: later) :
    Answers later index command reply := by
  cases h with
  | started request env start hstart =>
      exact .started request env start (answerOf_grown hstart hlater)
  | attached current hcurrent => exact .attached current (hlater.subset hcurrent)

namespace Server

/-- Accepts fail with a pause between them, the log hears of it with an interval between, and no
failure comes that the log has not heard of shortly before. -/
structure Paced (server : Server) : Prop where
  failures : server.failures.Pairwise fun later earlier ↦ earlier + acceptPause.nanos ≤ later
  complaints : server.complaints.Pairwise fun later earlier ↦
    earlier + acceptComplaint.nanos ≤ later
  heard : ∀ time ∈ server.failures, ∃ complaint ∈ server.complaints, complaint ≤ time ∧
    time < complaint + acceptComplaint.nanos

/-- The last complaint is the one the accept loop remembers. -/
def Remembers (server : Server) : Prop :=
  match server.complained with
  | none => server.complaints = []
  | some last => last ∈ server.complaints ∧ last ≤ server.now ∧
      ∀ time ∈ server.complaints, time ≤ last

/-- Where the accept loop stands, and what has become of its failures and of its socket. -/
def Stands (server : Server) : Prop :=
  match server.accepting with
  | .ready => server.bound = true ∧
      ∀ time ∈ server.failures, time + acceptPause.nanos ≤ server.now
  | .pausing expiry => server.bound = true ∧
      ∀ time ∈ server.failures, time + acceptPause.nanos ≤ expiry
  | .binding => server.bound = false ∧ server.failures = []
  | .closed => server.bound = false

structure Timed (server : Server) : Prop where
  paced : Paced server
  remembers : server.Remembers
  stands : server.Stands

variable {server next : Server}

/-- What a step says nothing of is as it was. -/
theorem Timed.same (h : Timed server) (hfailures : next.failures = server.failures)
    (hcomplaints : next.complaints = server.complaints)
    (hcomplained : next.complained = server.complained) (hnow : server.now ≤ next.now)
    (hstands : next.Stands) : Timed next := by
  have hremembers := h.remembers
  refine ⟨⟨?_, ?_, ?_⟩, ?_, hstands⟩
  · rw [hfailures]
    exact h.paced.failures
  · rw [hcomplaints]
    exact h.paced.complaints
  · rw [hfailures, hcomplaints]
    exact h.paced.heard
  · unfold Remembers at hremembers ⊢
    rw [hcomplained, hcomplaints]
    cases hlast : server.complained with
    | none =>
        rw [hlast] at hremembers
        exact hremembers
    | some last =>
        rw [hlast] at hremembers
        exact ⟨hremembers.1, Nat.le_trans hremembers.2.1 hnow, hremembers.2.2⟩

/-- The agent does what it is asked for, if it is asked for anything. -/
def Does (agent after : Agent) : Option Agent.Action → Prop
  | none => after = agent
  | some action => agent.step action = some after

end Server

end Ipc

end RalphexRunner
