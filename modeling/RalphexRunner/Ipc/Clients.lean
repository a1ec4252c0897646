import RalphexRunner.Ipc.Serve

/-!
# The clients of the daemon

Each connection is kept as it should be by whatever step comes next: it named what the first frame
of what had arrived says, it is given up only if that says nothing or its time is up, the agent has
its request exactly if it named a run, and what it is sent is what the agent answered.
-/

namespace RalphexRunner

namespace Ipc

namespace Server

variable {server next : Server}

/-- Where the task of a connection stands, and what has become of its command. -/
def Handled (trace : List Agent.Event) (index : ℕ) (connection : Connection) : Prop :=
  match connection.handling with
  | .naming _ => connection.command = none ∧ connection.sent = none
  | .starting =>
      (∃ request env, connection.command = some (.run request env)) ∧ connection.sent = none
  | .replying reply => Answers trace index connection.command reply ∧ connection.sent = none
  | .finished => ∀ reply, connection.sent = some reply →
      Answers trace index connection.command reply

/-- A connection named what its first frame says, and the agent has it exactly if that is a run. -/
structure Kept (agent : Agent) (index : ℕ) (connection : Connection) : Prop where
  heeded : Heeded connection
  names : ∀ command, connection.command = some command → Names connection.bytes command
  handled : Handled agent.trace index connection
  absent : (∀ request env, connection.command ≠ some (.run request env)) →
    agent.requests index = .absent
  present : ∀ request env, connection.command = some (.run request env) →
    agent.requests index ≠ .absent ∧
      ∀ other, (agent.requests index).request? = some other → other = request

variable {agent after : Agent} {index : ℕ} {connection moved : Connection}

theorem Handled.later {trace events : List Agent.Event} (h : Handled trace index connection)
    (hlater : trace <+: events) : Handled events index connection := by
  unfold Handled at h ⊢
  cases hhandling : connection.handling with
  | naming deadline | starting =>
      rw [hhandling] at h
      exact h
  | replying reply =>
      rw [hhandling] at h
      exact ⟨h.1.later hlater, h.2⟩
  | finished =>
      rw [hhandling] at h
      exact fun reply hreply ↦ (h reply hreply).later hlater

/-- What the agent does, but for the arrival of its request, leaves a connection as it is kept. -/
theorem Kept.later (h : Kept agent index connection) (hpasses : Agent.Passes agent after)
    (habsent : agent.requests index = .absent → after.requests index = .absent) :
    Kept after index connection := by
  refine ⟨h.heeded, h.names, h.handled.later hpasses.trace,
    fun hnone ↦ habsent (h.absent hnone), ?_⟩
  intro request env hcommand
  obtain ⟨hpresent, hrequest⟩ := h.present request env hcommand
  refine ⟨hpasses.present index hpresent, fun other hother ↦ ?_⟩
  exact hrequest other (hpasses.request index other hpresent hother)

/-- A step of a connection that asks nothing of the agent and names nothing. -/
theorem Kept.stays (h : Kept agent index connection) (hcommand : moved.command = connection.command)
    (hnames : ∀ command, Names connection.bytes command → Names moved.bytes command)
    (hheeded : Heeded moved) (hhandled : Handled agent.trace index moved) :
    Kept agent index moved := by
  refine ⟨hheeded, ?_, hhandled, ?_, ?_⟩
  · rw [hcommand]
    exact fun command hnamed ↦ hnames command (h.names command hnamed)
  · rw [hcommand]
    exact h.absent
  · rw [hcommand]
    exact h.present

/-- A connection that reads its command keeps to it. -/
theorem kept_of_reads {command : Command} {rest : List UInt8} {deadline : ℕ}
    (h : Kept agent index connection) (hnaming : connection.handling = .naming deadline)
    (hcommand : connection.firstCommand = some (.ok command, rest))
    (hagent : agent.step (Connection.asks index command) = some after) (now : ℕ) :
    Kept after index
      (connection.settle now (Connection.handles agent command) (some command)) := by
  have hheeded : Heeded (connection.settle now (Connection.handles agent command)
      (some command)) := by
    apply heeded_named hcommand
    cases command <;> nofun
  have hhandled := h.handled
  rw [Handled, hnaming] at hhandled
  have habsent : agent.requests index = .absent := by
    apply h.absent
    rw [hhandled.1]
    exact nofun
  have hnames : ∀ other, some command = some other → Names connection.bytes other := by
    rintro other ⟨⟩
    exact names_of_firstCommand hcommand
  cases command with
  | run request env =>
      obtain ⟨turn, hturn, rfl⟩ := Option.map_eq_some_iff.mp hagent
      rw [habsent] at hturn
      cases hturn
      have hself := Agent.moveRequest_self agent index
        ⟨.nothing, [.arrived index], .arrived request⟩
      refine ⟨hheeded, hnames, ⟨⟨request, env, rfl⟩, hhandled.2⟩, fun hnone ↦ ?_, ?_⟩
      · exact absurd rfl (hnone request env)
      · rintro _ _ ⟨⟩
        rw [hself]
        refine ⟨nofun, ?_⟩
        rintro other ⟨⟩
        rfl
  | attach =>
      cases hagent
      refine ⟨hheeded, hnames, ⟨.attached agent.current ?_, hhandled.2⟩, fun _ ↦ habsent, nofun⟩
      exact List.mem_append_right _ List.mem_cons_self

/-- Everything a step of a connection can do, and what it asks of the agent. -/
inductive Moves (agent : Agent) (index : ℕ) (connection : Connection) :
    Connection → Option Agent.Action → Prop
  | arrived (bytes : List UInt8) :
      Moves agent index connection { connection with bytes := connection.bytes ++ bytes } none
  | hungUp (ending : Ending) :
      Moves agent index connection { connection with hangup := some ending } none
  | named (deadline now : ℕ) (command : Command) (rest : List UInt8) :
      connection.handling = .naming deadline →
        connection.firstCommand = some (.ok command, rest) →
          Moves agent index connection
            (connection.settle now (Connection.handles agent command) (some command))
            (some (Connection.asks index command))
  | refused (deadline now : ℕ) (error : IpcError) (rest : List UInt8) :
      connection.handling = .naming deadline →
        connection.firstCommand = some (.error error, rest) →
          Moves agent index connection (connection.settle now .finished none) none
  | expired (deadline now : ℕ) : connection.handling = .naming deadline →
      connection.firstCommand = none → deadline ≤ now →
        Moves agent index connection (connection.settle now .finished none) none
  | heard (start : LocalStart) : connection.handling = .starting →
      answerOf agent.trace index = some start →
        Moves agent index connection
          { connection with handling := .replying (startReply start) } none
  | replied (reply : Reply) (whole : Bool) : connection.handling = .replying reply →
      Moves agent index connection { connection with
        handling := .finished, sent := if whole then some reply else none } none

/-- A connection that is given up keeps what is known of it. -/
theorem kept_of_dropped {deadline : ℕ} (h : Kept agent index connection)
    (hnaming : connection.handling = .naming deadline) (now : ℕ)
    (hheeded : Heeded (connection.settle now .finished none)) :
    Kept agent index (connection.settle now .finished none) ∧
      (connection.command.isSome = true → none = connection.command) := by
  have hhandled := h.handled
  rw [Handled, hnaming] at hhandled
  refine ⟨h.stays hhandled.1.symm (fun _ ↦ id) hheeded ?_, fun _ ↦ hhandled.1.symm⟩
  change ∀ reply, connection.sent = some reply → _
  rw [hhandled.2]
  exact nofun

/-- A connection keeps to what it named, whatever it does. -/
theorem kept_of_moves {asked : Option Agent.Action} (h : Kept agent index connection)
    (hmove : Moves agent index connection moved asked)
    (hagent : Does agent after asked) :
    Kept after index moved ∧ (connection.command.isSome = true →
      moved.command = connection.command) := by
  have hhandled := h.handled
  unfold Handled at hhandled
  cases hmove with
  | arrived bytes =>
      subst hagent
      exact ⟨h.stays rfl (fun _ hnames ↦ hnames.append bytes)
        (h.heeded.stays rfl rfl rfl (List.prefix_append _ _) fun _ ↦ Iff.rfl) h.handled,
        fun _ ↦ rfl⟩
  | hungUp ending =>
      subst hagent
      exact ⟨h.stays rfl (fun _ ↦ id)
        (h.heeded.stays rfl rfl rfl (List.prefix_refl _) fun _ ↦ Iff.rfl) h.handled, fun _ ↦ rfl⟩
  | named deadline now command rest hnaming hcommand =>
      refine ⟨kept_of_reads h hnaming hcommand hagent now, fun hsome ↦ ?_⟩
      rw [hnaming] at hhandled
      rw [hhandled.1] at hsome
      cases hsome
  | refused deadline now error rest hnaming hrefused =>
      subst hagent
      exact kept_of_dropped h hnaming now (heeded_refused hrefused)
  | expired deadline now hnaming hnone hpast =>
      subst hagent
      rw [(h.heeded.naming hnaming).2] at hpast
      exact kept_of_dropped h hnaming now (heeded_expired hnone hpast)
  | heard start hstarting hstart =>
      obtain rfl : agent = after := hagent.symm
      rw [hstarting] at hhandled
      obtain ⟨⟨request, env, hrun⟩, hsent⟩ := hhandled
      have hheeded : Heeded { connection with handling := .replying (startReply start) } :=
        h.heeded.stays rfl rfl rfl (List.prefix_refl _) fun _ ↦ by simp [hstarting]
      refine ⟨h.stays rfl (fun _ ↦ id) hheeded ⟨?_, hsent⟩, fun _ ↦ rfl⟩
      rw [hrun]
      exact .started request env start hstart
  | replied reply whole hreplying =>
      subst hagent
      rw [hreplying] at hhandled
      have hheeded : Heeded { connection with
          handling := .finished, sent := if whole then some reply else none } :=
        h.heeded.stays rfl rfl rfl (List.prefix_refl _) fun _ ↦ by simp [hreplying]
      refine ⟨h.stays rfl (fun _ ↦ id) hheeded ?_, fun _ ↦ rfl⟩
      intro other hother
      dsimp only at hother ⊢
      cases whole with
      | true =>
          cases hother
          exact hhandled.1
      | false => cases hother

/-- A run the farm was asked to open, for a connection that named it. -/
def Asked (config : Config) (connections : List Connection) (opening : OpenRunRequest)
    (index : ℕ) : Prop :=
  ∃ connection request env title, connections[index]? = some connection ∧
    connection.command = some (.run request env) ∧
      opening = openRunRequest config request title

/-- Connections stay, and keep the command they named. -/
def Extends (connections later : List Connection) : Prop :=
  ∀ (index : ℕ) connection, connections[index]? = some connection →
    ∃ moved, later[index]? = some moved ∧ (connection.command.isSome = true →
      moved.command = connection.command)

theorem Extends.refl (connections : List Connection) : Extends connections connections :=
  fun _ connection hconnection ↦ ⟨connection, hconnection, fun _ ↦ rfl⟩

structure Served (server : Server) : Prop where
  beyond : ∀ index, server.connections.length ≤ index → server.agent.requests index = .absent
  kept : ∀ (index : ℕ) connection, server.connections[index]? = some connection →
    Kept server.agent index connection
  opened : ∃ indices : List ℕ, indices.Nodup ∧
    (∀ index ∈ indices, ¬ (server.agent.requests index).Unopened) ∧
      List.Forall₂ (Asked server.agent.config server.connections)
        (Agent.openings server.agent.trace) indices

theorem Asked.later {config : Config} {connections later : List Connection}
    {opening : OpenRunRequest} (h : Asked config connections opening index)
    (hlater : Extends connections later) : Asked config later opening index := by
  obtain ⟨connection, request, env, title, hconnection, hcommand, hopening⟩ := h
  obtain ⟨moved, hmoved, hsame⟩ := hlater index connection hconnection
  refine ⟨moved, request, env, title, hmoved, ?_, hopening⟩
  rw [hsame (by rw [hcommand]; rfl), hcommand]

/-- A request that is under way is that of a connection. -/
theorem Served.asker (h : Served server) {request : RunRequest}
    (hrequest : (server.agent.requests index).request? = some request) :
    ∃ connection env, server.connections[index]? = some connection ∧
      connection.command = some (.run request env) := by
  have hpresent : server.agent.requests index ≠ .absent := by
    intro habsent
    rw [habsent] at hrequest
    cases hrequest
  cases hconnection : server.connections[index]? with
  | none => exact absurd (h.beyond index (List.getElem?_eq_none_iff.mp hconnection)) hpresent
  | some connection =>
      have hkept := h.kept index connection hconnection
      by_cases hrun : ∃ other env, connection.command = some (.run other env)
      · obtain ⟨other, env, hcommand⟩ := hrun
        refine ⟨connection, env, rfl, ?_⟩
        rw [(hkept.present other env hcommand).2 request hrequest]
        exact hcommand
      · refine absurd (hkept.absent fun other env hcommand ↦ hrun ⟨other, env, hcommand⟩) hpresent

/-- Every run the farm was asked to open is still that of a connection of its own. -/
theorem Served.opened_later (h : Served server) {later : List Connection}
    (hpasses : Agent.Passes server.agent after) (hlater : Extends server.connections later) :
    ∃ indices : List ℕ, indices.Nodup ∧ (∀ index ∈ indices, ¬ (after.requests index).Unopened) ∧
      List.Forall₂ (Asked after.config later) (Agent.openings after.trace) indices := by
  obtain ⟨indices, hnodup, hopened, hasked⟩ := h.opened
  have hstill : List.Forall₂ (Asked after.config later) (Agent.openings server.agent.trace)
      indices := by
    rw [hpasses.config]
    exact hasked.imp fun _ _ hone ↦ hone.later hlater
  rcases hpasses.opened with ⟨htrace, hunopened⟩ | ⟨index, request, title, hpc, hrequests, htrace⟩
  · rw [htrace]
    exact ⟨indices, hnodup, fun index hindex hnow ↦ hopened index hindex (hunopened index hnow),
      hstill⟩
  · have hfresh : index ∉ indices := by
      intro hindex
      apply hopened index hindex
      rw [hpc]
      rfl
    have hrequest : (server.agent.requests index).request? = some request := by
      rw [hpc]
      rfl
    obtain ⟨connection, env, hconnection, hcommand⟩ := h.asker hrequest
    have hnew : Asked server.agent.config server.connections
        (openRunRequest server.agent.config request title) index :=
      ⟨connection, request, env, title, hconnection, hcommand, rfl⟩
    refine ⟨indices ++ [index], ?_, ?_, ?_⟩
    · rw [List.nodup_append]
      refine ⟨hnodup, List.nodup_singleton index, ?_⟩
      intro other hother last hlast
      rw [List.mem_singleton.mp hlast]
      rintro rfl
      exact hfresh hother
    · intro other hother
      rw [hrequests]
      by_cases hsame : other = index
      · rw [hsame, Function.update_self]
        exact id
      · rw [Function.update_of_ne hsame]
        apply hopened other
        exact (List.mem_append.mp hother).resolve_right fun hlast ↦
          hsame (List.mem_singleton.mp hlast)
    · rw [htrace]
      apply List.rel_append hstill
      rw [hpasses.config]
      exact .cons (hnew.later hlater) .nil

theorem extends_append (connections : List Connection) (connection : Connection) :
    Extends connections (connections ++ [connection]) := by
  intro index other hother
  refine ⟨other, ?_, fun _ ↦ rfl⟩
  obtain ⟨hlt, -⟩ := List.getElem?_eq_some_iff.mp hother
  rw [List.getElem?_append_left hlt, hother]

theorem extends_set {connections : List Connection}
    (hconnection : connections[index]? = some connection)
    (hsame : connection.command.isSome = true → moved.command = connection.command) :
    Extends connections (connections.set index moved) := by
  intro other before hbefore
  obtain ⟨hlt, -⟩ := List.getElem?_eq_some_iff.mp hconnection
  by_cases hindex : index = other
  · subst hindex
    rw [hconnection, Option.some.injEq] at hbefore
    subst hbefore
    exact ⟨moved, List.getElem?_set_self hlt, hsame⟩
  · exact ⟨before, by rw [List.getElem?_set_ne hindex, hbefore], fun _ ↦ rfl⟩

/-- The agent goes on by itself. -/
theorem Served.goesOn (h : Served server) {action : Agent.Action} (hown : OfAgent action = true)
    (hstep : server.agent.step action = some after) : Served { server with agent := after } := by
  have hpasses := Agent.passes_of_step hstep
  have habsent (index : ℕ) (hindex : server.agent.requests index = .absent) :
      after.requests index = .absent := by
    apply Agent.absent_of_step hstep _ hindex
    rintro request rfl
    cases hown
  exact ⟨fun index hindex ↦ habsent index (h.beyond index hindex),
    fun index connection hconnection ↦
      (h.kept index connection hconnection).later hpasses (habsent index),
    h.opened_later hpasses (.refl _)⟩

/-- A connection that is accepted is one nothing is known of. -/
theorem Served.accepts (h : Served server) (now : ℕ) :
    Served { server with connections := server.connections ++ [.accepted now] } := by
  refine ⟨?_, ?_, ?_⟩
  · intro index hindex
    rw [List.length_append, List.length_singleton] at hindex
    exact h.beyond index (by omega)
  · intro index connection hconnection
    by_cases hold : index < server.connections.length
    · rw [List.getElem?_append_left hold] at hconnection
      exact h.kept index connection hconnection
    · rw [List.getElem?_append_right (Nat.le_of_not_lt hold)] at hconnection
      have hnew : connection = .accepted now := by
        cases hzero : index - server.connections.length with
        | zero =>
            rw [hzero] at hconnection
            exact (Option.some.inj hconnection).symm
        | succ gap =>
            rw [hzero] at hconnection
            cases hconnection
      subst hnew
      exact ⟨⟨rfl, rfl⟩, nofun, ⟨rfl, rfl⟩, fun _ ↦ h.beyond index (Nat.le_of_not_lt hold), nofun⟩
  · obtain ⟨indices, hnodup, hopened, hasked⟩ := h.opened
    exact ⟨indices, hnodup, hopened,
      hasked.imp fun _ _ hone ↦ hone.later (extends_append _ _)⟩

/-- A step of a connection leaves the others served. -/
theorem Served.serves {asked : Option Agent.Action} (h : Served server)
    (hconnection : server.connections[index]? = some connection)
    (hmove : Moves server.agent index connection moved asked)
    (hagent : Does server.agent after asked) :
    Served { server with agent := after, connections := server.connections.set index moved } := by
  obtain ⟨hkept, hsame⟩ := kept_of_moves (h.kept index connection hconnection) hmove hagent
  have hother : Agent.Passes server.agent after ∧ ∀ other, other ≠ index →
      server.agent.requests other = .absent → after.requests other = .absent := by
    cases hmove with
    | named deadline now command rest =>
        refine ⟨Agent.passes_of_step hagent, fun other hne ↦ ?_⟩
        apply Agent.absent_of_step hagent
        intro request hrequest
        cases command with
        | run asked env =>
            cases hrequest
            exact hne rfl
        | attach => cases hrequest
    | _ =>
        obtain rfl : after = server.agent := hagent
        exact ⟨.same rfl ⟨[], (List.append_nil _).symm, rfl⟩ rfl, fun _ _ ↦ id⟩
  obtain ⟨hlt, -⟩ := List.getElem?_eq_some_iff.mp hconnection
  refine ⟨?_, ?_, h.opened_later hother.1 (extends_set hconnection hsame)⟩
  · intro other hbeyond
    rw [List.length_set] at hbeyond
    apply hother.2 other _ (h.beyond other hbeyond)
    rintro rfl
    exact absurd hlt (Nat.not_lt.mpr hbeyond)
  · intro other found hfound
    by_cases hindex : index = other
    · subst hindex
      rw [List.getElem?_set_self hlt, Option.some.injEq] at hfound
      subst hfound
      exact hkept
    · rw [List.getElem?_set_ne hindex] at hfound
      apply (h.kept other found hfound).later hother.1
      exact hother.2 other fun hsame ↦ hindex hsame.symm

/-- What the task of a connection does, as time passes. -/
def OfTask (index : ℕ) : Action → Prop
  | .elapses _ => True
  | .serves other move =>
      other = index ∧
        (move = .reads ∨ move = .expires ∨ move = .hears ∨ ∃ whole, move = .sends whole)
  | _ => False

/-- The task of a connection alone comes to its end at a time, and answers a client that named
something, unless it has the agent to wait for. -/
def Concludes (server : Server) (index time : ℕ) : Prop :=
  ∃ actions next last, (∀ action ∈ actions, OfTask index action) ∧
    machine.exec server actions = some next ∧ next.connections[index]? = some last ∧
    next.now = time ∧
      ((last.handling = .finished ∧ (last.command.isSome = true → last.sent.isSome = true)) ∨
        last.handling = .starting ∧ answerOf next.agent.trace index = none)

/-- The accept loop alone closes, and takes the socket away. -/
def Closes (server : Server) : Prop :=
  ∃ actions next, (∀ action ∈ actions, action = .resumes ∨ action = .closes ∨
      ∃ span, action = .elapses span) ∧
    machine.exec server actions = some next ∧ next.accepting = .closed ∧ next.bound = false ∧
      next.connections = server.connections

theorem Concludes.step {action : Action} (hstep : server.step action = some next)
    (haction : OfTask index action) {time : ℕ} (h : Concludes next index time) :
    Concludes server index time := by
  obtain ⟨actions, finish, last, hactions, hexec, hlast⟩ := h
  refine ⟨action :: actions, finish, last, List.forall_mem_cons.mpr ⟨haction, hactions⟩, ?_, hlast⟩
  rw [Machine.exec_cons]
  change (server.step action).bind _ = _
  rw [hstep, Option.bind_some, hexec]

/-- What the daemon keeps to with its clients. -/
structure Lawful (server : Server) : Prop where
  paced : Paced server
  bound : server.bound = true ↔
    server.accepting = .ready ∨ ∃ expiry, server.accepting = .pausing expiry
  named : ∀ connection ∈ server.connections, ∀ command, connection.command = some command →
    Names connection.bytes command
  heeded : ∀ connection ∈ server.connections, Heeded connection
  asked : ∀ index, server.agent.requests index ≠ .absent ↔
    ∃ connection request env, server.connections[index]? = some connection ∧
      connection.command = some (.run request env)
  opened : ∃ indices : List ℕ, indices.Nodup ∧
    List.Forall₂ (Asked server.agent.config server.connections)
      (Agent.openings server.agent.trace) indices
  answered : ∀ (index : ℕ) connection reply, server.connections[index]? = some connection →
    connection.sent = some reply → Answers server.agent.trace index connection.command reply

theorem Stands.bound (h : server.Stands) : server.bound = true ↔
    server.accepting = .ready ∨ ∃ expiry, server.accepting = .pausing expiry := by
  unfold Stands at h
  cases haccepting : server.accepting with
  | ready | pausing expiry =>
      rw [haccepting] at h
      simp [h.1]
  | binding =>
      rw [haccepting] at h
      simp [h.1]
  | closed =>
      rw [haccepting] at h
      simp [h]

theorem Served.asked (h : Served server) (index : ℕ) : server.agent.requests index ≠ .absent ↔
    ∃ connection request env, server.connections[index]? = some connection ∧
      connection.command = some (.run request env) := by
  constructor
  · intro hpresent
    cases hconnection : server.connections[index]? with
    | none => exact absurd (h.beyond index (List.getElem?_eq_none_iff.mp hconnection)) hpresent
    | some connection =>
        by_contra hnone
        apply hpresent
        apply (h.kept index connection hconnection).absent
        intro request env hcommand
        exact hnone ⟨connection, request, env, rfl, hcommand⟩
  · rintro ⟨connection, request, env, hconnection, hcommand⟩
    exact ((h.kept index connection hconnection).present request env hcommand).1

theorem Served.answered (h : Served server) {reply : Reply}
    (hconnection : server.connections[index]? = some connection)
    (hsent : connection.sent = some reply) :
    Answers server.agent.trace index connection.command reply := by
  have hhandled := (h.kept index connection hconnection).handled
  unfold Handled at hhandled
  cases hhandling : connection.handling with
  | finished =>
      rw [hhandling] at hhandled
      exact hhandled reply hsent
  | naming deadline | starting | replying other =>
      rw [hhandling, hsent] at hhandled
      cases hhandled.2

/-- What a client asks for. -/
def wanted : RunRequest :=
  ⟨"/c".toList, "/c/x.md".toList, ⟨"x".toList⟩, .yes, .no⟩

end Server

end Ipc

end RalphexRunner
