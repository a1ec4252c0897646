import RalphexRunner.Agent.Output
import RalphexRunner.Ipc.Quotes
import RalphexRunner.Text.Encoding

/-!
# Every response of a followed run

A run and the client that follows it: the follower reads the log the run's pump writes, and sees
the run finished once `serve_run` has left it.  Behind the started response every line and every
note of lines lost fits a frame, whatever the run prints, and the last response fits exactly where
what is on record of the end leaves room.

The follower answers within a number of steps that only another line can raise.
-/

namespace RalphexRunner

open Broadcast

theorem piece_clamp {line : Text} (h : Piece line) (maxBytes : ℕ) : Piece (clamp line maxBytes) :=
  Nat.le_trans (Utf8.size_le_of_sublist (clamp_front line maxBytes).sublist) h

theorem piece_lineText {bytes : List UInt8} (h : bytes.length ≤ maxLogChunk) :
    Piece (LogStream.lineText bytes) := by
  have hdropped : (LogStream.lineText bytes).Sublist (Utf8.lossy bytes) := by
    unfold LogStream.lineText dropCarriageReturn
    split
    · exact List.dropLast_sublist _
    · exact List.Sublist.refl _
  calc
    _ ≤ Utf8.size (Utf8.lossy bytes) := Utf8.size_le_of_sublist hdropped
    _ ≤ 3 * bytes.length := Utf8.size_lossy_le bytes
    _ ≤ 3 * maxLogChunk := Nat.mul_le_mul_left 3 h

namespace Run

variable {run next : Run}

/-- Every line of the log of a run is a piece the assembler handed over. -/
theorem piece_of_reachable (h : machine.Reachable run) : ∀ line ∈ run.log.lines, Piece line := by
  intro line hline
  obtain ⟨reads, actions, hexec, -, hpumped⟩ := (printed_of_reachable h).printed
  rw [(LogStream.shows_of_exec hexec).lines, LogStream.pushed, List.mem_flatMap] at hline
  obtain ⟨action, haction, hline⟩ := hline
  cases action with
  | pushLine piece terminator =>
      have hcall : .pushLine piece terminator ∈ LogStream.calls actions :=
        List.mem_filterMap.mpr ⟨_, haction, rfl⟩
      have hprinted := hpumped.called_of_pump.subset hcall
      rw [LineAssembler.pump_eq_lastCalls] at hprinted
      rw [List.mem_singleton.mp hline]
      exact piece_lineText (LineAssembler.lastCalls_piece_le hprinted)
  | _ => cases hline

/-- What a client sees of how far `serve_run` has got. -/
def Pc.state : Pc → RunState
  | .left _ ended => .finished ended
  | _ => .running

/-- `serve_run` publishes the end once, as it leaves. -/
theorem state_of_step {action : Action} (h : step run action = some next) :
    next.pc.state = run.pc.state ∨ next.log = run.log ∧ run.pc.state = .running ∧
      ∃ ended, next.pc.state = .finished ended := by
  rcases step_cases h with ⟨-, hbeside⟩ | hserves
  · obtain ⟨-, hpc, -⟩ := hbeside
    exact .inl (congrArg Pc.state hpc)
  · cases hserves with
    | left finished ended hpc => exact .inr ⟨rfl, congrArg Pc.state hpc, ended, rfl⟩
    | ignored => exact .inl rfl
    | accepted hpc | mismatched hpc | validated hpc | invalid error hpc | started hpc | spawned hpc
    | unspawned error hpc | exited result hpc | unwatched result watcher hpc
    | stopped terminal inbox hpc | interrupted terminal inbox stage call resume hterminal hpc
    | suspended hpc | answered hpc | concluded finished hpc | reported finished completion hpc
    | silent finished hpc | heard finished completion answer hpc | removed finished ended hpc =>
        exact .inl (congrArg Pc.state hpc).symm

end Run

namespace Follow

variable {follow next : Follow}

/-- Every line and every note fits a frame. -/
theorem fits_of_streamed {last : List Response} (h : Streamed follow last)
    (hlines : ∀ line ∈ follow.lines, Piece line) (hcount : follow.lines.length < 2 ^ 64)
    {response : Response} (hmem : response ∈ follow.responses.tail) :
    response.Fits ∨ response ∈ last := by
  obtain ⟨-, hnext, replay, deliveries, hreplay, hcovers, hresponses⟩ := h
  rw [hresponses, List.tail_cons, List.mem_append, List.mem_append] at hmem
  rcases hmem with (hreplayed | hdelivered) | hlast
  · obtain ⟨text, htext, rfl⟩ := List.mem_map.mp hreplayed
    obtain ⟨line, hline, rfl⟩ := List.mem_map.mp (hreplay.suffix.subset htext)
    exact .inl (Response.fits_of_piece (piece_clamp (hlines line (List.mem_of_mem_take hline)) _))
  · obtain ⟨delivery, hdelivery, rfl⟩ := List.mem_map.mp hdelivered
    left
    cases delivery with
    | item text =>
        exact Response.fits_of_piece (hlines text (mem_of_mem_between (hcovers.mem hdelivery)))
    | skipped missed =>
        have hmissed := hcovers.missed_le hdelivery
        rw [length_between hnext] at hmissed
        exact Response.fits_of_piece (Response.piece_skipped (by omega))
  · exact .inr hlast

/-- Behind the started response everything fits a frame, but for the last response of a run whose
end leaves no room. -/
theorem fits_iff (h : Inv follow) (hlines : ∀ line ∈ follow.lines, Piece line)
    (hcount : follow.lines.length < 2 ^ 64) :
    (∀ response ∈ follow.responses.tail, response.Fits) ↔
      ∀ ended, follow.pc = .answered ended → ended.Roomy := by
  have htold := h.told
  unfold Told at htold
  cases hpc : follow.pc with
  | arriving =>
      simp only [hpc] at htold
      simp [htold]
  | started =>
      simp only [hpc] at htold
      simp [htold]
  | replaying rest =>
      simp only [hpc] at htold
      obtain ⟨-, -, shown, hreplay, hresponses⟩ := htold
      refine ⟨fun _ _ ↦ nofun, fun _ response hmem ↦ ?_⟩
      rw [hresponses, List.tail_cons] at hmem
      obtain ⟨text, htext, rfl⟩ := List.mem_map.mp hmem
      obtain ⟨line, hline, rfl⟩ :=
        List.mem_map.mp (hreplay.suffix.subset (List.mem_append_left rest htext))
      exact Response.fits_of_piece (piece_clamp (hlines line (List.mem_of_mem_take hline)) _)
  | streaming =>
      simp only [hpc] at htold
      refine ⟨fun _ _ ↦ nofun, fun _ response hmem ↦ ?_⟩
      exact (fits_of_streamed htold hlines hcount hmem).resolve_right List.not_mem_nil
  | draining ended =>
      simp only [hpc] at htold
      refine ⟨fun _ _ ↦ nofun, fun _ response hmem ↦ ?_⟩
      exact (fits_of_streamed htold hlines hcount hmem).resolve_right List.not_mem_nil
  | answered ended =>
      simp only [hpc] at htold
      constructor
      · intro hfits other hother
        cases hother
        obtain ⟨-, -, replay, deliveries, -, -, hresponses⟩ := htold
        refine (Response.fits_terminal_iff ended).mp (hfits _ ?_)
        rw [hresponses, List.tail_cons]
        exact List.mem_append_right _ (List.mem_singleton.mpr rfl)
      · intro hroomy response hmem
        rcases fits_of_streamed htold hlines hcount hmem with hfits | hlast
        · exact hfits
        · rw [List.mem_singleton.mp hlast]
          exact (Response.fits_terminal_iff ended).mpr (hroomy ended rfl)

/-- How many steps the follower can still take before another line is pushed. -/
def toDo (follow : Follow) : ℕ :=
  match follow.pc with
  | .arriving => follow.current.log.history.lines.length + 5
  | .started => follow.current.log.history.lines.length + 4
  | .replaying rest => rest.length + 3 + (follow.lines.length - follow.next)
  | .streaming => 2 + (follow.lines.length - follow.next)
  | .draining _ => 1 + (follow.lines.length - follow.next)
  | .answered _ => 0

def Action.Own : Action → Prop
  | .logs _ | .leave _ => False
  | _ => True

/-- A step of the log stream is at most one line more to send. -/
theorem toDo_logs {log : LogStream} {action : LogStream.Action}
    (hstep : follow.current.log.step action = some log) :
    toDo { follow with current := { follow.current with log } } + follow.lines.length ≤
      toDo follow + log.lines.length := by
  have hviews : log.lines.length = follow.lines.length ∧
        log.history.lines.length = follow.current.log.history.lines.length ∨
      log.lines.length = follow.lines.length + 1 ∧
        log.history.lines.length ≤ follow.current.log.history.lines.length + 1 := by
    rcases step_views hstep with ⟨hlines, hhistory⟩ | ⟨text, hlines, hhistory⟩
    · exact .inl ⟨congrArg List.length hlines, by rw [hhistory]⟩
    · refine .inr ⟨?_, ?_⟩
      · rw [hlines, List.length_append]
        rfl
      · rw [hhistory]
        exact Ring.length_push_le _ text
  unfold toDo
  dsimp only [lines] at hviews ⊢
  cases follow.pc <;> dsimp only <;> omega

/-- A receive that finds something is one line less to send. -/
theorem toDo_receive (h : Inv follow)
    (hpc : follow.pc = .streaming ∨ ∃ ended, follow.pc = .draining ended)
    (hfound : follow.receive.1 ≠ .empty) : toDo follow.receive.2 < toDo follow := by
  have hmoved : follow.next < follow.receive.2.next := lt_of_recv hfound
  have hsent : follow.receive.2.next ≤ follow.lines.length :=
    (recv_covers subscriberCapacity (h.streamed hpc).2.1).2.1
  have hsame : follow.receive.2.pc = follow.pc := rfl
  have hlines : follow.receive.2.lines = follow.lines := rfl
  rcases hpc with hpc | ⟨ended, hpc⟩
  · simp only [toDo, hsame, hpc, hlines]
    omega
  · simp only [toDo, hsame, hpc, hlines]
    omega

/-- Every step of the follower's own is one step less to take. -/
theorem Moves.toDo (hmoves : Moves follow next) (h : Inv follow) :
    next.toDo < follow.toDo ∧ next.current = follow.current := by
  cases hmoves with
  | starts hpc =>
      refine ⟨?_, rfl⟩
      simp only [Follow.toDo, hpc, send]
      exact Nat.lt_succ_self _
  | subscribes hpc =>
      refine ⟨?_, rfl⟩
      simp only [Follow.toDo, hpc, Ring.snapshot, lines, Nat.sub_self]
      omega
  | replays text rest hpc =>
      refine ⟨?_, rfl⟩
      simp only [Follow.toDo, hpc, send, lines, List.length_cons]
      omega
  | streams hpc =>
      refine ⟨?_, rfl⟩
      simp only [Follow.toDo, hpc, lines, List.length_nil]
      omega
  | receives hpc hfound => exact ⟨toDo_receive h hpc hfound, rfl⟩
  | seesEnd ended hpc =>
      refine ⟨?_, rfl⟩
      simp only [Follow.toDo, hpc, lines]
      omega
  | answers ended hpc =>
      refine ⟨?_, rfl⟩
      simp only [Follow.toDo, hpc, send]
      omega

theorem moves_of_own {action : Action} (hown : action.Own)
    (hstep : step follow action = some next) : Moves follow next := by
  rcases step_cases hstep with ⟨taken, log, rfl, -⟩ | ⟨ended, rfl, -⟩ | hmoves
  · exact hown.elim
  · exact hown.elim
  · exact hmoves

/-- Once the run has ended the follower can go on until it has answered. -/
theorem proceeds (h : Inv follow) {ended : RunEnd}
    (hstate : follow.current.state = .finished ended) :
    follow.pc = .answered ended ∨ ∃ action next, action.Own ∧ step follow action = some next := by
  cases hpc : follow.pc with
  | arriving => exact .inr ⟨.start, _, trivial, by simp only [step, hpc]; rfl⟩
  | started => exact .inr ⟨.subscribe, _, trivial, by simp only [step, hpc]; rfl⟩
  | replaying rest =>
      cases rest with
      | nil => exact .inr ⟨.replay, _, trivial, by simp only [step, hpc]; rfl⟩
      | cons text rest => exact .inr ⟨.replay, _, trivial, by simp only [step, hpc]; rfl⟩
  | streaming => exact .inr ⟨.seesEnd, _, trivial, by simp only [step, hpc, hstate]; rfl⟩
  | draining other =>
      right
      by_cases hempty : follow.receive.1 = .empty
      · have hreceive : follow.receive = (.empty, follow.receive.2) := by rw [← hempty]
        refine ⟨.tryRecv, { follow with pc := .answered other }.send [terminal other], trivial, ?_⟩
        simp only [step, hpc]
        rw [hreceive]
      · exact ⟨.tryRecv, _, trivial, step_tryRecv hpc hempty⟩
  | answered other =>
      have hfinished := h.finished other (.inr hpc)
      rw [hstate] at hfinished
      cases hfinished
      exact .inl rfl

/-- A follower that has answered sent the end last. -/
theorem last_of_answered (h : Inv follow) {ended : RunEnd} (hpc : follow.pc = .answered ended) :
    follow.responses.tail.getLast? = some (terminal ended) := by
  have htold := h.told
  simp only [Told, hpc] at htold
  obtain ⟨-, -, replay, deliveries, -, -, hresponses⟩ := htold
  rw [hresponses, List.tail_cons, List.getLast?_concat]

/-- What the log does, the follower looks on. -/
theorem exec_logs {log : LogStream} {actions : List LogStream.Action}
    (h : LogStream.machine.exec follow.current.log actions = some log) :
    machine.exec follow (actions.map .logs) =
      some { follow with current := { follow.current with log } } := by
  induction actions generalizing follow with
  | nil =>
      cases h
      rfl
  | cons action rest ih =>
      rw [Machine.exec_cons, Option.bind_eq_some_iff] at h
      obtain ⟨middle, hmiddle, hrest⟩ := h
      have hstep : machine.step follow (.logs action) =
          some { follow with current := { follow.current with log := middle } } :=
        Option.map_eq_some_iff.mpr ⟨middle, hmiddle, rfl⟩
      rw [List.map_cons, Machine.exec_cons, hstep]
      exact ih hrest

/-- Lines that are pushed give a follower no more to do than there are of them. -/
theorem toDo_exec_logs {log : LogStream} {actions : List LogStream.Action}
    (h : LogStream.machine.exec follow.current.log actions = some log) :
    toDo { follow with current := { follow.current with log } } + follow.lines.length ≤
      toDo follow + log.lines.length := by
  induction actions generalizing follow with
  | nil =>
      cases h
      exact Nat.le_refl _
  | cons action rest ih =>
      rw [Machine.exec_cons, Option.bind_eq_some_iff] at h
      obtain ⟨middle, hmiddle, hrest⟩ := h
      have hfirst := toDo_logs hmiddle
      have hlater := @ih { follow with current := { follow.current with log := middle } } hrest
      dsimp only [lines] at hfirst hlater ⊢
      omega

end Follow

/-! ## A run and its follower -/

/-- A run and the client that follows it. -/
structure Followed where
  run : Run
  client : Follow

namespace Followed

/-- A step of the run, or one of the follower's own. -/
inductive Action where
  | run (action : Run.Action)
  | client (action : Follow.Action)

def sees (client : Follow) (run : Run) : Follow :=
  { client with current := { client.current with log := run.log, state := run.pc.state } }

def step (followed : Followed) : Action → Option Followed
  | .run action => (followed.run.step action).map fun run ↦ ⟨run, sees followed.client run⟩
  | .client (.logs _) => none
  | .client (.leave _) => none
  | .client action => (followed.client.step action).map fun client ↦ { followed with client }

/-- A run that has just been entered, and a client about to follow it. -/
def machine : Machine Followed Action where
  init followed := Run.machine.init followed.run ∧ Follow.machine.init followed.client ∧
    followed.client.current.runId = followed.run.setup.job.runId
  step := step

/-- The texts a step of the run brings in leave room for the rest of a frame. -/
def Modest (followed : Followed) : Action → Prop
  | .run action => followed.run.Modest action
  | .client _ => True

variable {followed next : Followed}

/-- A step is one of the run that the client sees, or one of the client alone. -/
theorem step_cases {action : Action} (h : step followed action = some next) :
    (∃ taken, action = .run taken ∧ followed.run.step taken = some next.run ∧
      next.client = sees followed.client next.run) ∨
    ∃ taken, action = .client taken ∧ taken.Own ∧
      followed.client.step taken = some next.client ∧ next.run = followed.run := by
  cases action with
  | run taken =>
      obtain ⟨run, hrun, rfl⟩ := Option.map_eq_some_iff.mp h
      exact .inl ⟨taken, rfl, hrun, rfl⟩
  | client taken =>
      right
      cases taken with
      | logs | leave => cases h
      | start | subscribe | replay | recv | seesEnd | tryRecv =>
          obtain ⟨client, hclient, rfl⟩ := Option.map_eq_some_iff.mp h
          exact ⟨_, rfl, trivial, hclient, rfl⟩

theorem step_client {taken : Follow.Action} {client : Follow} (hown : taken.Own)
    (h : followed.client.step taken = some client) :
    machine.step followed (.client taken) = some { followed with client } := by
  cases taken with
  | logs | leave => exact hown.elim
  | start | subscribe | replay | recv | seesEnd | tryRecv =>
      exact Option.map_eq_some_iff.mpr ⟨client, h, rfl⟩

theorem run_reachableBy (h : machine.ReachableBy Modest followed) :
    Run.machine.ReachableBy Run.Modest followed.run := by
  refine h.invariant (fun followed ↦ Run.machine.ReachableBy Run.Modest followed.run) ?_ ?_
  · exact fun followed hinit ↦ .init hinit.1
  · intro followed action next hrun hmodest hstep
    rcases step_cases hstep with ⟨taken, rfl, htaken, -⟩ | ⟨taken, -, -, -, hsame⟩
    · exact .step hrun hmodest htaken
    · rwa [hsame]

/-- The run and the follower each go their own way, and the follower sees the run. -/
structure Joined (followed : Followed) : Prop where
  run : Run.machine.Reachable followed.run
  client : Follow.machine.Reachable followed.client
  log : followed.client.current.log = followed.run.log
  state : followed.client.current.state = followed.run.pc.state

/-- What the client sees of a step of the run are steps a follower knows: those of the log, and
the one that leaves the run. -/
theorem client_of_run {run : Run} {action : Run.Action} (h : Joined followed)
    (hstep : followed.run.step action = some run) :
    Follow.machine.Reachable (sees followed.client run) := by
  obtain ⟨actions, hexec⟩ := Run.log_of_step hstep
  rw [← h.log] at hexec
  have hlogged := h.client.exec (Follow.exec_logs hexec)
  rcases Run.state_of_step hstep with hsame | ⟨-, hrunning, ended, hended⟩
  · have hsees : sees followed.client run =
        { followed.client with current := { followed.client.current with log := run.log } } := by
      rw [sees, hsame, ← h.state]
    rwa [hsees]
  · have hleave : Follow.machine.step
        { followed.client with current := { followed.client.current with log := run.log } }
        (.leave ended) = some (sees followed.client run) := by
      simp only [Follow.machine, Follow.step, h.state, hrunning, sees, hended]
      rfl
    exact .step hlogged trivial hleave

/-- A run and its follower see the same log. -/
theorem joined_of_reachable (h : machine.Reachable followed) : Joined followed := by
  refine h.invariant Joined ?_ ?_
  · rintro followed ⟨⟨setup, hsetup⟩, hclient, -⟩
    refine ⟨.init ⟨setup, hsetup⟩, .init hclient, ?_, ?_⟩
    · rw [hsetup, hclient.1]
      rfl
    · rw [hsetup, hclient.2.1]
      rfl
  · intro followed action next hjoined _ hstep
    rcases step_cases hstep with ⟨taken, rfl, htaken, hclient⟩ | ⟨taken, -, hown, htaken, hsame⟩
    · refine ⟨.step hjoined.run trivial htaken, ?_, ?_, ?_⟩
      · rw [hclient]
        exact client_of_run hjoined htaken
      · rw [hclient]
        rfl
      · rw [hclient]
        rfl
    · have hinv := Follow.inv_of_reachable hjoined.client
      have hcurrent := ((Follow.moves_of_own hown htaken).toDo hinv).2
      refine ⟨hsame ▸ hjoined.run, .step hjoined.client trivial htaken, ?_, ?_⟩
      · rw [hcurrent, hsame]
        exact hjoined.log
      · rw [hcurrent, hsame]
        exact hjoined.state

/-- The steps a run takes are those of the run and those of the follower; this counts the latter. -/
def clientSteps (actions : List Action) : ℕ := actions.countP fun
  | .run _ => false
  | .client _ => true

/-- A step of the follower leaves it less to do, and a line gives it one thing more. -/
theorem step_toDo {action : Action} (h : Joined followed)
    (hstep : step followed action = some next) :
    clientSteps [action] + next.client.toDo + followed.run.log.lines.length ≤
      followed.client.toDo + next.run.log.lines.length := by
  rcases step_cases hstep with ⟨taken, rfl, htaken, hclient⟩ | ⟨taken, rfl, hown, htaken, hsame⟩
  · obtain ⟨actions, hexec⟩ := Run.log_of_step htaken
    rw [← h.log] at hexec
    have hlogged := Follow.toDo_exec_logs hexec
    have hnone : clientSteps [Action.run taken] = 0 := rfl
    rw [hclient, hnone, Nat.zero_add, ← h.log]
    exact hlogged
  · have hless := ((Follow.moves_of_own hown htaken).toDo (Follow.inv_of_reachable h.client)).1
    have hone : clientSteps [Action.client taken] = 1 := rfl
    rw [hone, hsame]
    omega

/-- The follower's steps in a run are no more than it had to do and the lines pushed. -/
theorem exec_toDo {actions : List Action} (h : machine.Reachable followed)
    (hexec : machine.exec followed actions = some next) :
    clientSteps actions + next.client.toDo + followed.run.log.lines.length ≤
      followed.client.toDo + next.run.log.lines.length := by
  induction actions generalizing followed with
  | nil =>
      cases hexec
      exact Nat.le_of_eq (by rw [clientSteps, List.countP_nil, Nat.zero_add])
  | cons action rest ih =>
      rw [Machine.exec_cons, Option.bind_eq_some_iff] at hexec
      obtain ⟨middle, hmiddle, hrest⟩ := hexec
      have hfirst := step_toDo (joined_of_reachable h) hmiddle
      have hlater := ih (.step h trivial hmiddle) hrest
      have hcount : clientSteps (action :: rest) = clientSteps [action] + clientSteps rest := by
        rw [clientSteps, ← List.singleton_append, List.countP_append]
        rfl
      omega

/-- The run's end is on record with texts that leave room. -/
theorem roomy_of_answered (h : machine.ReachableBy Modest followed) {ended : RunEnd}
    (hpc : followed.client.pc = .answered ended) : ended.Roomy := by
  have hjoined := joined_of_reachable h.reachable
  have hfinished := (Follow.inv_of_reachable hjoined.client).finished ended (.inr hpc)
  rw [hjoined.state] at hfinished
  have hquotes := Run.quotes_of_reachableBy (run_reachableBy h)
  cases hleft : followed.run.pc with
  | left finished other =>
      rw [hleft] at hfinished hquotes
      cases hfinished
      exact hquotes
  | _ =>
      rw [hleft] at hfinished
      cases hfinished

/-- **Every response of a modest run fits a frame.**  Whatever a run prints, the responses behind
the started one all fit a frame exactly where the end that was told leaves room.  In a modest run
none is too large to send, and a stream that takes everything takes them all.  Once the run is left
the follower can go on until it has told how the run ended, and the steps it takes are no more than
it had to do and the lines pushed meanwhile. -/
theorem responses_fit (h : machine.Reachable followed)
    (hcount : followed.run.log.lines.length < 2 ^ 64) :
    ((∀ response ∈ followed.client.responses.tail, response.Fits) ↔
      ∀ ended, followed.client.pc = .answered ended → ended.Roomy) ∧
    (machine.ReachableBy Modest followed →
      (∀ response ∈ followed.client.responses.tail, response.Fits) ∧
      (∀ writer size, (Ipc.sendAll Response.toVec writer followed.client.responses.tail).1 ≠
        .error (.tooLarge size)) ∧
      ∀ written, Ipc.sendAll Response.toVec { Writer.empty with written }
          followed.client.responses.tail =
        (.ok (), { Writer.empty with
          written := written ++ followed.client.responses.tail.flatMap fun response ↦
            Ipc.frame response.bytes })) ∧
    (∀ finished ended, followed.run.pc = .left finished ended →
      followed.client.pc = .answered ended ∧
          followed.client.responses.tail.getLast? = some (Follow.terminal ended) ∨
        ∃ action next, machine.step followed (.client action) = some next) ∧
    ∀ actions next, machine.exec followed actions = some next →
      clientSteps actions + next.client.toDo + followed.run.log.lines.length ≤
        followed.client.toDo + next.run.log.lines.length := by
  have hjoined := joined_of_reachable h
  have hinv := Follow.inv_of_reachable hjoined.client
  have hlines : followed.client.lines = followed.run.log.lines :=
    congrArg LogStream.lines hjoined.log
  have hiff := Follow.fits_iff hinv (hlines ▸ Run.piece_of_reachable hjoined.run) (hlines ▸ hcount)
  refine ⟨hiff, fun hmodest ↦ ?_, fun finished ended hleft ↦ ?_,
    fun actions next hexec ↦ exec_toDo h hexec⟩
  · have hfits := hiff.mpr fun _ hpc ↦ roomy_of_answered hmodest hpc
    exact ⟨hfits, Response.sendAll_of_fits hfits, Response.sendAll_frames hfits⟩
  · have hstate : followed.client.current.state = .finished ended := by
      rw [hjoined.state, hleft]
      rfl
    rcases Follow.proceeds hinv hstate with hanswered | ⟨action, client, hown, hstep⟩
    · exact .inl ⟨hanswered, Follow.last_of_answered hinv hanswered⟩
    · exact .inr ⟨action, _, step_client hown hstep⟩

/-- A run that has just been entered, and a client about to follow it. -/
def entered (createPr : CreatePr) : Followed :=
  ⟨Run.enter (Run.native createPr), ⟨⟨⟨['r']⟩, [], .new, .running⟩, .arriving, 0, 0, []⟩⟩

theorem entered_init (createPr : CreatePr) : machine.init (entered createPr) :=
  ⟨⟨_, rfl⟩, ⟨rfl, rfl, rfl, rfl⟩, rfl⟩

/-- The completion goes through, and `serve_run` leaves the run. -/
def departs : List Run.Action := [.concludes, .reports, .hears (.ok ()), .removes, .leaves]

/-- Ralphex prints a line and exits with a failure. -/
def prints : List Run.Action := Run.upToSpawn.tail ++ [.reads [97, 10], .exits (.ok ⟨some 1⟩)]

/-- The run is brought to its end, one chunk of its log sent. -/
def winds : List Run.Action :=
  [.unwatched, .pokes .performs, .hangsUp, .pokes .completes, .pokes .performs,
    .selects .closing, .flushes, .flushed (.ok ()), .flushes, .pokes .completes, .pokes .performs,
    .pokes .performs] ++ Run.posts ++ departs

/-- A client follows a run that has ended, behind one line. -/
def visits : List Follow.Action := [.start, .subscribe, .replay, .replay, .seesEnd, .tryRecv]

theorem modest_of_mem {action : Run.Action} (h : action ∈ prints ++ winds) (run : Run) :
    run.Modest action := by
  cases action with
  | begins | takesExit | consumes =>
      simp [prints, winds, Run.upToSpawn, Run.posts, departs] at h
  | validates answer | spawns answer | hears answer =>
      obtain rfl : answer = .ok () := by
        simpa [prints, winds, Run.upToSpawn, Run.posts, departs] using h
      trivial
  | pokes poke =>
      cases poke with
      | ends => simp [prints, winds, Run.upToSpawn, Run.posts, departs] at h
      | _ => trivial
  | _ => trivial

theorem modest_map {runs : List Run.Action} (h : runs ⊆ prints ++ winds) :
    ∀ action ∈ runs.map Action.run, ∀ followed, Modest followed action := by
  intro action hmem followed
  obtain ⟨taken, htaken, rfl⟩ := List.mem_map.mp hmem
  exact modest_of_mem (h htaken) followed.run

theorem actions_modest (taken : List Follow.Action) :
    ∀ action ∈ taken.map Action.client, ∀ followed, Modest followed action := by
  intro action hmem followed
  obtain ⟨own, -, rfl⟩ := List.mem_map.mp hmem
  trivial

/-- A run that prints one line and fails. -/
theorem responses_fit_one_line : ∃ followed : Followed,
    followed.client.responses.tail = [.line ['a'], .ended .error [] "nonzero_exit".toList
      (exitMessage ⟨some 1⟩)] ∧
    ∀ response ∈ followed.client.responses.tail, response.Fits := by
  have hbegins : Modest (entered .no) (.run .begins) := fun hother ↦ absurd rfl hother
  have hroomy : (failed "nonzero_exit".toList (exitMessage ⟨some 1⟩) []).Roomy := by
    unfold CompleteRequest.Roomy
    decide
  have hbegun : machine.ReachableBy Modest _ := .step (.init (entered_init .no)) hbegins rfl
  have hexited := hbegun.exec (modest_map (List.subset_append_left prints winds)) rfl
  have htaken := @Machine.ReachableBy.step _ _ machine Modest _ _ (.run .takesExit) hexited
    (fun result hresult ↦ by cases hresult; exact hroomy) rfl
  have hleft := htaken.exec (modest_map (List.subset_append_right prints winds)) rfl
  have hanswered := hleft.exec (actions_modest visits) rfl
  exact ⟨_, rfl, ((responses_fit hanswered.reachable (by decide)).2.1 hanswered).1⟩

/-- Ralphex succeeds, and `gh` fails to list the pull requests with something on stderr. -/
def listFails (stderr : List UInt8) : List Run.Action :=
  Run.upToSpawn ++ [.exits (.ok ⟨some 0⟩), .takesExit, .unwatched, .pokes .performs, .hangsUp,
    .pokes .completes] ++ Run.closes ++ [.pokes .performs] ++ Run.posts ++
    [.pokes .performs, .pokes (.ends (.ran ⟨some 1⟩ [] stderr)), .pokes .performs] ++ Run.posts ++
    departs

def followsFailure (stderr : List UInt8) : List Action :=
  (listFails stderr).map .run ++
    [.client .start, .client .subscribe, .client .replay, .client .seesEnd, .client .tryRecv]

/-- The client is told all that `gh` printed. -/
theorem exec_followsFailure (stderr : List UInt8) : ∃ followed,
    machine.exec (entered .yes) (followsFailure stderr) = some followed ∧
      followed.client.responses.tail = [.ended .error [] "pr_create".toList
        ("the pull request could not be looked up: ".toList ++
          ("h pr list exited with 1: ".toList ++ trim (Utf8.lossy stderr)))] :=
  ⟨_, rfl, rfl⟩

/-- What is printed without white space takes its length in the response. -/
theorem length_of_failure (count : ℕ) : ∃ followed response,
    machine.exec (entered .yes) (followsFailure (Utf8.encode (List.replicate count 'x'))) =
      some followed ∧ followed.client.responses.tail = [response] ∧
      count < response.bytes.length := by
  obtain ⟨followed, hexec, htail⟩ :=
    exec_followsFailure (Utf8.encode (List.replicate count 'x'))
  refine ⟨followed, _, hexec, htail, ?_⟩
  have htrim : trim (List.replicate count 'x') = List.replicate count 'x' :=
    trim_eq_self fun character hmem ↦ by
      rw [List.eq_of_mem_replicate hmem]
      decide
  have hwidth : Json.width (List.replicate count 'x') = count :=
    Json.width_replicate (by decide) (by decide) count
  have hframe : 0 < endedFrame .error := by decide
  rw [Utf8.lossy_encode, htrim, Response.length_ended, Json.width_append, Json.width_append, hwidth]
  omega

/-- A run whose `gh` prints as much as a frame holds on stderr: the one response behind the started
one is too large to send, so the client is never told how the run ended. -/
theorem end_too_large : ∃ followed response, machine.Reachable followed ∧
    machine.exec (entered .yes)
        (followsFailure (Utf8.encode (List.replicate maxMessageBytes 'x'))) = some followed ∧
      followed.client.responses.tail = [response] ∧ ¬ response.Fits ∧
      ∀ writer, Ipc.send Response.toVec writer response =
        (.error (.tooLarge response.bytes.length), writer) := by
  obtain ⟨followed, response, hexec, htail, hlength⟩ := length_of_failure maxMessageBytes
  have hreach : machine.Reachable (entered .yes) := .init (entered_init .yes)
  have hunfit : ¬ response.Fits := Nat.not_le_of_lt hlength
  exact ⟨followed, response, hreach.exec hexec, hexec, htail, hunfit,
    Response.send_of_not_fits hunfit⟩

end Followed

end RalphexRunner
