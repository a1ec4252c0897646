import RalphexRunner.Agent.Outcome
import RalphexRunner.LogStream.Chunks
import RalphexRunner.Semantics.Broadcast

/-!
# A client that follows a run

`follow` sends the started response, takes the replay and a subscription under one lock, sends the
replay, streams lines until it sees the run finished, empties its subscription and sends one
terminal response.  Meanwhile the log stream takes any steps, and the run is left at any time.

The follower holds the run it follows, so the channel it reads is never closed.
-/

namespace RalphexRunner

open Broadcast

/-- How many lines the broadcast ring keeps for a subscriber. -/
def subscriberCapacity : ℕ := 1024

/-- The run an attached client follows. -/
structure CurrentRun where
  runId : RunId
  dashboardUrl : Text
  log : LogStream
  state : RunState

/-- `leave`: publish how the run ended. -/
def CurrentRun.leave (current : CurrentRun) (ended : RunEnd) : CurrentRun :=
  { current with state := .finished ended }

/-- What the daemon answers a client. -/
inductive Response where
  | started (runId : RunId) (dashboardUrl : Text)
  | line (text : Text)
  | ended (status : CompleteStatus) (prUrl failReason message : Text)
  | error (message : Text)
  deriving DecidableEq

namespace Follow

/-- The line that stands for lines lost to lag. -/
def skipped (missed : ℕ) : Text := "... ".toList ++ numeral missed ++ " lines skipped".toList

/-- The last response of a follower. -/
def terminal : RunEnd → Response
  | .reported completion =>
      .ended completion.status completion.prUrl completion.failReason completion.message
  | .unreported message => .error message
  | .forgotten => .error "the farm no longer knows this run".toList
  | .versionMismatch message =>
      .error ("the farm speaks another protocol version: ".toList ++ message)
  | .dropped => .error "the farm no longer knows this run".toList

/-- Where the follower stands. -/
inductive Pc where
  | arriving
  | started
  | replaying (rest : List Text)
  | streaming
  | draining (ended : RunEnd)
  | answered (ended : RunEnd)

end Follow

open Follow in
/-- A run and its follower: where the subscription began and where it reads next among the lines
sent, and the responses sent. -/
structure Follow where
  current : CurrentRun
  pc : Pc
  start : ℕ
  next : ℕ
  responses : List Response

namespace Follow

abbrev lines (follow : Follow) : List Text := follow.current.log.lines

def send (follow : Follow) (responses : List Response) : Follow :=
  { follow with responses := follow.responses ++ responses }

/-- How one delivery is told to the client. -/
def response : Delivery Text → Response
  | .item text => .line text
  | .skipped missed => .line (skipped missed)

/-- What one receive sends. -/
def told (received : Received Text) : List Response := received.deliveries.map response

def receive (follow : Follow) : Received Text × Follow :=
  let received := recv subscriberCapacity follow.lines follow.next
  (received.1, { follow with next := received.2 }.send (told received.1))

/-- What can happen around a followed run. -/
inductive Action where
  | logs (action : LogStream.Action)
  | leave (ended : RunEnd)
  | start
  | subscribe
  | replay
  | recv
  | seesEnd
  | tryRecv

def step (follow : Follow) : Action → Option Follow
  | .logs action =>
      (follow.current.log.step action).map fun log ↦
        { follow with current := { follow.current with log } }
  | .leave ended =>
      match follow.current.state with
      | .running => some { follow with current := follow.current.leave ended }
      | .finished _ => none
  | .start =>
      match follow.pc with
      | .arriving => some ({ follow with pc := .started }.send
          [.started follow.current.runId follow.current.dashboardUrl])
      | _ => none
  | .subscribe =>
      match follow.pc with
      | .started => some { follow with
          pc := .replaying follow.current.log.history.snapshot
          start := follow.lines.length
          next := follow.lines.length }
      | _ => none
  | .replay =>
      match follow.pc with
      | .replaying (text :: rest) => some ({ follow with pc := .replaying rest }.send [.line text])
      | .replaying [] => some { follow with pc := .streaming }
      | _ => none
  | .recv =>
      match follow.pc, follow.receive with
      | .streaming, (.item _, after) => some after
      | .streaming, (.lagged _, after) => some after
      | _, _ => none
  | .seesEnd =>
      match follow.pc, follow.current.state with
      | .streaming, .finished ended => some { follow with pc := .draining ended }
      | _, _ => none
  | .tryRecv =>
      match follow.pc, follow.receive with
      | .draining _, (.item _, after) => some after
      | .draining _, (.lagged _, after) => some after
      | .draining ended, (.empty, _) =>
          some ({ follow with pc := .answered ended }.send [terminal ended])
      | _, _ => none

/-- A run that has just been entered, and a client about to follow it. -/
def machine : Machine Follow Action where
  init follow := follow.current.log = .new ∧ follow.current.state = .running ∧
    follow.pc = .arriving ∧ follow.responses = []
  step := step

/-- What a step of the follower's own comes to. -/
inductive Moves (follow : Follow) : Follow → Prop
  | starts : follow.pc = .arriving → Moves follow ({ follow with pc := .started }.send
      [.started follow.current.runId follow.current.dashboardUrl])
  | subscribes : follow.pc = .started → Moves follow { follow with
      pc := .replaying follow.current.log.history.snapshot
      start := follow.lines.length
      next := follow.lines.length }
  | replays (text : Text) (rest : List Text) : follow.pc = .replaying (text :: rest) →
      Moves follow ({ follow with pc := .replaying rest }.send [.line text])
  | streams : follow.pc = .replaying [] → Moves follow { follow with pc := .streaming }
  | receives : follow.pc = .streaming ∨ (∃ ended, follow.pc = .draining ended) →
      follow.receive.1 ≠ .empty → Moves follow follow.receive.2
  | seesEnd (ended : RunEnd) : follow.pc = .streaming → follow.current.state = .finished ended →
      Moves follow { follow with pc := .draining ended }
  | answers (ended : RunEnd) : follow.pc = .draining ended → follow.receive.1 = .empty →
      Moves follow ({ follow with pc := .answered ended }.send [terminal ended])

variable {follow next : Follow}

theorem receives_of_eq {received : Received Text}
    (hpc : follow.pc = .streaming ∨ ∃ ended, follow.pc = .draining ended)
    (hreceive : follow.receive = (received, next)) (hfound : received ≠ .empty) :
    Moves follow next := by
  have hmoves := Moves.receives hpc (by rwa [hreceive])
  rwa [hreceive] at hmoves

/-- A step is one of the log, the one that leaves the run, or one of the follower's own. -/
theorem step_cases {action : Action} (h : step follow action = some next) :
    (∃ taken log, action = .logs taken ∧ follow.current.log.step taken = some log ∧
      next = { follow with current := { follow.current with log } }) ∨
    (∃ ended, action = .leave ended ∧ follow.current.state = .running ∧
      next = { follow with current := follow.current.leave ended }) ∨ Moves follow next := by
  cases action with
  | logs taken =>
      obtain ⟨log, hlog, rfl⟩ := Option.map_eq_some_iff.mp h
      exact .inl ⟨taken, log, rfl, hlog, rfl⟩
  | leave ended =>
      simp only [step] at h
      split at h <;> cases h
      exact .inr (.inl ⟨ended, rfl, ‹_›, rfl⟩)
  | start =>
      simp only [step] at h
      split at h <;> cases h
      exact .inr (.inr (.starts ‹_›))
  | subscribe =>
      simp only [step] at h
      split at h <;> cases h
      exact .inr (.inr (.subscribes ‹_›))
  | replay =>
      simp only [step] at h
      split at h <;> cases h
      · exact .inr (.inr (.replays _ _ ‹_›))
      · exact .inr (.inr (.streams ‹_›))
  | recv =>
      simp only [step] at h
      split at h <;> cases h
      all_goals
        rename_i hpc hreceive
        exact .inr (.inr (receives_of_eq (.inl hpc) hreceive (by simp)))
  | seesEnd =>
      simp only [step] at h
      split at h <;> cases h
      exact .inr (.inr (.seesEnd _ ‹_› ‹_›))
  | tryRecv =>
      simp only [step] at h
      split at h <;> cases h
      · rename_i hpc hreceive
        exact .inr (.inr (receives_of_eq (.inr ⟨_, hpc⟩) hreceive (by simp)))
      · rename_i hpc hreceive
        exact .inr (.inr (receives_of_eq (.inr ⟨_, hpc⟩) hreceive (by simp)))
      · rename_i hpc hreceive
        exact .inr (.inr (.answers _ hpc (by rw [hreceive])))

/-- A step of the log stream appends at most one line, to the lines sent and to the history. -/
theorem step_views {stream next : LogStream} {action : LogStream.Action}
    (hstep : stream.step action = some next) : LogStream.Views stream next := by
  cases LogStream.step_effect hstep with
  | appends houtgoing happended hrecord hviews hgone hflusher => exact hviews
  | sends phase seq htask hgone hchunk hnext =>
      subst hnext
      exact .inl ⟨rfl, rfl⟩
  | quiet hquiet => exact .inl hquiet.views

/-- The lines as the history keeps them. -/
def kept (lines : List Text) : List Text := lines.map fun line ↦ clamp line historyBytes

/-- A replay is the longest suffix of the lines sent that the bounds of the history have room
for. -/
abbrev Replay (lines replay : List Text) : Prop :=
  Ring.Youngest historyLines historyBytes (kept lines) replay

/-- The history is a replay of the lines sent. -/
structure Replays (stream : LogStream) : Prop where
  maxLines : stream.history.maxLines = historyLines
  maxBytes : stream.history.maxBytes = historyBytes
  replay : Replay stream.lines stream.history.lines

/-- The history holds what it has room for after every step of the log. -/
theorem step_replays {stream next : LogStream} {action : LogStream.Action} (h : Replays stream)
    (hstep : stream.step action = some next) : Replays next := by
  rcases step_views hstep with ⟨hlines, hhistory⟩ | ⟨text, hlines, hhistory⟩
  · exact ⟨by rw [hhistory, h.maxLines], by rw [hhistory, h.maxBytes],
      by rw [hhistory, hlines]; exact h.replay⟩
  · refine ⟨by rw [hhistory, Ring.push_maxLines, h.maxLines],
      by rw [hhistory, Ring.push_maxBytes, h.maxBytes], ?_⟩
    have hbefore : Ring.Youngest stream.history.maxLines stream.history.maxBytes
        (kept stream.lines) stream.history.lines := by
      rw [h.maxLines, h.maxBytes]
      exact h.replay
    have hpush := Ring.push_youngest hbefore text
    rw [h.maxLines, h.maxBytes] at hpush
    rw [Replay, hhistory, hlines, kept, List.map_append, ← kept]
    exact hpush

/-- The replay was sent, and then every line up to `next` was sent or counted. -/
def Streamed (follow : Follow) (last : List Response) : Prop :=
  follow.start ≤ follow.next ∧ follow.next ≤ follow.lines.length ∧
    ∃ replay deliveries, Replay (follow.lines.take follow.start) replay ∧
      Covers deliveries (between follow.lines follow.start follow.next) ∧
      follow.responses = .started follow.current.runId follow.current.dashboardUrl ::
        (replay.map .line ++ deliveries.map response ++ last)

/-- What the client was told, by where the follower stands. -/
def Told (follow : Follow) : Prop :=
  match follow.pc with
  | .arriving => follow.responses = []
  | .started =>
      follow.responses = [.started follow.current.runId follow.current.dashboardUrl]
  | .replaying rest =>
      follow.next = follow.start ∧ follow.start ≤ follow.lines.length ∧
        ∃ shown, Replay (follow.lines.take follow.start) (shown ++ rest) ∧
          follow.responses = .started follow.current.runId follow.current.dashboardUrl ::
            shown.map .line
  | .streaming => Streamed follow []
  | .draining _ => Streamed follow []
  | .answered ended => Streamed follow [terminal ended]

/-- Everything the follower relies on. -/
structure Inv (follow : Follow) : Prop where
  replays : Replays follow.current.log
  told : Told follow
  finished : ∀ ended, follow.pc = .draining ended ∨ follow.pc = .answered ended →
    follow.current.state = .finished ended

/-- More lines do not change what a follower was told so far. -/
theorem streamed_of_lines {last : List Response} (h : Streamed follow last) {current : CurrentRun}
    (more : List Text) (hlines : current.log.lines = follow.lines ++ more)
    (hrun : current.runId = follow.current.runId)
    (hurl : current.dashboardUrl = follow.current.dashboardUrl) :
    Streamed { follow with current } last := by
  obtain ⟨hstart, hnext, replay, deliveries, hreplay, hcovers, hresponses⟩ := h
  refine ⟨hstart, ?_, replay, deliveries, ?_, ?_, ?_⟩
  · rw [lines, hlines, List.length_append]
    exact Nat.le_add_right_of_le hnext
  · rw [lines, hlines, List.take_append_of_le_length (Nat.le_trans hstart hnext)]
    exact hreplay
  · rw [lines, hlines, between_sent_append more hnext]
    exact hcovers
  · rw [hrun, hurl]
    exact hresponses

/-- Lines sent later leave what the client was told as it is. -/
theorem told_of_lines (h : Told follow) {current : CurrentRun} (more : List Text)
    (hlines : current.log.lines = follow.lines ++ more)
    (hrun : current.runId = follow.current.runId)
    (hurl : current.dashboardUrl = follow.current.dashboardUrl) :
    Told { follow with current } := by
  unfold Told at h ⊢
  cases hpc : follow.pc with
  | arriving => simpa only [hpc] using h
  | started => simpa only [hpc, hrun, hurl] using h
  | replaying rest =>
      simp only [hpc, hrun, hurl] at h ⊢
      obtain ⟨hnext, hstart, shown, hshown, hresponses⟩ := h
      refine ⟨hnext, ?_, shown, ?_, hresponses⟩
      · rw [lines, hlines, List.length_append]
        exact Nat.le_add_right_of_le hstart
      · rw [lines, hlines, List.take_append_of_le_length hstart]
        exact hshown
  | streaming =>
      simp only [hpc] at h ⊢
      exact streamed_of_lines h more hlines hrun hurl
  | draining ended =>
      simp only [hpc] at h ⊢
      exact streamed_of_lines h more hlines hrun hurl
  | answered ended =>
      simp only [hpc] at h ⊢
      exact streamed_of_lines h more hlines hrun hurl

/-- One receive keeps the account. -/
theorem receive_streamed (h : Streamed follow []) : Streamed follow.receive.2 [] := by
  obtain ⟨hstart, hnext, replay, deliveries, hreplay, hcovers, hresponses⟩ := h
  obtain ⟨hforward, hsent, hreceived⟩ := recv_covers subscriberCapacity hnext
  refine ⟨Nat.le_trans hstart hforward, hsent, replay, deliveries ++
    (recv subscriberCapacity follow.lines follow.next).1.deliveries, hreplay, ?_, ?_⟩
  · have hsplit := between_append hstart hforward hsent
    change Covers _ (between follow.lines follow.start
      (recv subscriberCapacity follow.lines follow.next).2)
    rw [hsplit]
    exact hcovers.append hreceived
  · change follow.responses ++ told _ = _
    rw [hresponses, told, List.map_append]
    simp only [List.cons_append, List.append_nil, List.append_assoc]
    rfl

/-! ## Every step keeps it -/

theorem step_logs (h : Inv follow) {action : LogStream.Action} {log : LogStream}
    (hstep : follow.current.log.step action = some log) :
    Inv { follow with current := { follow.current with log } } := by
  have hmore : ∃ more, log.lines = follow.lines ++ more := by
    rcases step_views hstep with ⟨hlines, -⟩ | ⟨text, hlines, -⟩
    · exact ⟨[], by rw [hlines, List.append_nil]⟩
    · exact ⟨[text], hlines⟩
  obtain ⟨more, hlines⟩ := hmore
  exact ⟨step_replays h.replays hstep, told_of_lines h.told more hlines rfl rfl, h.finished⟩

theorem step_leave (h : Inv follow) (ended : RunEnd) (hrunning : follow.current.state = .running) :
    Inv { follow with current := follow.current.leave ended } := by
  refine ⟨h.replays, told_of_lines h.told [] (List.append_nil _).symm rfl rfl, fun other hpc ↦ ?_⟩
  have hfinished := h.finished other hpc
  rw [hrunning] at hfinished
  cases hfinished

theorem step_start (h : Inv follow) (hpc : follow.pc = .arriving) :
    Inv ({ follow with pc := .started }.send
      [.started follow.current.runId follow.current.dashboardUrl]) := by
  have htold := h.told
  simp only [Told, hpc] at htold
  refine ⟨h.replays, ?_, nofun⟩
  simp only [Told, send, htold, List.nil_append]

theorem step_subscribe (h : Inv follow) (hpc : follow.pc = .started) :
    Inv { follow with
      pc := .replaying follow.current.log.history.snapshot
      start := follow.lines.length
      next := follow.lines.length } := by
  have htold := h.told
  simp only [Told, hpc] at htold
  refine ⟨h.replays, ⟨rfl, Nat.le_refl _, [], ?_, htold⟩, nofun⟩
  rw [List.nil_append, lines, List.take_length]
  exact h.replays.replay

theorem step_replay (h : Inv follow) {text : Text} {rest : List Text}
    (hpc : follow.pc = .replaying (text :: rest)) :
    Inv ({ follow with pc := .replaying rest }.send [.line text]) := by
  have htold := h.told
  simp only [Told, hpc] at htold
  obtain ⟨hnext, hstart, shown, hshown, hresponses⟩ := htold
  refine ⟨h.replays, ⟨hnext, hstart, shown ++ [text], ?_, ?_⟩, nofun⟩
  · rw [List.append_assoc, List.singleton_append]
    exact hshown
  · simp only [send, hresponses, List.map_append, List.map_singleton, List.cons_append]

theorem step_stream (h : Inv follow) (hpc : follow.pc = .replaying []) :
    Inv { follow with pc := .streaming } := by
  have htold := h.told
  simp only [Told, hpc, List.append_nil] at htold
  obtain ⟨hnext, hstart, shown, hshown, hresponses⟩ := htold
  refine ⟨h.replays, ⟨Nat.le_of_eq hnext.symm, hnext ▸ hstart, shown, [], hshown, ?_, ?_⟩, nofun⟩
  · rw [hnext, between_self]
    exact .nil
  · simp only [hresponses, List.map_nil, List.append_nil]

/-- Where the follower receives, it has told what lies before. -/
theorem Inv.streamed (h : Inv follow)
    (hpc : follow.pc = .streaming ∨ ∃ ended, follow.pc = .draining ended) :
    Streamed follow [] := by
  have htold := h.told
  unfold Told at htold
  rcases hpc with hpc | ⟨ended, hpc⟩
  · rwa [hpc] at htold
  · rwa [hpc] at htold

theorem step_receive (h : Inv follow)
    (hpc : follow.pc = .streaming ∨ ∃ ended, follow.pc = .draining ended) :
    Inv follow.receive.2 := by
  refine ⟨h.replays, ?_, h.finished⟩
  have hreceived := receive_streamed (h.streamed hpc)
  have hsame : follow.receive.2.pc = follow.pc := rfl
  unfold Told
  rcases hpc with hpc | ⟨ended, hpc⟩ <;> rw [hsame, hpc] <;> exact hreceived

theorem step_seesEnd (h : Inv follow) {ended : RunEnd} (hpc : follow.pc = .streaming)
    (hstate : follow.current.state = .finished ended) :
    Inv { follow with pc := .draining ended } := by
  have htold := h.told
  simp only [Told, hpc] at htold
  refine ⟨h.replays, htold, fun other hother ↦ ?_⟩
  rcases hother with hother | hother <;> cases hother
  exact hstate

/-- The last step: an empty subscription and the terminal response. -/
theorem step_answer (h : Inv follow) {ended : RunEnd} (hpc : follow.pc = .draining ended) :
    Inv ({ follow with pc := .answered ended }.send [terminal ended]) := by
  have htold := h.told
  simp only [Told, hpc] at htold
  obtain ⟨hstart, hnext, replay, deliveries, hreplay, hcovers, hresponses⟩ := htold
  refine ⟨h.replays, ⟨hstart, hnext, replay, deliveries, hreplay, hcovers, ?_⟩,
    fun other hother ↦ ?_⟩
  · simp only [send, hresponses, List.append_nil, List.cons_append]
  · rcases hother with hother | hother <;> cases hother
    exact h.finished ended (.inl hpc)

theorem step_inv {action : Action} (h : Inv follow) (hstep : step follow action = some next) :
    Inv next := by
  rcases step_cases hstep with ⟨taken, log, -, hlog, rfl⟩ | ⟨ended, -, hrunning, rfl⟩ | hmoves
  · exact step_logs h hlog
  · exact step_leave h ended hrunning
  · cases hmoves with
    | starts hpc => exact step_start h hpc
    | subscribes hpc => exact step_subscribe h hpc
    | replays text rest hpc => exact step_replay h hpc
    | streams hpc => exact step_stream h hpc
    | receives hpc hfound => exact step_receive h hpc
    | seesEnd ended hpc hstate => exact step_seesEnd h hpc hstate
    | answers ended hpc hempty => exact step_answer h hpc

theorem inv_of_reachable (h : machine.Reachable follow) : Inv follow := by
  refine h.invariant Inv ?_ (fun _ _ _ hinv _ hstep ↦ step_inv hinv hstep)
  intro state hinit
  obtain ⟨hlog, -, hpc, hresponses⟩ := hinit
  refine ⟨?_, ?_, ?_⟩
  · rw [hlog]
    exact ⟨rfl, rfl, Ring.youngest_nil _ _⟩
  · simpa only [Told, hpc] using hresponses
  · intro ended hended
    rw [hpc] at hended
    rcases hended with hended | hended <;> cases hended

/-- Every line pushed before the run was left lies before the follower's position once it has
answered. -/
structure Caught (count : ℕ) (follow : Follow) : Prop where
  pushed : count ≤ follow.lines.length
  answered : ∀ ended, follow.pc = .answered ended → count ≤ follow.next

/-- A follower that answers has all the lines of a run that was left. -/
theorem step_caught {count : ℕ} {action : Action} (hinv : Inv follow) (h : Caught count follow)
    (hstep : step follow action = some next) : Caught count next := by
  rcases step_cases hstep with ⟨taken, log, -, hlog, rfl⟩ | ⟨ended, -, -, rfl⟩ | hmoves
  · refine ⟨?_, h.answered⟩
    have hpushed := h.pushed
    rcases step_views hlog with ⟨hlines, -⟩ | ⟨text, hlines, -⟩
    · simpa only [lines, hlines] using hpushed
    · simp only [lines, hlines, List.length_append]
      exact Nat.le_add_right_of_le hpushed
  · exact ⟨h.pushed, h.answered⟩
  · cases hmoves with
    | starts | subscribes | replays | streams | seesEnd => exact ⟨h.pushed, nofun⟩
    | receives hpc hfound =>
        refine ⟨h.pushed, fun ended hended ↦ ?_⟩
        have hsame : follow.pc = .answered ended := hended
        rcases hpc with hpc | ⟨other, hpc⟩ <;> rw [hpc] at hsame <;> cases hsame
    | answers ended hpc hempty =>
        have htold := hinv.told
        simp only [Told, hpc] at htold
        refine ⟨h.pushed, fun _ _ ↦ ?_⟩
        change count ≤ follow.next
        rw [next_eq_of_empty htold.2.1 hempty]
        exact h.pushed

/-- Every line pushed before the run was left is accounted for. -/
theorem caught_after_leave {ended : RunEnd} {actions : List Action} (h : machine.Reachable follow)
    (hexec : machine.exec follow (.leave ended :: actions) = some next) :
    Caught follow.lines.length next := by
  rw [Machine.exec_cons, Option.bind_eq_some_iff] at hexec
  obtain ⟨left, hleave, hexec⟩ := hexec
  have hleft : machine.Reachable left := .step h trivial hleave
  refine hleft.exec_invariant (Caught follow.lines.length)
    (fun _ _ _ hreach hcaught hstep ↦ step_caught (inv_of_reachable hreach) hcaught hstep) ?_ hexec
  have hfinished := (inv_of_reachable h).finished
  simp only [machine, step] at hleave
  split at hleave <;> cases hleave
  rename_i hrunning
  refine ⟨Nat.le_refl _, fun other hother ↦ ?_⟩
  have hother := hfinished other (.inr hother)
  rw [hrunning] at hother
  cases hother

/-- A run that has just been entered, before any client asked for it. -/
def entered : Follow := ⟨⟨⟨"run-1".toList⟩, [], .new, .running⟩, .arriving, 0, 0, []⟩

theorem entered_reachable : machine.Reachable entered := .init ⟨rfl, rfl, rfl, rfl⟩

/-- One printed line. -/
def push : Action := .logs (.pushLine [97] .newline)

/-- Any number of lines can be pushed. -/
theorem push_lines (count : ℕ) (follow : Follow) :
    ∃ log : LogStream, log.lines = follow.lines ++ List.replicate count ['a'] ∧
      machine.exec follow (List.replicate count push) =
        some { follow with current := { follow.current with log } } := by
  induction count generalizing follow with
  | zero => exact ⟨follow.current.log, (List.append_nil _).symm, rfl⟩
  | succ count ih =>
      let pushed := follow.current.log.pushLine [97] .newline
      have hpushed : pushed.lines = follow.lines ++ [['a']] := by
        have htext : LogStream.lineText [97] = ['a'] := by decide
        simp only [pushed, LogStream.pushLine, htext]
      obtain ⟨log, hlines, hexec⟩ :=
        ih { follow with current := { follow.current with log := pushed } }
      refine ⟨log, ?_, ?_⟩
      · rw [hlines, lines, hpushed, List.append_assoc]
        rfl
      · rw [List.replicate_succ, Machine.exec_cons]
        exact hexec

theorem step_recv_lagged (hpc : follow.pc = .streaming)
    (hlag : follow.next + subscriberCapacity < follow.lines.length) :
    machine.step follow .recv = some ({ follow with
      next := follow.lines.length - subscriberCapacity }.send
        [.line (skipped (follow.lines.length - subscriberCapacity - follow.next))]) := by
  simp only [machine, step, hpc, receive, recv_lagged hlag]
  rfl

theorem step_tryRecv {ended : RunEnd} (hpc : follow.pc = .draining ended)
    (h : follow.receive.1 ≠ .empty) : machine.step follow .tryRecv = some follow.receive.2 := by
  cases hreceive : follow.receive with
  | mk received after =>
  cases received with
  | item value => simp only [machine, step, hpc, hreceive]
  | lagged missed => simp only [machine, step, hpc, hreceive]
  | empty => exact absurd (by rw [hreceive]) h

/-- A follower that saw the end answers after sending what is left. -/
theorem answers (follow : Follow) (hnext : follow.next ≤ follow.lines.length) {ended : RunEnd}
    (hpc : follow.pc = .draining ended) :
    ∃ actions next more, machine.exec follow actions = some next ∧ next.pc = .answered ended ∧
      next.current = follow.current ∧ next.start = follow.start ∧
      next.responses = follow.responses ++ more := by
  induction hleft : follow.lines.length - follow.next using Nat.strongRecOn
    generalizing follow with
  | ind left ih =>
  by_cases hempty : follow.receive.1 = .empty
  · have hreceive : follow.receive = (.empty, follow.receive.2) := by rw [← hempty]
    refine ⟨[.tryRecv], { follow with pc := .answered ended }.send [terminal ended], _,
      ?_, rfl, rfl, rfl, rfl⟩
    rw [Machine.exec_cons]
    simp only [machine, step, hpc]
    rw [hreceive]
    rfl
  · obtain ⟨hforward, hsent, -⟩ := recv_covers subscriberCapacity hnext
    have hmoved : follow.next < (recv subscriberCapacity follow.lines follow.next).2 :=
      lt_of_recv hempty
    have hshorter : follow.lines.length -
        (recv subscriberCapacity follow.lines follow.next).2 < left := by omega
    have hstep := step_tryRecv hpc hempty
    obtain ⟨actions, next, more, hexec, hanswered, hcurrent, hstart, hresponses⟩ :=
      ih _ hshorter follow.receive.2 hsent hpc rfl
    refine ⟨.tryRecv :: actions, next, told follow.receive.1 ++ more, ?_, hanswered, hcurrent,
      hstart, ?_⟩
    · rw [Machine.exec_cons, hstep]
      exact hexec
    · rw [hresponses, ← List.append_assoc]
      rfl

/-- A follower that is told of a lag, before it receives again. -/
def streamingFrom (log : LogStream) (next : ℕ) (responses : List Response) : Follow where
  current := ⟨⟨"run-1".toList⟩, [], log, .running⟩
  pc := .streaming
  start := 0
  next
  responses := .started ⟨"run-1".toList⟩ [] :: responses

/-- Enough lines to push one unread line out of the ring, and the note of it. -/
theorem lags_once {log : LogStream} {next : ℕ} {responses : List Response}
    (h : machine.Reachable (streamingFrom log next responses)) (count : ℕ)
    (hcount : log.lines.length + count = next + subscriberCapacity + 1) :
    ∃ pushed : LogStream, pushed.lines = log.lines ++ List.replicate count ['a'] ∧
      machine.Reachable (streamingFrom pushed (next + 1) (responses ++ [.line (skipped 1)])) := by
  obtain ⟨pushed, hlines, hexec⟩ := push_lines count (streamingFrom log next responses)
  have hpushed : machine.Reachable (streamingFrom pushed next responses) := h.exec hexec
  have hlength : (streamingFrom pushed next responses).lines.length =
      next + subscriberCapacity + 1 := by
    change pushed.lines.length = _
    rw [hlines, List.length_append, List.length_replicate]
    exact hcount
  have hstep := step_recv_lagged
    (show (streamingFrom pushed next responses).pc = .streaming from rfl)
    (show next + subscriberCapacity < _ by omega)
  have hnext : next + subscriberCapacity + 1 - subscriberCapacity = next + 1 := by omega
  have hone : next + 1 - (streamingFrom pushed next responses).next = 1 :=
    Nat.add_sub_cancel_left ..
  rw [hlength, hnext, hone] at hstep
  exact ⟨pushed, hlines, .step hpushed trivial hstep⟩

/-- Such a follower comes to its answer once the run is left. -/
theorem streaming_answers {log : LogStream} {next : ℕ} {responses : List Response}
    (h : machine.Reachable (streamingFrom log next responses)) : ∃ actions follow more,
      machine.exec (streamingFrom log next responses) (.leave .dropped :: actions) =
        some follow ∧
      follow.pc = .answered .dropped ∧ follow.lines = log.lines ∧ follow.start = 0 ∧
      follow.responses = .started ⟨"run-1".toList⟩ [] :: (responses ++ more) := by
  let behind := streamingFrom log next responses
  let draining : Follow :=
    { behind with pc := .draining .dropped, current := behind.current.leave .dropped }
  have hdrains : machine.exec behind [.leave .dropped, .seesEnd] = some draining := rfl
  have hnext : draining.next ≤ draining.lines.length :=
    (inv_of_reachable (h.exec hdrains)).told.2.1
  obtain ⟨actions, follow, more, hexec, hpc, hcurrent, hstart, hresponses⟩ :=
    answers draining hnext rfl
  refine ⟨.seesEnd :: actions, follow, more, ?_, hpc, ?_, hstart, hresponses⟩
  · change machine.exec behind ([.leave .dropped, .seesEnd] ++ actions) = _
    rw [Machine.exec_append, hdrains]
    exact hexec
  · rw [lines, hcurrent]
    rfl

theorem streaming_reachable : machine.Reachable (streamingFrom .new 0 []) :=
  entered_reachable.exec (show machine.exec entered [.start, .subscribe, .replay] = _ from rfl)

/-- **A follower misses nothing silently.**  Before its one terminal response it sends the longest
suffix of the lines pushed before it subscribed that the history has room for, and then accounts in
order for every line pushed from there on: each is sent once, or lies in a block that consecutive
skip notes count exactly.  Every line pushed before the run was left is among those accounted
for. -/
theorem follow_accounts (h : machine.Reachable follow) :
    (∀ ended, follow.pc = .answered ended → follow.current.state = .finished ended ∧
      follow.start ≤ follow.next ∧ follow.next ≤ follow.lines.length ∧
      ∃ replay deliveries, Replay (follow.lines.take follow.start) replay ∧
        Covers deliveries (between follow.lines follow.start follow.next) ∧
        follow.responses = .started follow.current.runId follow.current.dashboardUrl ::
          (replay.map .line ++ deliveries.map response ++ [terminal ended])) ∧
    ∀ ended actions next, machine.exec follow (.leave ended :: actions) = some next →
      ∀ answered, next.pc = .answered answered → follow.lines.length ≤ next.next := by
  refine ⟨fun ended hpc ↦ ?_, fun ended actions next hexec answered hpc ↦ ?_⟩
  · have hinv := inv_of_reachable h
    have htold := hinv.told
    simp only [Told, hpc] at htold
    exact ⟨hinv.finished ended (.inr hpc), htold⟩
  · exact (caught_after_leave h hexec).answered answered hpc

/-- A client that is told of a lost line, of the others, and of the end. -/
theorem follow_accounts_lagging : ∃ follow, machine.Reachable follow ∧
    follow.pc = .answered .dropped ∧ 1025 ≤ follow.next ∧ ∃ replay deliveries more,
      Replay (follow.lines.take follow.start) replay ∧
      Covers deliveries (between follow.lines follow.start follow.next) ∧
      follow.responses = .started follow.current.runId follow.current.dashboardUrl ::
        (replay.map .line ++ deliveries.map response ++ [terminal .dropped]) ∧
      follow.responses = .started ⟨"run-1".toList⟩ [] :: .line (skipped 1) :: more := by
  obtain ⟨log, hlines, hreach⟩ := lags_once streaming_reachable 1025 rfl
  obtain ⟨actions, follow, more, hexec, hpc, -, -, hresponses⟩ := streaming_answers hreach
  have hcount : log.lines.length = 1025 := by
    rw [hlines, List.length_append, List.length_replicate]
    rfl
  have hcaught : log.lines.length ≤ follow.next := (follow_accounts hreach).2 _ _ _ hexec _ hpc
  rw [hcount] at hcaught
  obtain ⟨-, -, -, replay, deliveries, hreplay, hcovers, htold⟩ :=
    (follow_accounts (hreach.exec hexec)).1 _ hpc
  exact ⟨follow, hreach.exec hexec, hpc, hcaught, replay, deliveries, more, hreplay, hcovers,
    htold, hresponses⟩

/-! ## One lost block, two notes

A follower told of a lag has not yet read on when more lines push the ring further, so the same
block of lost lines is reported by a second note. -/

/-- No two skip notes are adjacent. -/
def OneNote (deliveries : List (Delivery Text)) : Prop :=
  ∀ before first second after, deliveries ≠ before ++ .skipped first :: .skipped second :: after

/-- A client is told twice, in a row, that one line was skipped. -/
theorem lags_twice : ∃ log : LogStream, (∀ line ∈ log.lines, line = ['a']) ∧
    machine.Reachable (streamingFrom log 2 [.line (skipped 1), .line (skipped 1)]) := by
  obtain ⟨first, hfirst, honce⟩ := lags_once streaming_reachable 1025 rfl
  have hfirst' : first.lines = List.replicate 1025 ['a'] := hfirst
  obtain ⟨second, hsecond, htwice⟩ := lags_once honce 1 (by
    rw [hfirst', List.length_replicate]
    rfl)
  refine ⟨second, fun line hline ↦ ?_, htwice⟩
  rw [hsecond, hfirst', List.mem_append] at hline
  exact hline.elim List.eq_of_mem_replicate List.eq_of_mem_replicate

/-- Where every line is "a", only a skip note reads "... 1 lines skipped". -/
theorem skipped_of_response {deliveries : List (Delivery Text)} {lines : List Text} {start next : ℕ}
    (hlines : ∀ line ∈ lines, line = ['a']) (hcovers : Covers deliveries (between lines start next))
    {delivery : Delivery Text} (hmem : delivery ∈ deliveries)
    (hresponse : response delivery = .line (skipped 1)) : ∃ missed, delivery = .skipped missed := by
  cases delivery with
  | skipped missed => exact ⟨missed, rfl⟩
  | item text =>
      have htext : text = ['a'] := hlines text (mem_of_mem_between (hcovers.mem hmem))
      rw [htext] at hresponse
      cases hresponse

/-- One block of lost lines is reported by two notes: no reading of what the client was told gives
each lost block one note. -/
theorem lag_noted_twice : ∃ (follow : Follow) (ended : RunEnd), machine.Reachable follow ∧
    follow.pc = .answered ended ∧
      ¬ ∃ replay deliveries, replay <:+ kept (follow.lines.take follow.start) ∧
        Covers deliveries (between follow.lines follow.start follow.next) ∧ OneNote deliveries ∧
        follow.responses = .started follow.current.runId follow.current.dashboardUrl ::
          (replay.map .line ++ deliveries.map response ++ [terminal ended]) := by
  obtain ⟨log, hlines, hreach⟩ := lags_twice
  obtain ⟨actions, follow, more, hexec, hpc, hsame, hstart, hresponses⟩ := streaming_answers hreach
  refine ⟨follow, .dropped, hreach.exec hexec, hpc, ?_⟩
  rintro ⟨replay, deliveries, hreplay, hcovers, hone, htold⟩
  have hlines' : ∀ line ∈ follow.lines, line = ['a'] := by
    rw [hsame]
    exact hlines
  have hnone : replay = [] := by
    rw [hstart, List.take_zero] at hreplay
    exact List.suffix_nil.mp hreplay
  have hnotes : deliveries.map response ++ [terminal .dropped] =
      .line (skipped 1) :: .line (skipped 1) :: more := by
    rw [hresponses, hnone] at htold
    exact (List.cons.inj htold).2.symm
  match deliveries with
  | [] => cases hnotes
  | [delivery] => simp [terminal] at hnotes
  | first :: second :: rest =>
      simp only [List.map_cons, List.cons_append, List.cons.injEq] at hnotes
      obtain ⟨hfirst, hsecond, -⟩ := hnotes
      obtain ⟨missed, rfl⟩ := skipped_of_response hlines' hcovers (by simp) hfirst
      obtain ⟨again, rfl⟩ := skipped_of_response hlines' hcovers (by simp) hsecond
      exact hone [] missed again rest rfl

end Follow

end RalphexRunner
