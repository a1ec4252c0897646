import RalphexRunner.Agent.Slot
import RalphexRunner.Semantics.Fairness
import RalphexRunner.Semantics.Mailbox

/-!
# Who ends a run from outside

Two tasks send terminals to a run: `beat`, which renews the lease and passes on what the farm
answers, and `drain_after`, which gives up on a run once a shutdown has waited for it.  `execute`
receives them in two places only, and on most of its ways to the end it receives none while both
senders live on.

What a task has sent is read off where it stands: `beat` sends one cancel and one last terminal at
most, `drain_after` one drain.  The three fit the channel, so no send ever waits, and a heartbeat is
held up by nothing but its own answer and the interval behind it.  A drain may follow the last
terminal of `beat` in the channel: the senders know nothing of each other.
-/

namespace RalphexRunner

def terminalCapacity : ℕ := 8

/-- What the farm's answer to a heartbeat asks for. -/
inductive HeartbeatAction where
  | none
  | cancel
  deriving DecidableEq

/-- Where `beat` stands. -/
inductive BeatStage where
  | asking
  | canceling
  | leaving (last : Terminal)
  | sleeping
  deriving DecidableEq

structure Beat where
  stage : BeatStage
  canceled : Bool
  deriving DecidableEq

namespace Beat

def hears (beat : Beat) : Except FarmError HeartbeatAction → Beat
  | .ok .none => { beat with stage := .sleeping }
  | .ok .cancel => { beat with stage := if beat.canceled then .sleeping else .canceling }
  | .error .gone => { beat with stage := .leaving .gone }
  | .error (.versionMismatch message) => { beat with stage := .leaving (.versionMismatch message) }
  | .error (.badRequest _) => { beat with stage := .sleeping }
  | .error (.rejected _ _) => { beat with stage := .sleeping }
  | .error (.transport _) => { beat with stage := .sleeping }
  | .error (.decode _) => { beat with stage := .sleeping }

/-- The terminal under way. -/
def sending (beat : Beat) : Option Terminal :=
  match beat.stage with
  | .canceling => some .cancel
  | .leaving last => some last
  | .asking | .sleeping => none

/-- The task behind its send. -/
def sent (beat : Beat) : Task Beat :=
  match beat.stage with
  | .leaving _ => .ended
  | .asking | .canceling | .sleeping => .running ⟨.sleeping, true⟩

end Beat

/-- Where `drain_after` stands. -/
inductive DrainStage where
  | raising
  | timing
  | sending
  deriving DecidableEq

/-- The watch of the shutdown as a receiver sees it: its value, whether the receiver still has to
notice it, and whether its sender is there. -/
structure ShutdownWatch where
  value : Shutdown
  unseen : Bool
  attached : Bool

/-- A turn of `raised` or of `hurried` over a value that is not the one it waits for: a change is
noticed, or the sender is gone, which ends the loop.  `none` while neither. -/
def ShutdownWatch.changed (shutdown : ShutdownWatch) : Option (Bool × ShutdownWatch) :=
  if shutdown.unseen then some (true, { shutdown with unseen := false })
  else if shutdown.attached then none
  else some (false, shutdown)

/-- Where `execute`, and `serve_run` behind it, stands with its receiver. -/
inductive Hearing where
  | preparing
  | watching
  | listening
  | unwatching
  | finishing
  | deaf
  | reporting
  | left
  deriving DecidableEq

inductive Sender where
  | beat
  | drainAfter
  deriving DecidableEq

/-- The senders of a run's terminals and their receiver.  How many heartbeats were sent and which
terminals, by whom, is not in the source. -/
structure Terminals where
  hearing : Hearing
  mailbox : Mailbox Terminal
  beat : Task Beat
  drain : Option (Task DrainStage)
  shutdown : ShutdownWatch
  beats : ℕ
  sent : List (Sender × Terminal)

namespace Terminals

/-- A run whose `beat` has just been spawned. -/
def start (shutdown : ShutdownWatch) : Terminals where
  hearing := .preparing
  mailbox := .new terminalCapacity
  beat := .running ⟨.asking, false⟩
  drain := none
  shutdown := shutdown
  beats := 1
  sent := []

def answers (terminals : Terminals) (answer : Except FarmError HeartbeatAction) :
    Option Terminals :=
  match terminals.beat with
  | .running ⟨.asking, canceled⟩ =>
      some { terminals with beat := .running (Beat.hears ⟨.asking, canceled⟩ answer) }
  | _ => none

def beatSends (terminals : Terminals) : Option Terminals :=
  match terminals.beat with
  | .running beat =>
      beat.sending.bind fun terminal ↦ (terminals.mailbox.send terminal).map fun mailbox ↦
        { terminals with
          mailbox
          beat := beat.sent
          sent := terminals.sent ++ [(.beat, terminal)] }
  | _ => none

/-- The interval is over and the next heartbeat is sent. -/
def wakes (terminals : Terminals) : Option Terminals :=
  match terminals.beat with
  | .running ⟨.sleeping, canceled⟩ =>
      some { terminals with
        beat := .running ⟨.asking, canceled⟩
        beats := terminals.beats + 1 }
  | _ => none

def signals (terminals : Terminals) : Terminals :=
  { terminals with
    shutdown := { terminals.shutdown with
      value := hasten terminals.shutdown.value
      unseen := true } }

/-- The sender of the shutdown is dropped. -/
def detaches (terminals : Terminals) : Terminals :=
  { terminals with shutdown := { terminals.shutdown with attached := false } }

/-- A turn of `raised`, and what follows it. -/
def raises (terminals : Terminals) : Option Terminals :=
  match terminals.drain with
  | some (.running .raising) =>
      if terminals.shutdown.value.raised then
        some { terminals with
          drain := some (.running
            (if terminals.shutdown.value = .hurry then .sending else .timing)) }
      else
        terminals.shutdown.changed.map fun changed ↦ { terminals with
          shutdown := changed.2
          drain := some (if changed.1 then .running .raising else .ended) }
  | _ => none

/-- The drain timeout is over. -/
def elapses (terminals : Terminals) : Option Terminals :=
  match terminals.drain with
  | some (.running .timing) => some { terminals with drain := some (.running .sending) }
  | _ => none

/-- A turn of `hurried`. -/
def hurries (terminals : Terminals) : Option Terminals :=
  match terminals.drain with
  | some (.running .timing) =>
      if terminals.shutdown.value = .hurry then
        some { terminals with drain := some (.running .sending) }
      else
        terminals.shutdown.changed.map fun changed ↦ { terminals with
          shutdown := changed.2
          drain := some (.running (if changed.1 then .timing else .sending)) }
  | _ => none

def drainSends (terminals : Terminals) : Option Terminals :=
  match terminals.drain with
  | some (.running .sending) =>
      (terminals.mailbox.send .drain).map fun mailbox ↦ { terminals with
        mailbox
        drain := some .ended
        sent := terminals.sent ++ [(.drainAfter, .drain)] }
  | _ => none

/-- A run that is refused or invalid ends before `drain_after` is spawned. -/
def refuses (terminals : Terminals) : Option Terminals :=
  match terminals.hearing with
  | .preparing => some { terminals with hearing := .reporting, mailbox := terminals.mailbox.drop }
  | _ => none

def watches (terminals : Terminals) : Option Terminals :=
  match terminals.hearing with
  | .preparing => some { terminals with hearing := .watching, drain := some (.running .raising) }
  | _ => none

/-- The child is spawned, or it is not and `drain_after` is aborted. -/
def spawns (terminals : Terminals) (spawned : Bool) : Option Terminals :=
  match terminals.hearing with
  | .watching =>
      if spawned then some { terminals with hearing := .listening }
      else some { terminals with hearing := .deaf, drain := terminals.drain.map Task.abort }
  | _ => none

/-- `ended` takes the exit status. -/
def exits (terminals : Terminals) : Option Terminals :=
  match terminals.hearing with
  | .listening =>
      some { terminals with hearing := .unwatching, drain := terminals.drain.map Task.abort }
  | _ => none

def unwatched (terminals : Terminals) : Option Terminals :=
  match terminals.hearing with
  | .unwatching => some { terminals with hearing := .finishing }
  | _ => none

/-- A select takes a terminal: the one of `ended`, or the one of the loop around `finish`. -/
def takes (terminals : Terminals) : Option Terminals :=
  terminals.mailbox.recv.bind fun received ↦
    let taken := { terminals with mailbox := received.2 }
    match terminals.hearing with
    | .listening =>
        some { taken with hearing := .deaf, drain := terminals.drain.map Task.abort }
    | .finishing =>
        some { taken with hearing := if received.1 = .drain then .finishing else .deaf }
    | _ => none

/-- `execute` returns and drops its receiver; the completion is reported, if there is one. -/
def returns (terminals : Terminals) : Option Terminals :=
  match terminals.hearing with
  | .finishing | .deaf =>
      some { terminals with hearing := .reporting, mailbox := terminals.mailbox.drop }
  | _ => none

/-- The report is over, however long it was retried, and `beat` is aborted. -/
def leaves (terminals : Terminals) : Option Terminals :=
  match terminals.hearing with
  | .reporting => some { terminals with hearing := .left, beat := terminals.beat.abort }
  | _ => none

/-! ## Every interleaving -/

inductive Action where
  | answers (answer : Except FarmError HeartbeatAction)
  | beatSends
  | wakes
  | signals
  | detaches
  | raises
  | elapses
  | hurries
  | drainSends
  | refuses
  | watches
  | spawns (spawned : Bool)
  | exits
  | unwatched
  | takes
  | returns
  | leaves

def step (terminals : Terminals) : Action → Option Terminals
  | .answers answer => terminals.answers answer
  | .beatSends => terminals.beatSends
  | .wakes => terminals.wakes
  | .signals => some terminals.signals
  | .detaches => some terminals.detaches
  | .raises => terminals.raises
  | .elapses => terminals.elapses
  | .hurries => terminals.hurries
  | .drainSends => terminals.drainSends
  | .refuses => terminals.refuses
  | .watches => terminals.watches
  | .spawns spawned => terminals.spawns spawned
  | .exits => terminals.exits
  | .unwatched => terminals.unwatched
  | .takes => terminals.takes
  | .returns => terminals.returns
  | .leaves => terminals.leaves

def machine : Machine Terminals Action where
  init terminals := ∃ shutdown, terminals = start shutdown
  step := step

/-- What one of the senders has sent of all that was sent, in order. -/
def said (sent : List (Sender × Terminal)) (sender : Sender) : List Terminal :=
  (sent.filter (·.1 = sender)).map (·.2)

def sentBy (terminals : Terminals) (sender : Sender) : List Terminal :=
  said terminals.sent sender

def sending (terminals : Terminals) : Sender → Option Terminal
  | .beat =>
      match terminals.beat with
      | .running beat => beat.sending
      | .ended | .aborted => none
  | .drainAfter => if terminals.drain = some (.running .sending) then some .drain else none

end Terminals

/-- What `beat` has sent where it stands: a cancel, if it passed one on, and one silent terminal
where it returned. -/
def Beat.Said : Task Beat → List Terminal → Prop
  | .running beat, said =>
      said = (if beat.canceled then [.cancel] else []) ∧
        (beat.stage = .canceling → beat.canceled = false) ∧
          ∀ last, beat.stage = .leaving last → last.Silent
  | .ended, said => ∃ last, last.Silent ∧ (said = [last] ∨ said = [.cancel, last])
  | .aborted, said => said = [] ∨ said = [.cancel]

/-- What `drain_after` has sent where it stands: its drain where it returned, unless its sender went
first. -/
def DrainStage.Said : Option (Task DrainStage) → List Terminal → Prop
  | some .ended, said => said = [] ∨ said = [.drain]
  | some (.running _), said | some .aborted, said | none, said => said = []

section Said

variable {beat : Beat} {task : Task Beat} {drain : Option (Task DrainStage)} {said : List Terminal}

theorem Beat.Said.sleeps (h : Beat.Said (.running beat) said) :
    Beat.Said (.running { beat with stage := .sleeping }) said :=
  ⟨h.1, fun hstage ↦ (by cases hstage), fun _ hstage ↦ by cases hstage⟩

theorem Beat.Said.asks (h : Beat.Said (.running beat) said) :
    Beat.Said (.running { beat with stage := .asking }) said :=
  ⟨h.1, fun hstage ↦ (by cases hstage), fun _ hstage ↦ by cases hstage⟩

theorem Beat.Said.leaves (h : Beat.Said (.running beat) said) {last : Terminal}
    (hsilent : last.Silent) : Beat.Said (.running { beat with stage := .leaving last }) said :=
  ⟨h.1, fun hstage ↦ (by cases hstage),
    fun other hstage ↦ BeatStage.leaving.inj hstage ▸ hsilent⟩

/-- An answer says nothing itself; it decides what is said next. -/
theorem Beat.Said.hears (h : Beat.Said (.running beat) said)
    (answer : Except FarmError HeartbeatAction) :
    Beat.Said (.running (beat.hears answer)) said := by
  cases answer with
  | ok action =>
      cases action with
      | none => exact h.sleeps
      | cancel =>
          obtain ⟨stage, canceled⟩ := beat
          cases canceled with
          | false => exact ⟨h.1, fun _ ↦ rfl, fun _ hstage ↦ by cases hstage⟩
          | true => exact h.sleeps
  | error error =>
      cases error with
      | gone => exact h.leaves trivial
      | versionMismatch message => exact h.leaves trivial
      | badRequest body => exact h.sleeps
      | rejected status body => exact h.sleeps
      | transport message => exact h.sleeps
      | decode message => exact h.sleeps

/-- What the task was about to say it has said. -/
theorem Beat.Said.sends (h : Beat.Said (.running beat) said) {terminal : Terminal}
    (hsending : beat.sending = some terminal) : Beat.Said beat.sent (said ++ [terminal]) := by
  obtain ⟨hsaid, hcancels, hleaves⟩ := h
  obtain ⟨stage, canceled⟩ := beat
  cases stage with
  | asking => cases hsending
  | sleeping => cases hsending
  | canceling =>
      obtain rfl : canceled = false := hcancels rfl
      obtain rfl : Terminal.cancel = terminal := Option.some.inj hsending
      rw [hsaid]
      exact ⟨rfl, fun hstage ↦ absurd hstage (by decide), fun _ hstage ↦ by cases hstage⟩
  | leaving last =>
      obtain rfl : last = terminal := Option.some.inj hsending
      refine ⟨last, hleaves last rfl, ?_⟩
      cases canceled with
      | false => exact .inl (by rw [hsaid]; rfl)
      | true => exact .inr (by rw [hsaid]; rfl)

theorem Beat.Said.abort (h : Beat.Said task said) : Beat.Said task.abort said := by
  cases task with
  | running beat =>
      obtain ⟨stage, canceled⟩ := beat
      cases canceled with
      | false => exact .inl h.1
      | true => exact .inr h.1
  | ended => exact h
  | aborted => exact h

/-- Two terminals at most: a cancel, and behind it one that is the last. -/
theorem Beat.Said.cases (h : Beat.Said task said) : said = [] ∨ said = [.cancel] ∨
    ∃ last, last.Silent ∧ task = .ended ∧ (said = [last] ∨ said = [.cancel, last]) := by
  cases task with
  | running beat =>
      obtain ⟨stage, canceled⟩ := beat
      cases canceled with
      | false => exact .inl h.1
      | true => exact .inr (.inl h.1)
  | ended =>
      obtain ⟨last, hsilent, hsaid⟩ := h
      exact .inr (.inr ⟨last, hsilent, rfl, hsaid⟩)
  | aborted => exact h.imp_right .inl

theorem Beat.Said.count_cancel_le (h : Beat.Said task said) : said.count .cancel ≤ 1 := by
  rcases h.cases with rfl | rfl | ⟨last, hsilent, -, rfl | rfl⟩
  · exact Nat.zero_le 1
  · exact Nat.le_refl 1
  · exact List.count_le_length
  · have hother : last ≠ .cancel := fun heq ↦ (heq ▸ hsilent : Terminal.cancel.Silent)
    rw [List.count_cons_self, List.count_cons_of_ne hother]
    exact Nat.le_refl 1

/-- A silent terminal is the last one. -/
theorem Beat.Said.eq_nil_of_silent {front back : List Terminal} {last : Terminal}
    (h : Beat.Said task (front ++ last :: back)) (hsilent : last.Silent) : back = [] := by
  have hcancel : ¬ Terminal.cancel.Silent := id
  rcases h.cases with hsaid | hsaid | ⟨other, -, -, hsaid | hsaid⟩
  · exact absurd hsaid (by simp)
  · cases front with
    | nil => exact (List.cons.inj hsaid).2
    | cons first front => exact absurd (List.cons.inj hsaid).2 (by simp)
  · cases front with
    | nil => exact (List.cons.inj hsaid).2
    | cons first front => exact absurd (List.cons.inj hsaid).2 (by simp)
  · cases front with
    | nil => exact absurd ((List.cons.inj hsaid).1 ▸ hsilent) hcancel
    | cons first front =>
        cases front with
        | nil => exact (List.cons.inj (List.cons.inj hsaid).2).2
        | cons second front =>
            exact absurd (List.cons.inj (List.cons.inj hsaid).2).2 (by simp)

theorem DrainStage.Said.abort (h : DrainStage.Said drain said) :
    DrainStage.Said (drain.map Task.abort) said := by
  cases drain with
  | none => exact h
  | some task => cases task <;> exact h

theorem DrainStage.Said.eq_or (h : DrainStage.Said drain said) : said = [] ∨ said = [.drain] := by
  cases drain with
  | none => exact .inl h
  | some task =>
      cases task with
      | running stage => exact .inl h
      | ended => exact h
      | aborted => exact .inl h

theorem DrainStage.Said.length_le (h : DrainStage.Said drain said) : said.length ≤ 1 := by
  rcases h.eq_or with rfl | rfl
  · exact Nat.zero_le 1
  · exact Nat.le_refl 1

end Said

namespace Terminals

/-- The steps of `beat`. -/
def Action.ByBeat : Action → Prop
  | .answers _ | .beatSends | .wakes => True
  | _ => False

/-- What a step comes to: `beat` hears, sends or goes on, `drain_after` goes on or sends, the watch
of the shutdown changes, or the receiver moves. -/
inductive Effect (terminals : Terminals) : Action → Terminals → Prop
  | answers {canceled : Bool} (answer : Except FarmError HeartbeatAction) :
      terminals.beat = .running ⟨.asking, canceled⟩ →
        Effect terminals (.answers answer)
          { terminals with beat := .running (Beat.hears ⟨.asking, canceled⟩ answer) }
  | beatSends {beat : Beat} {terminal : Terminal} {mailbox : Mailbox Terminal} :
      terminals.beat = .running beat → beat.sending = some terminal →
        terminals.mailbox.send terminal = some mailbox →
          Effect terminals .beatSends
            { terminals with
              mailbox
              beat := beat.sent
              sent := terminals.sent ++ [(.beat, terminal)] }
  | wakes {canceled : Bool} : terminals.beat = .running ⟨.sleeping, canceled⟩ →
      Effect terminals .wakes
        { terminals with beat := .running ⟨.asking, canceled⟩, beats := terminals.beats + 1 }
  | watched {action : Action} (shutdown : ShutdownWatch) : ¬ action.ByBeat →
      Effect terminals action { terminals with shutdown }
  | drains {action : Action} {stage : DrainStage} (shutdown : ShutdownWatch)
      (drain : Task DrainStage) : ¬ action.ByBeat → terminals.drain = some (.running stage) →
        DrainStage.Said (some drain) [] →
          Effect terminals action { terminals with shutdown, drain := some drain }
  | drainSends {stage : DrainStage} {mailbox : Mailbox Terminal} :
      terminals.drain = some (.running stage) → terminals.mailbox.send .drain = some mailbox →
        Effect terminals .drainSends
          { terminals with
            mailbox
            drain := some .ended
            sent := terminals.sent ++ [(.drainAfter, .drain)] }
  | spawned : terminals.hearing = .preparing →
      Effect terminals .watches
        { terminals with hearing := .watching, drain := some (.running .raising) }
  | moved {action : Action} (hearing : Hearing) : ¬ action.ByBeat → terminals.hearing ≠ .left →
      hearing ≠ .preparing → Effect terminals action { terminals with hearing }
  | aborted {action : Action} (hearing : Hearing) : ¬ action.ByBeat →
      terminals.hearing ≠ .left → hearing ≠ .preparing →
        Effect terminals action
          { terminals with hearing, drain := terminals.drain.map Task.abort }
  | received {terminal : Terminal} {mailbox : Mailbox Terminal} (hearing : Hearing)
      (drain : Option (Task DrainStage)) : terminals.mailbox.recv = some (terminal, mailbox) →
        terminals.hearing ≠ .left → hearing ≠ .preparing →
          (drain = terminals.drain ∨ drain = terminals.drain.map Task.abort) →
            Effect terminals .takes { terminals with mailbox, hearing, drain }
  | dropped {action : Action} : ¬ action.ByBeat → terminals.hearing ≠ .left →
      Effect terminals action
        { terminals with hearing := .reporting, mailbox := terminals.mailbox.drop }
  | left : terminals.hearing ≠ .left →
      Effect terminals .leaves { terminals with hearing := .left, beat := terminals.beat.abort }

section Effect

variable {terminals next : Terminals} {action : Action}

theorem Effect.of_answers {answer : Except FarmError HeartbeatAction}
    (h : terminals.answers answer = some next) : Effect terminals (.answers answer) next := by
  unfold Terminals.answers at h
  split at h
  · rename_i canceled hbeat
    rw [← Option.some.inj h]
    exact .answers answer hbeat
  · exact absurd h (Option.some_ne_none next).symm

theorem Effect.of_beatSends (h : terminals.beatSends = some next) :
    Effect terminals .beatSends next := by
  unfold Terminals.beatSends at h
  split at h
  · rename_i beat hbeat
    obtain ⟨terminal, hsending, hmap⟩ := Option.bind_eq_some_iff.mp h
    obtain ⟨mailbox, hmailbox, rfl⟩ := Option.map_eq_some_iff.mp hmap
    exact .beatSends hbeat hsending hmailbox
  · exact absurd h (Option.some_ne_none next).symm

theorem Effect.of_wakes (h : terminals.wakes = some next) : Effect terminals .wakes next := by
  unfold Terminals.wakes at h
  split at h
  · rename_i canceled hbeat
    rw [← Option.some.inj h]
    exact .wakes hbeat
  · exact absurd h (Option.some_ne_none next).symm

theorem Effect.of_raises (h : terminals.raises = some next) : Effect terminals .raises next := by
  unfold raises at h
  split at h
  · rename_i hdrain
    split at h
    · rw [← Option.some.inj h]
      exact .drains terminals.shutdown _ id hdrain rfl
    · obtain ⟨⟨noticed, shutdown⟩, -, rfl⟩ := Option.map_eq_some_iff.mp h
      cases noticed with
      | true => exact .drains shutdown _ id hdrain rfl
      | false => exact .drains shutdown _ id hdrain (.inl rfl)
  · exact absurd h (Option.some_ne_none next).symm

theorem Effect.of_elapses (h : terminals.elapses = some next) :
    Effect terminals .elapses next := by
  unfold elapses at h
  split at h
  · rename_i hdrain
    rw [← Option.some.inj h]
    exact .drains terminals.shutdown _ id hdrain rfl
  · exact absurd h (Option.some_ne_none next).symm

theorem Effect.of_hurries (h : terminals.hurries = some next) :
    Effect terminals .hurries next := by
  unfold hurries at h
  split at h
  · rename_i hdrain
    split at h
    · rw [← Option.some.inj h]
      exact .drains terminals.shutdown _ id hdrain rfl
    · obtain ⟨⟨noticed, shutdown⟩, -, rfl⟩ := Option.map_eq_some_iff.mp h
      exact .drains shutdown _ id hdrain rfl
  · exact absurd h (Option.some_ne_none next).symm

theorem Effect.of_drainSends (h : terminals.drainSends = some next) :
    Effect terminals .drainSends next := by
  unfold Terminals.drainSends at h
  split at h
  · rename_i hdrain
    obtain ⟨mailbox, hmailbox, rfl⟩ := Option.map_eq_some_iff.mp h
    exact .drainSends hdrain hmailbox
  · exact absurd h (Option.some_ne_none next).symm

theorem Effect.of_refuses (h : terminals.refuses = some next) :
    Effect terminals .refuses next := by
  unfold refuses at h
  split at h
  · rename_i hhearing
    rw [← Option.some.inj h]
    exact .dropped id (by rw [hhearing]; decide)
  · exact absurd h (Option.some_ne_none next).symm

theorem Effect.of_watches (h : terminals.watches = some next) :
    Effect terminals .watches next := by
  unfold watches at h
  split at h
  · rename_i hhearing
    rw [← Option.some.inj h]
    exact .spawned hhearing
  · exact absurd h (Option.some_ne_none next).symm

theorem Effect.of_spawns {spawned : Bool} (h : terminals.spawns spawned = some next) :
    Effect terminals (.spawns spawned) next := by
  unfold spawns at h
  split at h
  · rename_i hhearing
    have hleft : terminals.hearing ≠ .left := by rw [hhearing]; decide
    split at h
    · rw [← Option.some.inj h]
      exact .moved .listening id hleft (by decide)
    · rw [← Option.some.inj h]
      exact .aborted .deaf id hleft (by decide)
  · exact absurd h (Option.some_ne_none next).symm

theorem Effect.of_exits (h : terminals.exits = some next) : Effect terminals .exits next := by
  unfold exits at h
  split at h
  · rename_i hhearing
    rw [← Option.some.inj h]
    exact .aborted .unwatching id (by rw [hhearing]; decide) (by decide)
  · exact absurd h (Option.some_ne_none next).symm

theorem Effect.of_unwatched (h : terminals.unwatched = some next) :
    Effect terminals .unwatched next := by
  unfold unwatched at h
  split at h
  · rename_i hhearing
    rw [← Option.some.inj h]
    exact .moved .finishing id (by rw [hhearing]; decide) (by decide)
  · exact absurd h (Option.some_ne_none next).symm

theorem Effect.of_takes (h : terminals.takes = some next) : Effect terminals .takes next := by
  unfold takes at h
  obtain ⟨⟨terminal, mailbox⟩, hrecv, htaken⟩ := Option.bind_eq_some_iff.mp h
  simp only at htaken
  split at htaken
  · rename_i hhearing
    rw [← Option.some.inj htaken]
    exact .received .deaf _ hrecv (by rw [hhearing]; decide) (by decide) (.inr rfl)
  · rename_i hhearing
    rw [← Option.some.inj htaken]
    refine .received _ _ hrecv (by rw [hhearing]; decide) ?_ (.inl rfl)
    split <;> decide
  · exact absurd htaken (Option.some_ne_none next).symm

theorem Effect.of_returns (h : terminals.returns = some next) :
    Effect terminals .returns next := by
  unfold returns at h
  split at h
  · rename_i hhearing
    rw [← Option.some.inj h]
    exact .dropped id (by rw [hhearing]; decide)
  · rename_i hhearing
    rw [← Option.some.inj h]
    exact .dropped id (by rw [hhearing]; decide)
  · exact absurd h (Option.some_ne_none next).symm

theorem Effect.of_leaves (h : terminals.leaves = some next) : Effect terminals .leaves next := by
  unfold leaves at h
  split at h
  · rename_i hhearing
    rw [← Option.some.inj h]
    exact .left (by rw [hhearing]; decide)
  · exact absurd h (Option.some_ne_none next).symm

/-- A step has one of the effects on what was sent. -/
theorem Effect.of_step (h : terminals.step action = some next) : Effect terminals action next := by
  cases action with
  | answers answer => exact .of_answers h
  | beatSends => exact .of_beatSends h
  | wakes => exact .of_wakes h
  | signals => exact Option.some.inj h ▸ .watched _ id
  | detaches => exact Option.some.inj h ▸ .watched _ id
  | raises => exact .of_raises h
  | elapses => exact .of_elapses h
  | hurries => exact .of_hurries h
  | drainSends => exact .of_drainSends h
  | refuses => exact .of_refuses h
  | watches => exact .of_watches h
  | spawns spawned => exact .of_spawns h
  | exits => exact .of_exits h
  | unwatched => exact .of_unwatched h
  | takes => exact .of_takes h
  | returns => exact .of_returns h
  | leaves => exact .of_leaves h

end Effect

/-! ## The ledger -/

/-- Both senders have said what they say up to where they stand, and the channel has been sent
nothing else. -/
structure Ledger (terminals : Terminals) : Prop where
  beat : Beat.Said terminals.beat (terminals.sentBy .beat)
  drain : DrainStage.Said terminals.drain (terminals.sentBy .drainAfter)
  mailbox : terminals.mailbox.Within terminalCapacity terminals.sent.length
  unspawned : terminals.hearing = .preparing → terminals.drain = none
  aborted : terminals.beat = .aborted → terminals.hearing = .left

section Ledger

variable {terminals next : Terminals} {action : Action}

theorem said_append (sent more : List (Sender × Terminal)) (sender : Sender) :
    said (sent ++ more) sender = said sent sender ++ said more sender := by
  rw [said, List.filter_append, List.map_append, said, said]

/-- Whatever is sent is sent by one of the two. -/
theorem sent_perm (terminals : Terminals) : (terminals.sent.map (·.2)).Perm
    (terminals.sentBy .beat ++ terminals.sentBy .drainAfter) := by
  have hother : terminals.sent.filter (·.1 = .drainAfter) =
      terminals.sent.filter fun entry ↦ !decide (entry.1 = .beat) := by
    refine List.filter_congr fun entry _ ↦ ?_
    cases entry.1 <;> rfl
  rw [sentBy, sentBy, said, said, hother, ← List.map_append]
  exact ((List.filter_append_perm _ terminals.sent).map _).symm

theorem Ledger.start (shutdown : ShutdownWatch) : (start shutdown).Ledger :=
  ⟨⟨rfl, fun hstage ↦ (by cases hstage), fun _ hstage ↦ by cases hstage⟩, rfl, Mailbox.within_new,
    fun _ ↦ rfl, fun haborted ↦ by cases haborted⟩

/-- A running `beat` is not aborted. -/
theorem Ledger.said_running (h : terminals.Ledger) {beat : Beat}
    (hbeat : terminals.beat = .running beat) :
    Beat.Said (.running beat) (terminals.sentBy .beat) := by
  have hsaid := h.beat
  rwa [hbeat] at hsaid

/-- `drain_after` has said nothing while it runs, and it was spawned. -/
theorem Ledger.drain_running (h : terminals.Ledger) {stage : DrainStage}
    (hdrain : terminals.drain = some (.running stage)) :
    terminals.sentBy .drainAfter = [] ∧ terminals.hearing ≠ .preparing := by
  have hsaid := h.drain
  rw [hdrain] at hsaid
  refine ⟨hsaid, fun hpreparing ↦ ?_⟩
  exact absurd (hdrain.symm.trans (h.unspawned hpreparing)) (Option.some_ne_none _)

/-- Every step keeps the ledger. -/
theorem Ledger.step (h : terminals.Ledger) (heffect : Effect terminals action next) :
    next.Ledger := by
  cases heffect with
  | answers answer hbeat =>
      exact ⟨(h.said_running hbeat).hears answer, h.drain, h.mailbox, h.unspawned,
        fun haborted ↦ by cases haborted⟩
  | beatSends hbeat hsending hmailbox =>
      rename_i beat terminal mailbox
      refine ⟨?_, ?_, ?_, h.unspawned, fun haborted ↦ ?_⟩
      · rw [sentBy, said_append]
        exact (h.said_running hbeat).sends hsending
      · rw [sentBy, said_append]
        exact (List.append_nil _).symm ▸ h.drain
      · rw [List.length_append]
        exact h.mailbox.send hmailbox
      · obtain ⟨stage, canceled⟩ := beat
        cases stage <;> cases haborted
  | wakes hbeat =>
      have hsaid := (h.said_running hbeat).asks
      exact ⟨hsaid, h.drain, h.mailbox, h.unspawned, fun haborted ↦ by cases haborted⟩
  | watched shutdown hother => exact ⟨h.beat, h.drain, h.mailbox, h.unspawned, h.aborted⟩
  | drains shutdown drain hother hdrain hsaid =>
      obtain ⟨hnone, hspawned⟩ := h.drain_running hdrain
      exact ⟨h.beat, hnone.symm ▸ hsaid, h.mailbox,
        fun hpreparing ↦ absurd hpreparing hspawned, h.aborted⟩
  | drainSends hdrain hmailbox =>
      obtain ⟨hnone, hspawned⟩ := h.drain_running hdrain
      refine ⟨?_, ?_, ?_, fun hpreparing ↦ absurd hpreparing hspawned, h.aborted⟩
      · rw [sentBy, said_append]
        exact (List.append_nil _).symm ▸ h.beat
      · rw [sentBy, said_append]
        exact .inr (congrArg (· ++ [Terminal.drain]) hnone)
      · rw [List.length_append]
        exact h.mailbox.send hmailbox
  | spawned hpreparing =>
      have hnone := h.drain
      rw [h.unspawned hpreparing] at hnone
      exact ⟨h.beat, hnone, h.mailbox, fun hwatching ↦ (by cases hwatching),
        fun haborted ↦ by cases hpreparing.symm.trans (h.aborted haborted)⟩
  | moved hearing hother hleft hspawned =>
      exact ⟨h.beat, h.drain, h.mailbox, fun hpreparing ↦ absurd hpreparing hspawned,
        fun haborted ↦ absurd (h.aborted haborted) hleft⟩
  | aborted hearing hother hleft hspawned =>
      exact ⟨h.beat, h.drain.abort, h.mailbox, fun hpreparing ↦ absurd hpreparing hspawned,
        fun haborted ↦ absurd (h.aborted haborted) hleft⟩
  | received hearing drain hrecv hleft hspawned hdrain =>
      have hsaid : DrainStage.Said drain (terminals.sentBy .drainAfter) := by
        rcases hdrain with rfl | rfl
        · exact h.drain
        · exact h.drain.abort
      exact ⟨h.beat, hsaid, h.mailbox.recv hrecv, fun hpreparing ↦ absurd hpreparing hspawned,
        fun haborted ↦ absurd (h.aborted haborted) hleft⟩
  | dropped hother hleft =>
      exact ⟨h.beat, h.drain, h.mailbox.drop, fun hpreparing ↦ (by cases hpreparing),
        fun haborted ↦ absurd (h.aborted haborted) hleft⟩
  | left hleft =>
      exact ⟨h.beat.abort, h.drain, h.mailbox, fun hpreparing ↦ (by cases hpreparing),
        fun _ ↦ rfl⟩

theorem reachable_start (shutdown : ShutdownWatch) : machine.Reachable (start shutdown) :=
  .init ⟨shutdown, rfl⟩

/-- Every run keeps it. -/
theorem ledger_of_reachable (h : machine.Reachable terminals) : terminals.Ledger := by
  refine h.invariant _ ?_ fun state action next hledger _ hstep ↦ hledger.step (.of_step hstep)
  rintro state ⟨shutdown, rfl⟩
  exact .start shutdown

theorem Ledger.length_le (h : terminals.Ledger) :
    (terminals.sentBy .beat).length ≤ 2 ∧ (terminals.sentBy .drainAfter).length ≤ 1 := by
  refine ⟨?_, h.drain.length_le⟩
  rcases h.beat.cases with hnone | hcancel | ⟨last, -, -, hlast | hboth⟩
  · rw [hnone]
    exact Nat.zero_le 2
  · rw [hcancel]
    exact Nat.le_succ 1
  · rw [hlast]
    exact Nat.le_succ 1
  · rw [hboth]
    exact Nat.le_refl 2

theorem Ledger.length_sent_le (h : terminals.Ledger) : terminals.sent.length ≤ 3 := by
  obtain ⟨hbeat, hdrain⟩ := h.length_le
  have hlength := terminals.sent_perm.length_eq
  rw [List.length_map, List.length_append] at hlength
  rw [hlength]
  exact Nat.add_le_add hbeat hdrain

/-- There is room for whatever is being sent. -/
theorem Ledger.isSome_send (h : terminals.Ledger) (terminal : Terminal) :
    (terminals.mailbox.send terminal).isSome = true :=
  h.mailbox.isSome_send (Nat.lt_of_le_of_lt h.length_sent_le (by decide)) terminal

theorem mem_sentBy {sender : Sender} {terminal : Terminal}
    (h : (sender, terminal) ∈ terminals.sent) : terminal ∈ terminals.sentBy sender :=
  List.mem_map.mpr ⟨(sender, terminal), List.mem_filter.mpr ⟨h, decide_eq_true rfl⟩, rfl⟩

/-- `drain_after` sends nothing but its drain. -/
theorem Ledger.eq_drain (h : terminals.Ledger) {terminal : Terminal}
    (hmem : (.drainAfter, terminal) ∈ terminals.sent) : terminal = .drain := by
  have hin := mem_sentBy hmem
  rcases h.drain.eq_or with hnone | hdrain
  · rw [hnone] at hin
    exact absurd hin List.not_mem_nil
  · rw [hdrain] at hin
    exact List.mem_singleton.mp hin

/-- The last terminal of `beat` is followed by a drain at most. -/
theorem Ledger.behind_last (h : terminals.Ledger) {front back : List (Sender × Terminal)}
    {last : Terminal} (hsent : terminals.sent = front ++ (.beat, last) :: back)
    (hsilent : last.Silent) {later : Sender × Terminal} (hlater : later ∈ back) :
    later = (.drainAfter, .drain) := by
  have hsaid : terminals.sentBy .beat = said front .beat ++ last :: said back .beat := by
    rw [sentBy, hsent, said_append]
    rfl
  have hnone : said back .beat = [] := (hsaid ▸ h.beat).eq_nil_of_silent hsilent
  obtain ⟨sender, terminal⟩ := later
  cases sender with
  | beat =>
      have hmem : terminal ∈ said back .beat :=
        List.mem_map.mpr ⟨(.beat, terminal), List.mem_filter.mpr ⟨hlater, decide_eq_true rfl⟩, rfl⟩
      rw [hnone] at hmem
      exact absurd hmem List.not_mem_nil
  | drainAfter =>
      have hmem : (Sender.drainAfter, terminal) ∈ terminals.sent := by
        rw [hsent]
        exact List.mem_append_right _ (List.mem_cons_of_mem _ hlater)
      rw [h.eq_drain hmem]

theorem Ledger.count_cancel_le (h : terminals.Ledger) :
    (terminals.sent.map (·.2)).count .cancel ≤ 1 := by
  have hdrain : (terminals.sentBy .drainAfter).count .cancel = 0 := by
    rcases h.drain.eq_or with hnone | hone
    · rw [hnone]
      rfl
    · rw [hone]
      rfl
  rw [terminals.sent_perm.count_eq, List.count_append, hdrain, Nat.add_zero]
  exact h.beat.count_cancel_le

end Ledger

/-- No more heartbeats are owed: `beat` passed on that the run is gone, or the run is over. -/
def Over (terminals : Terminals) : Prop :=
  (∃ last ∈ terminals.sentBy .beat, last.Silent) ∨ terminals.hearing = .left

/-- The steps `beat` still takes before it sends the next heartbeat. -/
def BeatStage.rank : BeatStage → ℕ
  | .asking => 2
  | .canceling | .leaving _ => 1
  | .sleeping => 0

def rank (terminals : Terminals) : ℕ :=
  match terminals.beat with
  | .running beat => BeatStage.rank beat.stage
  | .ended | .aborted => 0

section Renewal

variable {terminals next : Terminals} {action : Action} {count : ℕ}

/-- The heartbeat `count` is the last one so far, and `beat` is still running. -/
structure Renewing (count : ℕ) (terminals : Terminals) : Prop where
  ledger : terminals.Ledger
  running : ¬ terminals.beat.Settled
  beats : terminals.beats = count

def Renewed (count : ℕ) (terminals : Terminals) : Prop :=
  count < terminals.beats ∨ Over terminals

theorem Ledger.over (h : terminals.Ledger) (hsettled : terminals.beat.Settled) :
    Over terminals := by
  have hsaid := h.beat
  cases hbeat : terminals.beat with
  | running beat =>
      rw [hbeat] at hsettled
      exact absurd hsettled id
  | ended =>
      rw [hbeat] at hsaid
      obtain ⟨last, hsilent, heq | heq⟩ := hsaid
      · exact .inl ⟨last, by rw [heq]; exact List.mem_singleton_self last, hsilent⟩
      · exact .inl ⟨last, by rw [heq]; exact List.mem_cons_of_mem _ (List.mem_singleton_self last),
          hsilent⟩
  | aborted => exact .inr (h.aborted hbeat)

theorem Renewing.beat (h : Renewing count terminals) : ∃ beat, terminals.beat = .running beat := by
  cases hbeat : terminals.beat with
  | running beat => exact ⟨beat, rfl⟩
  | ended => exact absurd (hbeat ▸ trivial : terminals.beat.Settled) h.running
  | aborted => exact absurd (hbeat ▸ trivial : terminals.beat.Settled) h.running

/-- `beat` can always go on, whether or not anything is received. -/
theorem Renewing.enabled (h : Renewing count terminals) :
    ∃ action next, Action.ByBeat action ∧ terminals.step action = some next := by
  obtain ⟨⟨stage, canceled⟩, hbeat⟩ := h.beat
  have hsends {terminal : Terminal} (hsending : Beat.sending ⟨stage, canceled⟩ = some terminal) :
      ∃ next, terminals.beatSends = some next := by
    obtain ⟨mailbox, hmailbox⟩ := Option.isSome_iff_exists.mp (h.ledger.isSome_send terminal)
    unfold beatSends
    rw [hbeat]
    simp only [hsending, Option.bind_some, hmailbox, Option.map_some]
    exact ⟨_, rfl⟩
  cases stage with
  | asking =>
      refine ⟨.answers (.ok .none),
        { terminals with beat := .running (Beat.hears ⟨.asking, canceled⟩ (.ok .none)) },
        trivial, ?_⟩
      change terminals.answers (.ok .none) = _
      unfold answers
      rw [hbeat]
  | canceling =>
      obtain ⟨next, hnext⟩ := hsends rfl
      exact ⟨.beatSends, next, trivial, hnext⟩
  | leaving last =>
      obtain ⟨next, hnext⟩ := hsends rfl
      exact ⟨.beatSends, next, trivial, hnext⟩
  | sleeping =>
      refine ⟨.wakes,
        { terminals with beat := .running ⟨.asking, canceled⟩, beats := terminals.beats + 1 },
        trivial, ?_⟩
      change terminals.wakes = _
      unfold wakes
      rw [hbeat]

theorem rank_eq {beat : Beat} (h : terminals.beat = .running beat) :
    terminals.rank = BeatStage.rank beat.stage := by
  rw [rank, h]

theorem rank_hears (canceled : Bool) (answer : Except FarmError HeartbeatAction) :
    BeatStage.rank (Beat.hears ⟨.asking, canceled⟩ answer).stage < BeatStage.rank .asking := by
  cases answer with
  | ok action =>
      cases action with
      | none => exact Nat.zero_lt_two
      | cancel => cases canceled <;> decide
  | error error => cases error <;> first | exact Nat.zero_lt_two | exact Nat.one_lt_two

/-- Every step renews the lease, ends `beat`, brings the next heartbeat nearer, or is not a step of
`beat`. -/
theorem Renewing.nears (h : Renewing count terminals) (hstep : machine.step terminals action =
    some next) : Machine.Endless.Nears (fun _ : Unit ↦ Action.ByBeat) (Renewing count)
      (Renewed count) rank (fun _ ↦ ()) terminals action next := by
  have heffect := Effect.of_step hstep
  have hledger := h.ledger.step heffect
  -- a step of another party leaves `beat` where it is
  have hrests (hother : ¬ action.ByBeat) (hbeat : next.beat = terminals.beat)
      (hbeats : next.beats = terminals.beats) : Machine.Endless.Nears
        (fun _ : Unit ↦ Action.ByBeat) (Renewing count) (Renewed count) rank (fun _ ↦ ()) terminals
        action next :=
    .inr ⟨⟨hledger, hbeat.symm ▸ h.running, hbeats.trans h.beats⟩,
      .inr ⟨by rw [rank, rank, hbeat], rfl, hother⟩⟩
  cases heffect with
  | answers answer hbeat =>
      refine .inr ⟨⟨hledger, id, h.beats⟩, .inl ?_⟩
      rw [rank_eq hbeat]
      exact rank_hears _ answer
  | beatSends hbeat hsending hmailbox =>
      rename_i beat terminal mailbox
      obtain ⟨stage, canceled⟩ := beat
      cases stage with
      | asking => cases hsending
      | sleeping => cases hsending
      | canceling =>
          refine .inr ⟨⟨hledger, id, h.beats⟩, .inl ?_⟩
          rw [rank_eq hbeat]
          exact Nat.zero_lt_one
      | leaving last => exact .inl (.inr (hledger.over trivial))
  | wakes hbeat => exact .inl (.inl (h.beats ▸ Nat.lt_succ_self _))
  | watched shutdown hother => exact hrests hother rfl rfl
  | drains shutdown drain hother hdrain hsaid => exact hrests hother rfl rfl
  | drainSends hdrain hmailbox => exact hrests id rfl rfl
  | spawned hpreparing => exact hrests id rfl rfl
  | moved hearing hother hleft hspawned => exact hrests hother rfl rfl
  | aborted hearing hother hleft hspawned => exact hrests hother rfl rfl
  | received hearing drain hrecv hleft hspawned hdrain => exact hrests id rfl rfl
  | dropped hother hleft => exact hrests hother rfl rfl
  | left hleft => exact .inl (.inr (.inr rfl))

/-- Where `beat` is not held up for ever, the next heartbeat is sent, unless none is owed. -/
theorem eventually_renewed {run : machine.Endless} (h : machine.Reachable (run.state 0))
    (hfair : run.Fair Action.ByBeat) (time : ℕ) :
    ∃ later ≥ time, Renewed (run.state time).beats (run.state later) := by
  have hreachable : ∀ time, machine.Reachable (run.state time) := by
    intro time
    induction time with
    | zero => exact h
    | succ time ih => exact .step ih trivial (run.steps time)
  have hledger := ledger_of_reachable (hreachable time)
  by_cases hsettled : (run.state time).beat.Settled
  · exact ⟨time, Nat.le_refl time, .inr (hledger.over hsettled)⟩
  · obtain ⟨later, hlater, hrenewed⟩ := Machine.Endless.eventually (fun _ ↦ hfair)
      (fun state hstate ↦ Renewing.enabled hstate)
      (fun state action next hstate hstep ↦ Renewing.nears hstate hstep)
      (⟨hledger, hsettled, rfl⟩ : Renewing (run.state time).beats (run.state time))
    exact ⟨later, Nat.le_of_lt hlater, hrenewed⟩

end Renewal

/-- The two senders of a run's terminals never wait, and the lease is renewed as long as the run
lasts, whatever the farm answers, however the daemon is shut down, and whether or not anything is
received. -/
theorem heartbeats_never_wait {terminals : Terminals} (h : machine.Reachable terminals) :
    ((terminals.sentBy .beat).length ≤ 2 ∧ (terminals.sentBy .drainAfter).length ≤ 1 ∧
        terminals.sent.length ≤ 3 ∧ 3 ≤ terminalCapacity) ∧
      (∀ sender terminal, terminals.sending sender = some terminal →
        (terminals.mailbox.send terminal).isSome = true) ∧
      (∀ run : machine.Endless, run.state 0 = terminals → run.Fair Action.ByBeat →
        ∀ time, ∃ later ≥ time, (run.state time).beats < (run.state later).beats ∨
          Over (run.state later)) ∧
      (terminals.sent.map (·.2)).count .cancel ≤ 1 ∧
      ∀ front last back, terminals.sent = front ++ (.beat, last) :: back → last.Silent →
        ∀ later ∈ back, later = (.drainAfter, .drain) := by
  have hledger := ledger_of_reachable h
  refine ⟨⟨hledger.length_le.1, hledger.length_le.2, hledger.length_sent_le, by decide⟩,
    fun _ terminal _ ↦ hledger.isSome_send terminal, ?_, hledger.count_cancel_le,
    fun front last back hsent hsilent later hlater ↦ hledger.behind_last hsent hsilent hlater⟩
  rintro run rfl hfair time
  exact eventually_renewed h hfair time

/-- A run nobody listened to: the farm cancels it and forgets it while a shutdown waits for it. -/
theorem heartbeats_never_wait_deaf : ∃ terminals, machine.Reachable terminals ∧
    terminals.hearing = .watching ∧
      terminals.sent = [(.beat, .cancel), (.beat, .gone), (.drainAfter, .drain)] ∧
      (((terminals.sentBy .beat).length ≤ 2 ∧ (terminals.sentBy .drainAfter).length ≤ 1 ∧
          terminals.sent.length ≤ 3 ∧ 3 ≤ terminalCapacity) ∧
        (∀ sender terminal, terminals.sending sender = some terminal →
          (terminals.mailbox.send terminal).isSome = true) ∧
        (∀ run : machine.Endless, run.state 0 = terminals → run.Fair Action.ByBeat →
          ∀ time, ∃ later ≥ time, (run.state time).beats < (run.state later).beats ∨
            Over (run.state later)) ∧
        (terminals.sent.map (·.2)).count .cancel ≤ 1 ∧
        ∀ front last back, terminals.sent = front ++ (.beat, last) :: back → last.Silent →
          ∀ later ∈ back, later = (.drainAfter, .drain)) := by
  have hexec : machine.exec (start ⟨.running, false, true⟩)
      [.watches, .answers (.ok .cancel), .beatSends, .wakes, .answers (.error .gone), .beatSends,
        .signals, .raises, .elapses, .drainSends] = some _ := rfl
  have hreachable := Machine.Reachable.exec (reachable_start _) hexec
  exact ⟨_, hreachable, rfl, rfl, heartbeats_never_wait hreachable⟩

/-- A drain is sent behind the last terminal of `beat`, before the run listens to either. -/
theorem drain_sent_behind_gone : ∃ terminals, machine.Reachable terminals ∧
    terminals.sent.map (·.2) = [.gone, .drain] := by
  have hexec : machine.exec (start ⟨.running, false, true⟩)
      [.watches, .answers (.error .gone), .beatSends, .signals, .raises, .elapses,
        .drainSends] = some _ := rfl
  have hreachable := Machine.Reachable.exec (reachable_start _) hexec
  exact ⟨_, hreachable, rfl⟩

end Terminals

end RalphexRunner
