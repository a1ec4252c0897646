import Mathlib.Tactic.Common

/-!
# A flag that is raised before its consumer is notified

Producers raise a flag behind a lock and notify the consumer once they have let go of it.  The
consumer prepares a wait, takes the flag, and begins the wait only where the flag was down.  A
notification that finds no wait begun is stored, and one is stored at most.

However the steps interleave, a raised flag is not slept on: the wait is over, or somebody still has
to notify.  `Signal.distance` counts the steps to the next taking of a raised flag; no step raises
it, and `Signal.helper` can always lower it.
-/

namespace RalphexRunner

/-- How far a wait has got. -/
inductive Waiter where
  | absent
  | registered
  | notified
  deriving DecidableEq

/-- What a consumer is notified through: the stored notification, and its wait. -/
structure Notify where
  permit : Bool
  waiter : Waiter
  deriving DecidableEq

namespace Notify

def new : Notify := ⟨false, .absent⟩

/-- Notify the wait that is registered, or store the notification. -/
def notifyOne (cell : Notify) : Notify :=
  match cell.waiter with
  | .registered => { cell with waiter := .notified }
  | .absent | .notified => { cell with permit := true }

/-- Poll the wait: whether it is over, and the cell after. -/
def poll (cell : Notify) : Bool × Notify :=
  match cell.waiter with
  | .notified => (true, { cell with waiter := .absent })
  | .registered => (false, cell)
  | .absent =>
      if cell.permit then (true, { cell with permit := false })
      else (false, { cell with waiter := .registered })

/-- A poll would find the wait over. -/
def Ready (cell : Notify) : Prop :=
  cell.waiter = .notified ∨ (cell.waiter = .absent ∧ cell.permit = true)

instance (cell : Notify) : Decidable cell.Ready := by unfold Ready; infer_instance

variable {cell : Notify}

theorem ready_notifyOne (cell : Notify) : cell.notifyOne.Ready := by
  obtain ⟨permit, waiter⟩ := cell
  cases waiter with
  | absent => exact .inr ⟨rfl, rfl⟩
  | registered => exact .inl rfl
  | notified => exact .inl rfl

/-- A poll says whether the wait is over, and registers it where it is not. -/
theorem poll_cases (cell : Notify) :
    (cell.Ready ∧ cell.poll.1 = true ∧ cell.poll.2.waiter = .absent) ∨
      (¬ cell.Ready ∧ cell.poll.1 = false ∧ cell.poll.2.waiter = .registered) := by
  obtain ⟨permit, waiter⟩ := cell
  cases waiter with
  | absent =>
      cases permit with
      | true => exact .inl ⟨.inr ⟨rfl, rfl⟩, rfl, rfl⟩
      | false => exact .inr ⟨by decide, rfl, rfl⟩
  | registered => exact .inr ⟨by simp [Ready], rfl, rfl⟩
  | notified => exact .inl ⟨.inl rfl, rfl, rfl⟩

end Notify

/-- Where the consumer stands. -/
inductive Consumer where
  | away
  | preparing
  | checking
  | waiting
  deriving DecidableEq

/-- A flag, the producers that raised it and still have to notify, and the consumer.  How often the
flag was raised, and how many of these times have been taken, is not in the state of the program. -/
structure Signal where
  raised : Bool
  cell : Notify
  owing : ℕ
  consumer : Consumer
  made : ℕ
  taken : ℕ
  deriving DecidableEq

namespace Signal

inductive Action where
  | raises
  | notifies
  | enters
  | prepares
  | checks
  | polls
  deriving DecidableEq

def new : Signal := ⟨false, .new, 0, .away, 0, 0⟩

def raises (signal : Signal) : Signal :=
  { signal with raised := true, owing := signal.owing + 1, made := signal.made + 1 }

def notifies (signal : Signal) : Option Signal :=
  if signal.owing = 0 then none
  else some { signal with cell := signal.cell.notifyOne, owing := signal.owing - 1 }

/-- The consumer begins to wait for the flag. -/
def enters (signal : Signal) : Option Signal :=
  if signal.consumer = .away then some { signal with consumer := .preparing } else none

def prepares (signal : Signal) : Option Signal :=
  if signal.consumer = .preparing then some { signal with consumer := .checking } else none

/-- The consumer takes the flag. -/
def checks (signal : Signal) : Option Signal :=
  if signal.consumer = .checking then
    some (if signal.raised then
      { signal with raised := false, consumer := .away, taken := signal.made }
    else { signal with consumer := .waiting })
  else none

def polls (signal : Signal) : Option Signal :=
  if signal.consumer = .waiting then
    some { signal with
      cell := signal.cell.poll.2
      consumer := if signal.cell.poll.1 then .preparing else .waiting }
  else none

def step (signal : Signal) : Action → Option Signal
  | .raises => some signal.raises
  | .notifies => signal.notifies
  | .enters => signal.enters
  | .prepares => signal.prepares
  | .checks => signal.checks
  | .polls => signal.polls

inductive Party where
  | producers
  | consumer
  deriving DecidableEq

/-- Whose step it is; raising the flag again is nobody's duty. -/
def Action.party : Action → Option Party
  | .raises => none
  | .notifies => some .producers
  | .enters | .prepares | .checks | .polls => some .consumer

/-- The consumer sleeps: its wait is registered and nobody has notified it. -/
def Asleep (signal : Signal) : Prop :=
  signal.consumer = .waiting ∧ signal.cell.waiter = .registered

/-- The steps to the next taking of a flag that is raised. -/
def distance (signal : Signal) : ℕ :=
  match signal.consumer with
  | .away => 0
  | .checking => 1
  | .preparing => 2
  | .waiting => if signal.cell.Ready then 3 else 4

/-- A poll of the consumer would find the wait not over. -/
def Blocked (signal : Signal) : Prop := signal.consumer = .waiting ∧ ¬ signal.cell.Ready

instance (signal : Signal) : Decidable signal.Blocked := by unfold Blocked; infer_instance

/-- Whom a raised flag waits for. -/
def helper (signal : Signal) : Party := if signal.Blocked then .producers else .consumer

/-- A raised flag is not slept on, and it is down exactly where all it was raised for was taken. -/
structure Sound (signal : Signal) : Prop where
  awake : signal.raised = true → signal.consumer = .waiting →
    signal.cell.Ready ∨ 0 < signal.owing
  taken_le : signal.taken ≤ signal.made
  ledger : signal.raised = true ↔ signal.taken < signal.made

variable {signal next : Signal} {action : Action}

theorem notifies_eq_some (h : signal.notifies = some next) : signal.owing ≠ 0 ∧
    next = { signal with cell := signal.cell.notifyOne, owing := signal.owing - 1 } := by
  unfold notifies at h
  split at h <;> cases h
  exact ⟨‹_›, rfl⟩

theorem enters_eq_some (h : signal.enters = some next) :
    signal.consumer = .away ∧ next = { signal with consumer := .preparing } := by
  unfold enters at h
  split at h <;> cases h
  exact ⟨‹_›, rfl⟩

theorem prepares_eq_some (h : signal.prepares = some next) :
    signal.consumer = .preparing ∧ next = { signal with consumer := .checking } := by
  unfold prepares at h
  split at h <;> cases h
  exact ⟨‹_›, rfl⟩

/-- A raised flag that is taken is down, and with it goes all it was raised for; on any other the
consumer begins to wait. -/
theorem checks_eq_some (h : signal.checks = some next) : signal.consumer = .checking ∧
    (signal.raised = true ∧
        next = { signal with raised := false, consumer := .away, taken := signal.made } ∨
      signal.raised = false ∧ next = { signal with consumer := .waiting }) := by
  unfold checks at h
  split at h <;> cases h
  refine ⟨‹_›, ?_⟩
  cases hraised : signal.raised with
  | true => exact .inl ⟨rfl, rfl⟩
  | false => exact .inr ⟨rfl, rfl⟩

theorem checks_raised (hraised : signal.raised = true) (h : signal.checks = some next) :
    next = { signal with raised := false, consumer := .away, taken := signal.made } := by
  rcases (checks_eq_some h).2 with ⟨-, hnext⟩ | ⟨hdown, -⟩
  · exact hnext
  · cases hdown.symm.trans hraised

/-- A wait that is over is left, and any other is registered. -/
theorem polls_eq_some (h : signal.polls = some next) : signal.consumer = .waiting ∧
    (signal.cell.Ready ∧
        next = { signal with cell := signal.cell.poll.2, consumer := .preparing } ∨
      ¬ signal.cell.Ready ∧ ¬ signal.cell.poll.2.Ready ∧
        next = { signal with cell := signal.cell.poll.2 }) := by
  unfold polls at h
  split at h <;> cases h
  rename_i hwaiting
  refine ⟨hwaiting, ?_⟩
  rcases Notify.poll_cases signal.cell with ⟨hready, hover, -⟩ | ⟨hnot, hover, hregistered⟩
  · exact .inl ⟨hready, by rw [hover]; rfl⟩
  · refine .inr ⟨hnot, by simp [Notify.Ready, hregistered], ?_⟩
    rw [hover, ← hwaiting]
    rfl

theorem sound_new : new.Sound := ⟨nofun, Nat.le_refl _, by decide⟩

/-- Every step of the producers and of the consumer, one by one. -/
theorem sound_step (h : signal.Sound) (hstep : signal.step action = some next) : next.Sound := by
  obtain ⟨hawake, hle, hledger⟩ := h
  cases action with
  | raises =>
      cases hstep
      exact ⟨fun _ _ ↦ .inr (Nat.succ_pos _), Nat.le_succ_of_le hle,
        iff_of_true rfl (Nat.lt_succ_of_le hle)⟩
  | notifies =>
      obtain ⟨-, rfl⟩ := notifies_eq_some hstep
      exact ⟨fun _ _ ↦ .inl (Notify.ready_notifyOne _), hle, hledger⟩
  | enters =>
      obtain ⟨-, rfl⟩ := enters_eq_some hstep
      exact ⟨fun _ ↦ nofun, hle, hledger⟩
  | prepares =>
      obtain ⟨-, rfl⟩ := prepares_eq_some hstep
      exact ⟨fun _ ↦ nofun, hle, hledger⟩
  | checks =>
      obtain ⟨-, ⟨-, rfl⟩ | ⟨hdown, rfl⟩⟩ := checks_eq_some hstep
      · exact ⟨nofun, Nat.le_refl _, iff_of_false (by nofun) (Nat.lt_irrefl _)⟩
      · exact ⟨fun hraised ↦ absurd (hdown.symm.trans hraised) (by decide), hle, hledger⟩
  | polls =>
      obtain ⟨hwaiting, ⟨-, rfl⟩ | ⟨hnot, -, rfl⟩⟩ := polls_eq_some hstep
      · exact ⟨fun _ ↦ nofun, hle, hledger⟩
      · exact ⟨fun hraised _ ↦ .inr ((hawake hraised hwaiting).resolve_left hnot), hle, hledger⟩

/-- A step that neither raises nor takes the flag, and does not begin to wait for it, moves nothing
but the cell and the place inside the wait. -/
theorem step_frame (hraises : action ≠ .raises) (henters : action ≠ .enters)
    (hchecks : action = .checks → signal.raised = false) (hstep : signal.step action = some next) :
    next.raised = signal.raised ∧ next.taken = signal.taken ∧
      (next.consumer = .away ↔ signal.consumer = .away) := by
  cases action with
  | raises => exact absurd rfl hraises
  | enters => exact absurd rfl henters
  | notifies =>
      obtain ⟨-, rfl⟩ := notifies_eq_some hstep
      exact ⟨rfl, rfl, Iff.rfl⟩
  | prepares =>
      obtain ⟨hpreparing, rfl⟩ := prepares_eq_some hstep
      exact ⟨rfl, rfl, iff_of_false (by nofun) (by rw [hpreparing]; nofun)⟩
  | checks =>
      obtain ⟨hchecking, ⟨hraised, rfl⟩ | ⟨-, rfl⟩⟩ := checks_eq_some hstep
      · cases (hchecks rfl).symm.trans hraised
      · exact ⟨rfl, rfl, iff_of_false (by nofun) (by rw [hchecking]; nofun)⟩
  | polls =>
      obtain ⟨hwaiting, ⟨-, rfl⟩ | ⟨-, -, rfl⟩⟩ := polls_eq_some hstep
      · exact ⟨rfl, rfl, iff_of_false (by nofun) (by rw [hwaiting]; nofun)⟩
      · exact ⟨rfl, rfl, Iff.rfl⟩

/-- A notification ends the wait there is; where there is none, nothing moves. -/
theorem distance_notifies (h : signal.notifies = some next) :
    next.distance < signal.distance ∨
      next.distance = signal.distance ∧ next.helper = signal.helper ∧
        signal.helper = .consumer := by
  obtain ⟨-, rfl⟩ := notifies_eq_some h
  have hready := Notify.ready_notifyOne signal.cell
  by_cases hblocked : signal.Blocked
  · refine .inl ?_
    simp only [distance, hblocked.1, if_neg hblocked.2, if_pos hready]
    exact Nat.lt_succ_self 3
  · have hfree : ¬ Blocked
        { signal with cell := signal.cell.notifyOne, owing := signal.owing - 1 } :=
      fun hstill ↦ hstill.2 hready
    refine .inr ⟨?_, by rw [helper, helper, if_neg hblocked, if_neg hfree],
      by rw [helper, if_neg hblocked]⟩
    unfold distance
    cases hplace : signal.consumer with
    | waiting =>
        have hwas : signal.cell.Ready := not_not.mp fun hnot ↦ hblocked ⟨hplace, hnot⟩
        simp only [if_pos hready, if_pos hwas]
    | _ => rfl

/-- A poll ends a wait that is over, and finds any other as it left it. -/
theorem distance_polls (h : signal.polls = some next) :
    next.distance < signal.distance ∨
      next.distance = signal.distance ∧ next.helper = signal.helper ∧
        signal.helper = .producers := by
  obtain ⟨hwaiting, ⟨hready, rfl⟩ | ⟨hnot, hstill, rfl⟩⟩ := polls_eq_some h
  · refine .inl ?_
    simp only [distance, hwaiting, if_pos hready]
    exact Nat.lt_succ_self 2
  · have hblocked : signal.Blocked := ⟨hwaiting, hnot⟩
    refine .inr ⟨?_, ?_, if_pos hblocked⟩
    · simp only [distance, hwaiting, if_neg hnot, if_neg hstill]
    · rw [helper, helper, if_pos hblocked]
      exact if_pos ⟨hwaiting, hstill⟩

/-- A step takes a raised flag or leaves it raised.  Then it lowers the distance, or it changes
neither the distance nor whom the flag waits for and is not by that party. -/
theorem distance_step (hraised : signal.raised = true) (haction : action ≠ .enters)
    (hstep : signal.step action = some next) :
    next.taken = signal.made ∨ next.raised = true ∧
      (next.distance < signal.distance ∨
        next.distance = signal.distance ∧ next.helper = signal.helper ∧
          action.party ≠ some signal.helper) := by
  cases action with
  | raises =>
      cases hstep
      exact .inr ⟨rfl, .inr ⟨rfl, rfl, nofun⟩⟩
  | notifies =>
      obtain ⟨-, rfl⟩ := notifies_eq_some hstep
      rcases distance_notifies hstep with hless | ⟨heq, hwho, hhelper⟩
      · exact .inr ⟨hraised, .inl hless⟩
      · exact .inr ⟨hraised, .inr ⟨heq, hwho, by rw [hhelper]; nofun⟩⟩
  | enters => exact absurd rfl haction
  | prepares =>
      obtain ⟨hpreparing, rfl⟩ := prepares_eq_some hstep
      refine .inr ⟨hraised, .inl ?_⟩
      rw [distance, distance, hpreparing]
      exact Nat.lt_succ_self 1
  | checks =>
      obtain ⟨-, ⟨-, rfl⟩ | ⟨hdown, -⟩⟩ := checks_eq_some hstep
      · exact .inl rfl
      · cases hdown.symm.trans hraised
  | polls =>
      have hstill : next.raised = true := by
        obtain ⟨-, ⟨-, rfl⟩ | ⟨-, -, rfl⟩⟩ := polls_eq_some hstep <;> exact hraised
      rcases distance_polls hstep with hless | ⟨heq, hwho, hhelper⟩
      · exact .inr ⟨hstill, .inl hless⟩
      · exact .inr ⟨hstill, .inr ⟨heq, hwho, by rw [hhelper]; nofun⟩⟩

/-- A flag that is raised waits for a producer only where one still has to notify. -/
theorem owing_of_helper (h : signal.Sound) (hraised : signal.raised = true)
    (hhelper : signal.helper = .producers) : 0 < signal.owing := by
  have hblocked : signal.Blocked := not_not.mp fun hnot ↦ by
    rw [helper, if_neg hnot] at hhelper
    cases hhelper
  exact (h.awake hraised hblocked.1).resolve_left hblocked.2

/-- A consumer that waits for the flag has a step. -/
theorem consumer_enabled (hconsumer : signal.consumer ≠ .away) :
    (∃ next, signal.prepares = some next) ∨ (∃ next, signal.checks = some next) ∨
      ∃ next, signal.polls = some next := by
  cases hplace : signal.consumer with
  | away => exact absurd hplace hconsumer
  | preparing => exact .inl ⟨_, if_pos hplace⟩
  | checking => exact .inr (.inl ⟨_, if_pos hplace⟩)
  | waiting => exact .inr (.inr ⟨_, if_pos hplace⟩)

/-- What was raised is only ever raised again. -/
theorem made_le_step (hstep : signal.step action = some next) : signal.made ≤ next.made := by
  cases action with
  | raises =>
      cases hstep
      exact Nat.le_succ _
  | notifies =>
      obtain ⟨-, rfl⟩ := notifies_eq_some hstep
      exact Nat.le_refl _
  | enters =>
      obtain ⟨-, rfl⟩ := enters_eq_some hstep
      exact Nat.le_refl _
  | prepares =>
      obtain ⟨-, rfl⟩ := prepares_eq_some hstep
      exact Nat.le_refl _
  | checks =>
      obtain ⟨-, ⟨-, rfl⟩ | ⟨-, rfl⟩⟩ := checks_eq_some hstep <;> exact Nat.le_refl _
  | polls =>
      obtain ⟨-, ⟨-, rfl⟩ | ⟨-, -, rfl⟩⟩ := polls_eq_some hstep <;> exact Nat.le_refl _

end Signal

end RalphexRunner
