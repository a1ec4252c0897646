import RalphexRunner.Agent.Outcome
import RalphexRunner.Semantics.Transition

/-!
# The process group of a run

ralphex leads a process group of its own.  Its members fork, leave the group, take on another
user's rights and exit as they please, and the runner waits for the leader alone: `wait` leaves the
group be, `stop` signals it twice, and dropping the job kills the leader.

A group's number is in use as long as the leader is not waited for or a member is left.  Past that
another group may come by the number, and the second signal of `stop` would reach it.
-/

namespace RalphexRunner

/-- A process, as far as a signal to the group reaches it: whether it descends from the leader,
whether it is in the group, whether it has rights this user cannot signal, and how it ended. -/
structure Process where
  kin : Bool
  member : Bool
  foreign : Bool
  ended : Option ExitStatus
  deriving DecidableEq

namespace Process

/-- A process of another program, in a group that has come by the number. -/
def stranger : Process := ⟨false, true, false, none⟩

/-- How a process ends that is killed. -/
def killedStatus : ExitStatus := ⟨none⟩

/-- A `SIGKILL` to the group reaches the process. -/
def struck (process : Process) : Bool :=
  process.member && process.ended.isNone && !process.foreign

def kill (process : Process) : Process :=
  if process.struck then { process with ended := some killedStatus } else process

end Process

/-- Where the runner stands with a job. -/
inductive JobStage where
  | waiting
  | exited (status : ExitStatus)
  | terminating
  | killing (heard : Option ExitStatus)
  | reaping
  | stopped (status : ExitStatus)
  | dropped
  deriving DecidableEq

/-- A job, its leader first among the processes.  It is noted whether the leader was waited for,
whether the grace of `stop` ran out, and whom the `SIGKILL` to the group took. -/
structure RunningJob where
  processes : List Process
  stage : JobStage
  reaped : Bool
  overdue : Bool
  killed : List Process

namespace RunningJob

/-- What a process does. -/
inductive Deed where
  | forks
  | leaves
  | elevates
  | exits (status : ExitStatus)

inductive Action where
  | does (index : ℕ) (deed : Deed)
  | recycles
  | waited
  | stops
  | hears
  | graceEnds
  | kills
  | reaps
  | drops

/-- The processes after one of them did something. -/
def after (processes : List Process) (index : ℕ) (process : Process) : Deed → List Process
  | .forks => processes ++ [process]
  | .leaves => processes.set index { process with member := false }
  | .elevates => processes.set index { process with foreign := true }
  | .exits status => processes.set index { process with ended := some status }

def leaderEnded (job : RunningJob) : Option ExitStatus := job.processes.head?.bind Process.ended

/-- Nobody is left in the group. -/
def Empty (processes : List Process) : Prop :=
  ∀ process ∈ processes, process.member = true → process.ended.isSome = true

instance (processes : List Process) : Decidable (Empty processes) :=
  inferInstanceAs (Decidable (∀ process ∈ processes, _))

/-- The job dropped: a leader that was not waited for is killed. -/
def drop (job : RunningJob) : RunningJob :=
  { job with
    processes := if job.reaped then job.processes else
      match job.processes with
      | leader :: others =>
          (if leader.ended.isNone && !leader.foreign then
            { leader with ended := some Process.killedStatus } else leader) :: others
      | [] => []
    stage := .dropped }

def step (job : RunningJob) : Action → Option RunningJob
  | .does index deed =>
      job.processes[index]?.bind fun process ↦
        if process.ended.isSome then none
        else some { job with processes := after job.processes index process deed }
  | .recycles =>
      if job.reaped = true ∧ Empty job.processes then
        some { job with processes := job.processes ++ [Process.stranger] }
      else none
  | .waited =>
      match job.stage with
      | .waiting =>
          job.leaderEnded.map fun status ↦ { job with stage := .exited status, reaped := true }
      | _ => none
  | .stops =>
      match job.stage with
      | .waiting | .exited _ => some { job with stage := .terminating }
      | _ => none
  | .hears =>
      match job.stage with
      | .terminating =>
          job.leaderEnded.map fun status ↦
            { job with stage := .killing (some status), reaped := true }
      | _ => none
  | .graceEnds =>
      match job.stage with
      | .terminating =>
          if job.reaped then none else some { job with stage := .killing none, overdue := true }
      | _ => none
  | .kills =>
      match job.stage with
      | .killing heard =>
          some { job with
            processes := job.processes.map Process.kill
            stage := (heard.map .stopped).getD .reaping
            killed := job.processes.filter Process.struck }
      | _ => none
  | .reaps =>
      match job.stage with
      | .reaping =>
          job.leaderEnded.map fun status ↦ { job with stage := .stopped status, reaped := true }
      | _ => none
  | .drops =>
      match job.stage with
      | .dropped => none
      | _ => some job.drop

/-- A job starts with its leader alone. -/
def machine : Machine RunningJob Action where
  init job := job = ⟨[⟨true, true, false, none⟩], .waiting, false, false, []⟩
  step := step

variable {job next : RunningJob} {action : Action}

/-- What a process can come to, or a child of it. -/
structure Later (process later : Process) : Prop where
  kin : later.kin = process.kin
  member : later.member = true → process.member = true
  foreign : process.foreign = true → later.foreign = true
  ended : process.ended.isSome = true → later.ended = process.ended

theorem Later.refl (process : Process) : Later process process :=
  ⟨rfl, id, id, fun _ ↦ rfl⟩

theorem Later.kill (process : Process) : Later process process.kill := by
  unfold Process.kill
  split_ifs with hstruck
  · refine ⟨rfl, id, id, fun hended ↦ ?_⟩
    simp only [Process.struck, Bool.and_eq_true, Option.isNone_iff_eq_none] at hstruck
    rw [hstruck.1.2] at hended
    cases hended
  · exact Later.refl process

/-- The processes after others did something: the leader stays in front, and whoever is new is a
child or a stranger that came by the number of an empty group. -/
structure Evolved (reaped : Bool) (before later : List Process) : Prop where
  leader : ∀ process, before.head? = some process →
    ∃ now, later.head? = some now ∧ Later process now
  each : ∀ now ∈ later, (∃ process ∈ before, Later process now) ∨
    now = Process.stranger ∧ reaped = true ∧ Empty before

/-- One process can come to something while the others stay. -/
theorem evolved_set {processes : List Process} {index : ℕ} {process now : Process}
    {reaped : Bool} (hget : processes[index]? = some process) (hlater : Later process now) :
    Evolved reaped processes (processes.set index now) := by
  constructor
  · intro leader hleader
    cases index with
    | zero =>
        rw [← List.head?_eq_getElem?, hleader, Option.some.injEq] at hget
        subst hget
        refine ⟨now, ?_, hlater⟩
        cases processes with
        | nil => cases hleader
        | cons first rest => rfl
    | succ index =>
        refine ⟨leader, ?_, Later.refl leader⟩
        cases processes with
        | nil => cases hleader
        | cons first rest => exact hleader
  · intro other hother
    left
    rcases List.mem_or_eq_of_mem_set hother with hold | rfl
    · exact ⟨other, hold, Later.refl other⟩
    · exact ⟨process, List.mem_of_getElem? hget, hlater⟩

theorem head?_append_of_some {α : Type*} {values more : List α} {value : α}
    (h : values.head? = some value) : (values ++ more).head? = some value := by
  rw [List.head?_append, h, Option.some_or]

/-- Whatever a process does, all go on from where they were. -/
theorem evolved_after {processes : List Process} {index : ℕ} {process : Process} {deed : Deed}
    {reaped : Bool} (hget : processes[index]? = some process) (halive : process.ended = none) :
    Evolved reaped processes (after processes index process deed) := by
  cases deed with
  | forks =>
      constructor
      · intro leader hleader
        exact ⟨leader, head?_append_of_some hleader, Later.refl leader⟩
      · intro now hnow
        left
        rcases List.mem_append.mp hnow with hold | hnew
        · exact ⟨now, hold, Later.refl now⟩
        · rw [List.mem_singleton.mp hnew]
          exact ⟨process, List.mem_of_getElem? hget, Later.refl process⟩
  | leaves => exact evolved_set hget ⟨rfl, nofun, id, fun _ ↦ rfl⟩
  | elevates => exact evolved_set hget ⟨rfl, id, fun _ ↦ rfl, fun _ ↦ rfl⟩
  | exits status =>
      apply evolved_set hget
      refine ⟨rfl, id, id, fun hended ↦ ?_⟩
      rw [halive] at hended
      cases hended

theorem evolved_stranger {processes : List Process} (hempty : Empty processes) :
    Evolved true processes (processes ++ [Process.stranger]) := by
  constructor
  · intro leader hleader
    exact ⟨leader, head?_append_of_some hleader, Later.refl leader⟩
  · intro now hnow
    rcases List.mem_append.mp hnow with hold | hnew
    · exact .inl ⟨now, hold, Later.refl now⟩
    · exact .inr ⟨List.mem_singleton.mp hnew, rfl, hempty⟩

theorem evolved_kill (reaped : Bool) (processes : List Process) :
    Evolved reaped processes (processes.map Process.kill) := by
  constructor
  · intro leader hleader
    exact ⟨leader.kill, by rw [List.head?_map, hleader]; rfl, Later.kill leader⟩
  · intro now hnow
    obtain ⟨process, hprocess, rfl⟩ := List.mem_map.mp hnow
    exact .inl ⟨process, hprocess, Later.kill process⟩

/-! ## What is kept -/

/-- Whoever is left of the run in its group cannot be signalled. -/
def Cleared (processes : List Process) : Prop :=
  ∀ process ∈ processes, process.kin = true → process.member = true → process.ended = none →
    process.foreign = true

/-- The leader has ended, or cannot be signalled. -/
def LeaderGone (job : RunningJob) : Prop :=
  ∃ leader, job.processes.head? = some leader ∧
    (leader.ended.isSome = true ∨ leader.foreign = true)

/-- What the stage says of the leader and the group. -/
def Stands (job : RunningJob) : Prop :=
  match job.stage with
  | .waiting => job.reaped = false ∧ job.overdue = false ∧ job.killed = []
  | .exited status => job.leaderEnded = some status ∧ job.overdue = false ∧ job.killed = []
  | .terminating => job.overdue = false ∧ job.killed = []
  | .killing (some status) => job.leaderEnded = some status ∧ job.overdue = false
  | .killing none => job.reaped = false
  | .reaping => Cleared job.processes
  | .stopped status => job.leaderEnded = some status ∧ Cleared job.processes
  | .dropped => job.LeaderGone

/-- Those the `SIGKILL` took are of the run, or else the leader had left nobody within the grace. -/
def KilledOwn (job : RunningJob) : Prop :=
  (∀ process ∈ job.killed, process.kin = true) ∨
    job.overdue = false ∧ ∀ process ∈ job.killed, process.kin = false

/-- What is true of a job at every moment. -/
structure Inv (job : RunningJob) : Prop where
  leader : ∃ leader, job.processes.head? = some leader
  strangers : ∀ process ∈ job.processes, process.kin = false → job.reaped = true ∧
    ∀ other ∈ job.processes, other.kin = true → other.member = true → other.ended.isSome = true
  reaped : job.reaped = true → job.leaderEnded.isSome = true
  stands : job.Stands
  killed : job.KilledOwn

variable {processes later : List Process} {status : ExitStatus}

theorem leaderEnded_evolved (h : Evolved job.reaped job.processes later)
    (hended : job.leaderEnded = some status) :
    ({ job with processes := later } : RunningJob).leaderEnded = some status := by
  obtain ⟨leader, hleader, hstatus⟩ := Option.bind_eq_some_iff.mp hended
  obtain ⟨now, hnow, hlater⟩ := h.leader leader hleader
  apply Option.bind_eq_some_iff.mpr
  refine ⟨now, hnow, ?_⟩
  rw [hlater.ended (by rw [hstatus]; rfl), hstatus]

theorem Cleared.evolved {reaped : Bool} (h : Cleared processes)
    (hevolved : Evolved reaped processes later) : Cleared later := by
  intro now hnow hkin hmember hended
  rcases hevolved.each now hnow with ⟨process, hprocess, hlater⟩ | ⟨rfl, -⟩
  · apply hlater.foreign
    apply h process hprocess (hlater.kin ▸ hkin) (hlater.member hmember)
    cases hbefore : process.ended with
    | none => rfl
    | some status =>
        rw [hlater.ended (by rw [hbefore]; rfl), hbefore] at hended
        cases hended
  · cases hkin

theorem LeaderGone.evolved (h : job.LeaderGone)
    (hevolved : Evolved job.reaped job.processes later) :
    ({ job with processes := later } : RunningJob).LeaderGone := by
  obtain ⟨leader, hleader, hgone⟩ := h
  obtain ⟨now, hnow, hlater⟩ := hevolved.leader leader hleader
  refine ⟨now, hnow, ?_⟩
  rcases hgone with hended | hforeign
  · left
    rw [hlater.ended hended]
    exact hended
  · exact .inr (hlater.foreign hforeign)

/-- Nothing the processes do breaks it. -/
theorem Inv.evolved (h : job.Inv) (hevolved : Evolved job.reaped job.processes later) :
    ({ job with processes := later } : RunningJob).Inv := by
  refine ⟨?_, ?_, ?_, ?_, h.killed⟩
  · obtain ⟨leader, hleader⟩ := h.leader
    obtain ⟨now, hnow, -⟩ := hevolved.leader leader hleader
    exact ⟨now, hnow⟩
  · intro process hprocess hkin
    have hempty : job.reaped = true ∧ ∀ other ∈ job.processes, other.kin = true →
        other.member = true → other.ended.isSome = true := by
      rcases hevolved.each process hprocess with ⟨before, hbefore, hlater⟩ | ⟨-, hreaped, hempty⟩
      · exact h.strangers before hbefore (hlater.kin ▸ hkin)
      · exact ⟨hreaped, fun other hother _ ↦ hempty other hother⟩
    refine ⟨hempty.1, fun other hother hotherKin hmember ↦ ?_⟩
    rcases hevolved.each other hother with ⟨before, hbefore, hlater⟩ | ⟨rfl, -⟩
    · have hended := hempty.2 before hbefore (hlater.kin ▸ hotherKin) (hlater.member hmember)
      rw [hlater.ended hended]
      exact hended
    · cases hotherKin
  · intro hreaped
    obtain ⟨status, hstatus⟩ := Option.isSome_iff_exists.mp (h.reaped hreaped)
    rw [leaderEnded_evolved hevolved hstatus]
    rfl
  · have hstands := h.stands
    unfold Stands at hstands ⊢
    dsimp only
    split
    all_goals rename_i hstage; rw [hstage] at hstands
    · exact hstands
    · exact ⟨leaderEnded_evolved hevolved hstands.1, hstands.2⟩
    · exact hstands
    · exact ⟨leaderEnded_evolved hevolved hstands.1, hstands.2⟩
    · exact hstands
    · exact hstands.evolved hevolved
    · exact ⟨leaderEnded_evolved hevolved hstands.1, hstands.2.evolved hevolved⟩
    · exact LeaderGone.evolved hstands hevolved

/-- After the `SIGKILL` nobody of the run is left in the group that could be signalled. -/
theorem cleared_kill (processes : List Process) : Cleared (processes.map Process.kill) := by
  intro now hnow _ hmember hended
  obtain ⟨process, hprocess, rfl⟩ := List.mem_map.mp hnow
  by_cases hstruck : process.struck = true
  · rw [Process.kill, if_pos hstruck] at hended
    cases hended
  · rw [Process.kill, if_neg hstruck] at hmember hended ⊢
    simpa [Process.struck, hmember, hended] using hstruck

theorem killed_kin (h : job.Inv) (hreaped : job.reaped = false) :
    ∀ process ∈ job.processes.filter Process.struck, process.kin = true := by
  intro process hprocess
  by_contra hkin
  have hstranger := h.strangers process (List.mem_filter.mp hprocess).1 (by simpa using hkin)
  rw [hreaped] at hstranger
  cases hstranger.1

/-- The `SIGKILL` takes members of the run alone, or else strangers alone. -/
theorem killed_apart (h : job.Inv) :
    (∀ process ∈ job.processes.filter Process.struck, process.kin = true) ∨
      ∀ process ∈ job.processes.filter Process.struck, process.kin = false := by
  by_cases hstrangers : ∃ process ∈ job.processes, process.kin = false
  · obtain ⟨stranger, hstranger, hother⟩ := hstrangers
    right
    intro process hprocess
    obtain ⟨hmem, hstruck⟩ := List.mem_filter.mp hprocess
    by_contra hkin
    simp only [Process.struck, Bool.and_eq_true, Option.isNone_iff_eq_none] at hstruck
    have hended := (h.strangers stranger hstranger hother).2 process hmem (by simpa using hkin)
      hstruck.1.1
    rw [hstruck.1.2] at hended
    cases hended
  · left
    intro process hprocess
    by_contra hkin
    exact hstrangers ⟨process, (List.mem_filter.mp hprocess).1, by simpa using hkin⟩

/-- The leader is waited for. -/
theorem Inv.reaps {stage : JobStage} (h : job.Inv) (hended : job.leaderEnded = some status)
    (hstands : Stands { job with stage, reaped := true }) :
    Inv { job with stage, reaped := true } := by
  refine ⟨h.leader, fun process hprocess hkin ↦ ?_, fun _ ↦ ?_, hstands, h.killed⟩
  · exact ⟨rfl, (h.strangers process hprocess hkin).2⟩
  · exact Option.isSome_iff_exists.mpr ⟨status, hended⟩

/-- Dropping the job kills the leader at most. -/
theorem evolved_drop (job : RunningJob) :
    Evolved job.reaped job.processes job.drop.processes := by
  have hsame : Evolved job.reaped job.processes job.processes :=
    ⟨fun leader hleader ↦ ⟨leader, hleader, Later.refl leader⟩,
      fun now hnow ↦ .inl ⟨now, hnow, Later.refl now⟩⟩
  unfold drop
  dsimp only
  split_ifs
  · exact hsame
  · split
    · rename_i leader others hprocesses
      split_ifs with hkilled
      · rw [Bool.and_eq_true, Option.isNone_iff_eq_none] at hkilled
        have hset := @evolved_set job.processes 0 leader
          { leader with ended := some Process.killedStatus } job.reaped (by rw [hprocesses]; rfl)
          ⟨rfl, id, id, fun hended ↦ by rw [hkilled.1] at hended; cases hended⟩
        rwa [hprocesses] at hset ⊢
      · rwa [hprocesses] at hsame ⊢
    · rename_i hnone
      rwa [hnone] at hsame ⊢

/-- No job is dropped with a leader left that could be signalled. -/
theorem Inv.drop_leaderGone (h : job.Inv) : job.drop.LeaderGone := by
  obtain ⟨leader, hleader⟩ := h.leader
  obtain ⟨others, hprocesses⟩ : ∃ others, job.processes = leader :: others := by
    cases hjob : job.processes with
    | nil =>
        rw [hjob] at hleader
        cases hleader
    | cons first others =>
        rw [hjob] at hleader
        cases hleader
        exact ⟨others, rfl⟩
  unfold RunningJob.drop LeaderGone
  dsimp only
  rw [hprocesses]
  split_ifs with hreaped
  · refine ⟨leader, rfl, .inl ?_⟩
    have hended := h.reaped hreaped
    rwa [leaderEnded, hleader, Option.bind_some] at hended
  · refine ⟨_, rfl, ?_⟩
    split_ifs with hkilled
    · exact .inl rfl
    · by_contra hleft
      simp only [not_or, Bool.not_eq_true, Option.isSome_eq_false_iff] at hleft
      simp [hleft.1, hleft.2] at hkilled

/-- Every step keeps it. -/
theorem Inv.step (h : job.Inv) (hstep : job.step action = some next) : next.Inv := by
  have hstands := h.stands
  unfold Stands at hstands
  cases action with
  | does index deed =>
      obtain ⟨process, hget, hdone⟩ := Option.bind_eq_some_iff.mp hstep
      split_ifs at hdone with hended
      cases hdone
      apply h.evolved
      exact evolved_after hget (by simpa using hended)
  | recycles =>
      unfold RunningJob.step at hstep
      dsimp only at hstep
      split_ifs at hstep with hempty
      cases hstep
      apply h.evolved
      rw [hempty.1]
      exact evolved_stranger hempty.2
  | waited =>
      unfold RunningJob.step at hstep
      dsimp only at hstep
      split at hstep
      · rename_i hstage
        rw [hstage] at hstands
        obtain ⟨status, hstatus, rfl⟩ := Option.map_eq_some_iff.mp hstep
        exact h.reaps hstatus ⟨hstatus, hstands.2⟩
      · cases hstep
  | stops =>
      unfold RunningJob.step at hstep
      dsimp only at hstep
      split at hstep
      · rename_i hstage
        rw [hstage] at hstands
        cases hstep
        exact ⟨h.leader, h.strangers, h.reaped, hstands.2, h.killed⟩
      · rename_i status hstage
        rw [hstage] at hstands
        cases hstep
        exact ⟨h.leader, h.strangers, h.reaped, hstands.2, h.killed⟩
      · cases hstep
  | hears =>
      unfold RunningJob.step at hstep
      dsimp only at hstep
      split at hstep
      · rename_i hstage
        rw [hstage] at hstands
        obtain ⟨status, hstatus, rfl⟩ := Option.map_eq_some_iff.mp hstep
        exact h.reaps hstatus ⟨hstatus, hstands.1⟩
      · cases hstep
  | graceEnds =>
      unfold RunningJob.step at hstep
      dsimp only at hstep
      split at hstep
      · rename_i hstage
        rw [hstage] at hstands
        split_ifs at hstep with hreaped
        cases hstep
        refine ⟨h.leader, h.strangers, h.reaped, Bool.eq_false_iff.mpr hreaped, ?_⟩
        left
        rw [hstands.2]
        exact fun _ hmem ↦ absurd hmem List.not_mem_nil
      · cases hstep
  | kills =>
      unfold RunningJob.step at hstep
      dsimp only at hstep
      split at hstep
      · rename_i heard hstage
        rw [hstage] at hstands
        cases hstep
        have hevolved := h.evolved (evolved_kill job.reaped job.processes)
        refine ⟨hevolved.leader, hevolved.strangers, hevolved.reaped, ?_, ?_⟩
        · cases heard with
          | none => exact cleared_kill job.processes
          | some status =>
              exact ⟨leaderEnded_evolved (evolved_kill job.reaped job.processes) hstands.1,
                cleared_kill job.processes⟩
        · cases heard with
          | none => exact .inl (killed_kin h hstands)
          | some status =>
              rcases killed_apart h with hkin | hstrange
              · exact .inl hkin
              · exact .inr ⟨hstands.2, hstrange⟩
      · cases hstep
  | reaps =>
      unfold RunningJob.step at hstep
      dsimp only at hstep
      split at hstep
      · rename_i hstage
        rw [hstage] at hstands
        obtain ⟨status, hstatus, rfl⟩ := Option.map_eq_some_iff.mp hstep
        exact h.reaps hstatus ⟨hstatus, hstands⟩
      · cases hstep
  | drops =>
      unfold RunningJob.step at hstep
      dsimp only at hstep
      split at hstep
      · cases hstep
      · cases hstep
        have hevolved := h.evolved (evolved_drop job)
        exact ⟨hevolved.leader, hevolved.strangers, hevolved.reaped, h.drop_leaderGone,
          h.killed⟩

theorem inv_reachable (h : machine.Reachable job) : job.Inv := by
  refine h.invariant _ (fun start hstart ↦ ?_) fun _ _ _ hinv _ hstep ↦ hinv.step hstep
  rw [hstart]
  refine ⟨⟨_, rfl⟩, ?_, nofun, ⟨rfl, rfl, rfl⟩, .inl ?_⟩
  · intro process hprocess hkin
    rw [List.mem_singleton.mp hprocess] at hkin
    cases hkin
  · exact fun _ hmem ↦ absurd hmem List.not_mem_nil

/-- What `stop` does, once it has asked the group to end. -/
def Action.OfStop : Action → Prop
  | .hears | .graceEnds | .kills | .reaps => True
  | .does .. | .recycles | .waited | .stops | .drops => False

/-- A leader that is left can be signalled with its group. -/
def Signalled (job : RunningJob) : Prop :=
  ∀ leader, job.processes.head? = some leader → leader.ended = none →
    leader.member = true ∧ leader.foreign = false

/-- The steps of `stop` alone lead to its end. -/
def Finishes (job : RunningJob) : Prop :=
  ∃ actions later status, (∀ action ∈ actions, Action.OfStop action) ∧
    machine.exec job actions = some later ∧ later.stage = .stopped status

theorem Finishes.step (h : next.Finishes) (hown : action.OfStop)
    (hstep : job.step action = some next) : job.Finishes := by
  obtain ⟨actions, later, status, hactions, hexec, hstage⟩ := h
  refine ⟨action :: actions, later, status, ?_, ?_, hstage⟩
  · intro other hother
    rcases List.mem_cons.mp hother with rfl | hrest
    · exact hown
    · exact hactions other hrest
  · have htaken : machine.step job action = some next := hstep
    rw [Machine.exec_cons, htaken, Option.bind_some, hexec]

theorem Signalled.kill (h : job.Signalled) :
    Signalled { job with processes := job.processes.map Process.kill } := by
  intro now hnow hended
  dsimp only at hnow
  rw [List.head?_map] at hnow
  obtain ⟨leader, hleader, rfl⟩ := Option.map_eq_some_iff.mp hnow
  by_cases hstruck : leader.struck = true
  · rw [Process.kill, if_pos hstruck] at hended
    cases hended
  · rw [Process.kill, if_neg hstruck] at hended ⊢
    exact h leader hleader hended

end RunningJob

end RalphexRunner
