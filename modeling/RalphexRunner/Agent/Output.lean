import RalphexRunner.Agent.Steps
import RalphexRunner.LogStream.Views

/-!
# What a run prints, in the views of its log

The only writer of a run's log is the pump: whatever the run printed and however it was read, the
actions its log stream has seen are the calls of the line assembler in order, with steps of the
flusher and of a close between them.  So what holds of the views after any such actions holds of
the log of every run.
-/

namespace RalphexRunner

open LineAssembler in
def LineAssembler.Call.action : LineAssembler.Call → LogStream.Action
  | .pushLine piece terminator => .pushLine piece terminator
  | .pushBreak => .pushBreak

namespace LogStream

/-- The calls of a line assembler among some actions. -/
def calls (actions : List Action) : List LineAssembler.Call :=
  actions.filterMap fun
    | .pushLine piece terminator => some (.pushLine piece terminator)
    | .pushBreak => some .pushBreak
    | _ => none

/-- No action appends raw bytes. -/
def Unwritten (actions : List Action) : Prop := ∀ bytes, .write bytes ∉ actions

theorem calls_append (first second : List Action) :
    calls (first ++ second) = calls first ++ calls second :=
  List.filterMap_append

@[simp] theorem calls_map_action (called : List LineAssembler.Call) :
    calls (called.map LineAssembler.Call.action) = called := by
  induction called with
  | nil => rfl
  | cons call rest ih =>
      cases call <;> exact congrArg (_ :: ·) ih

theorem unwritten_map_action (called : List LineAssembler.Call) :
    Unwritten (called.map LineAssembler.Call.action) := by
  intro bytes hmem
  obtain ⟨call, -, hcall⟩ := List.mem_map.mp hmem
  cases call <;> cases hcall

theorem Unwritten.append {first second : List Action} (hfirst : Unwritten first)
    (hsecond : Unwritten second) : Unwritten (first ++ second) := by
  intro bytes hmem
  rcases List.mem_append.mp hmem with hmem | hmem
  · exact hfirst bytes hmem
  · exact hsecond bytes hmem

theorem exec_calls (stream : LogStream) (called : List LineAssembler.Call) :
    machine.exec stream (called.map LineAssembler.Call.action) =
      some (called.foldl LineAssembler.Call.apply stream) := by
  induction called generalizing stream with
  | nil => rfl
  | cons call rest ih =>
      cases call <;> exact ih _

/-- The stream got from one state to another by steps of its own, no line pushed. -/
def Turns (stream next : LogStream) : Prop :=
  ∃ actions, machine.exec stream actions = some next ∧ calls actions = [] ∧ Unwritten actions

theorem Turns.refl (stream : LogStream) : Turns stream stream := ⟨[], rfl, rfl, nofun⟩

theorem turns_of_step {stream next : LogStream} (action : Action)
    (h : stream.step action = some next) (hcalls : calls [action] = [])
    (hunwritten : Unwritten [action]) : Turns stream next :=
  ⟨[action], by rw [Machine.exec_cons, show machine.step stream action = some next from h]; rfl,
    hcalls, hunwritten⟩

end LogStream

namespace Run

open LogStream LineAssembler

variable {run next : Run}

/-- How far the pump has got with what it read. -/
def Pumped (reads : List (List UInt8)) (called : List LineAssembler.Call) :
    Option (Spawned LineAssembler) → Prop
  | none => reads = [] ∧ called = []
  | some ⟨.running assembler, _⟩ => LineAssembler.new.feedAll reads = (assembler, called)
  | some ⟨.ended, _⟩ => called <+: LineAssembler.pump reads
  | some ⟨.aborted, _⟩ => called <+: LineAssembler.pump reads

theorem feedAll_append (assembler : LineAssembler) (reads more : List (List UInt8)) :
    assembler.feedAll (reads ++ more) =
      (((assembler.feedAll reads).1.feedAll more).1,
        (assembler.feedAll reads).2 ++ ((assembler.feedAll reads).1.feedAll more).2) := by
  simp only [feedAll_eq_feed_flatten, List.flatten_append, feed_append]

/-- A pump that is aborted has made the calls of what it read, up to where it was. -/
theorem Pumped.settles {reads : List (List UInt8)} {called : List LineAssembler.Call}
    {pump after : Spawned LineAssembler} (h : Pumped reads called (some pump))
    (htask : after.task = pump.task ∨ after.task = .aborted) :
    Pumped reads called (some after) := by
  obtain ⟨task, handle⟩ := pump
  obtain ⟨task', handle'⟩ := after
  rcases htask with hsame | haborted
  · obtain rfl : task' = task := hsame
    cases task' <;> exact h
  · obtain rfl : task' = .aborted := haborted
    cases task with
    | running assembler =>
        have hfed : LineAssembler.new.feedAll reads = (assembler, called) := h
        exact ⟨assembler.finish, by rw [LineAssembler.pump, hfed]⟩
    | ended => exact h
    | aborted => exact h

theorem Pumped.called_of_pump {reads : List (List UInt8)} {called : List LineAssembler.Call}
    {pump : Option (Spawned LineAssembler)} (h : Pumped reads called pump) :
    called <+: LineAssembler.pump reads := by
  rcases pump with _ | ⟨_ | _ | _, handle⟩
  · rw [h.2]
    exact List.nil_prefix
  · have hsettled : Pumped reads called (some ⟨.aborted, handle⟩) := h.settles (.inr rfl)
    exact hsettled
  · exact h
  · exact h

/-- The run has not spawned its child. -/
def Unspawned : Pc → Prop
  | .entered | .validating | .watching | .spawning => True
  | _ => False

/-- The actions the log of a run has seen are the calls of its pump and steps of its own. -/
structure Printed (run : Run) : Prop where
  unspawned : Unspawned run.pc → run.pump = none
  printed : ∃ reads actions, LogStream.machine.exec .new actions = some run.log ∧
    Unwritten actions ∧ Pumped reads (calls actions) run.pump

theorem Printed.turns (h : Printed run) (hpc : Unspawned next.pc → Unspawned run.pc)
    (hlog : Turns run.log next.log) (hpump : next.pump = run.pump) : Printed next := by
  obtain ⟨reads, actions, hexec, hunwritten, hpumped⟩ := h.printed
  obtain ⟨more, hmore, hcalls, hown⟩ := hlog
  refine ⟨fun hbefore ↦ by rw [hpump, h.unspawned (hpc hbefore)], reads, actions ++ more, ?_,
    hunwritten.append hown, ?_⟩
  · rw [Machine.exec_append, hexec]
    exact hmore
  · rw [calls_append, hcalls, List.append_nil, hpump]
    exact hpumped

theorem Printed.settles (h : Printed run) (hpc : ¬ Unspawned next.pc)
    (hlog : next.log = run.log) {pump after : Spawned LineAssembler}
    (hpump : run.pump = some pump) (hafter : next.pump = some after)
    (htask : after.task = pump.task ∨ after.task = .aborted) : Printed next := by
  obtain ⟨reads, actions, hexec, hunwritten, hpumped⟩ := h.printed
  refine ⟨fun hbefore ↦ absurd hbefore hpc, reads, actions, by rw [hlog, hexec], hunwritten, ?_⟩
  rw [hpump] at hpumped
  rw [hafter]
  exact hpumped.settles htask

/-- The pump makes the calls of what it reads next, or of the end of the output. -/
theorem Printed.pumps (h : Printed run) {pump after : Spawned LineAssembler}
    (hpump : run.pump = some pump) (reads : List (List UInt8)) {called : List LineAssembler.Call}
    (hpumped : ∀ read actions, Pumped read (calls actions) run.pump →
      Pumped (read ++ reads) (calls actions ++ called) (some after)) :
    Printed { run.takes called with pump := some after } := by
  obtain ⟨read, actions, hexec, hunwritten, hbefore⟩ := h.printed
  refine ⟨fun hunspawned ↦ ?_, read ++ reads, actions ++ called.map LineAssembler.Call.action, ?_,
    hunwritten.append (unwritten_map_action called), ?_⟩
  · rw [h.unspawned hunspawned] at hpump
    cases hpump
  · rw [Machine.exec_append, hexec]
    exact exec_calls run.log called
  · rw [calls_append, calls_map_action]
    exact hpumped read actions hbefore

theorem printed_reads {bytes : List UInt8} (h : run.reads bytes = some next)
    (hprinted : Printed run) : Printed next := by
  unfold reads at h
  split at h <;> cases h
  rename_i assembler handle hpump
  apply hprinted.pumps hpump [bytes]
  intro read actions hpumped
  rw [hpump] at hpumped
  have hfed : LineAssembler.new.feedAll read = (assembler, calls actions) := hpumped
  change LineAssembler.new.feedAll (read ++ [bytes]) = _
  rw [feedAll_append, hfed]
  simp [feedAll]

theorem printed_hangsUp (h : run.hangsUp = some next) (hprinted : Printed run) :
    Printed next := by
  unfold hangsUp at h
  split at h <;> cases h
  rename_i assembler handle hpump
  apply hprinted.pumps hpump []
  intro read actions hpumped
  rw [hpump] at hpumped
  have hfed : LineAssembler.new.feedAll read = (assembler, calls actions) := hpumped
  change _ <+: LineAssembler.pump (read ++ [])
  simp only [List.append_nil, LineAssembler.pump, hfed]
  exact List.prefix_refl _

/-- The tasks beside `serve_run` keep the log to what the pump has read. -/
theorem printed_of_task {action : Action} (haction : action.OfTask)
    (h : step run action = some next) (hprinted : Printed run) : Printed next := by
  have hsame {next : Run} (hpc : next.pc = run.pc) (hlog : next.log = run.log)
      (hpump : next.pump = run.pump) : Printed next :=
    hprinted.turns (by rw [hpc]; exact id) (hlog ▸ .refl _) hpump
  have hlogs {log : LogStream} {more : List Event} (action : LogStream.Action)
      (hstep : run.log.step action = some log) (hcalls : calls [action] = [])
      (hunwritten : Unwritten [action]) : Printed ({ run with log }.emit more) :=
    hprinted.turns id (turns_of_step action hstep hcalls hunwritten) rfl
  cases action with
  | arrives terminal => cases h; exact hsame rfl rfl rfl
  | exits result => rw [exits_eq_some h]; exact hsame rfl rfl rfl
  | reads bytes => exact printed_reads h hprinted
  | hangsUp => exact printed_hangsUp h hprinted
  | selects wake =>
      obtain ⟨log, hlog, rfl⟩ := Option.map_eq_some_iff.mp h
      exact hlogs (.select wake) hlog rfl (by simp [Unwritten])
  | flushes =>
      obtain ⟨log, hlog, rfl⟩ := Option.map_eq_some_iff.mp h
      exact hlogs .flush hlog rfl (by simp [Unwritten])
  | flushed sent =>
      obtain ⟨log, hlog, rfl⟩ := Option.map_eq_some_iff.mp h
      exact hlogs (.answer sent) hlog rfl (by simp [Unwritten])
  | watches action =>
      obtain ⟨after, -, rfl⟩ := Option.map_eq_some_iff.mp h
      exact hsame rfl rfl rfl
  | _ => exact haction.elim

/-- A close moves the log by its own steps. -/
theorem closeLog_turns {stage : Stage} {poke : Poke} {move : Move .closeLog}
    (h : run.advance .closeLog stage poke = some move) : Turns run.log move.after.log := by
  have hclose : Turns run.log run.log.close :=
    turns_of_step .close rfl rfl (by simp [Unwritten])
  cases stage <;> cases poke <;> simp only [advance, reduceCtorEq] at h
  case ready.performs =>
    cases h
    unfold closeLog
    split <;> exact hclose
  case awaiting.completes =>
    obtain ⟨log, hlog, rfl⟩ := Option.map_eq_some_iff.mp h
    exact turns_of_step .joined hlog rfl (by simp [Unwritten])
  case awaiting.elapses =>
    obtain ⟨log, hlog, rfl⟩ := Option.map_eq_some_iff.mp h
    exact turns_of_step .elapsed hlog rfl (by simp [Unwritten])

/-- A step of a call moves the log by steps of its own. -/
theorem advance_turns {call : Call} {stage : Stage} {poke : Poke} {move : Move call}
    (h : run.advance call stage poke = some move) : Turns run.log move.after.log := by
  by_cases hclose : call = .closeLog
  · subst hclose
    exact closeLog_turns h
  · rw [(advance_awaited h).log.resolve_left hclose]
    exact .refl _

theorem abandon_turns (run : Run) (call : Call) : Turns run.log (run.abandon call).log := by
  by_cases hclose : call = .closeLog
  · subst hclose
    exact turns_of_step .interrupted rfl rfl (by simp [Unwritten])
  · rw [abandon_log run hclose]
    exact .refl _

/-- `serve_run` pushes no line. -/
theorem serves_turns {action : Action} (h : Serves run action next) : Turns run.log next.log := by
  cases h with
  | interrupted terminal inbox stage call => exact abandon_turns (run.taken terminal inbox) call
  | suspended hpc hadvance => exact advance_turns hadvance
  | answered hpc hadvance => exact advance_turns hadvance
  | _ => exact .refl _

/-- A drain leaves the pump as it is or aborts it. -/
theorem drainOutput_settles {stage : Stage} {poke : Poke} {move : Move .drainOutput}
    (h : run.advance .drainOutput stage poke = some move) :
    move.after.pump = run.pump ∨ ∃ pump after, run.pump = some pump ∧
      move.after.pump = some after ∧ (after.task = pump.task ∨ after.task = .aborted) := by
  rcases advance_drainOutput h with ⟨-, rfl⟩ | ⟨-, pump, after, hpump, hended, rfl⟩
  · unfold drainOutput
    split
    · rename_i after htake
      obtain ⟨pump, hpump, htaken⟩ := Option.bind_eq_some_iff.mp htake
      obtain ⟨-, rfl⟩ := Spawned.take_eq_some.mp htaken
      exact .inr ⟨pump, _, hpump, rfl, .inl rfl⟩
    · exact .inl rfl
  · refine .inr ⟨pump, after, hpump, rfl, ?_⟩
    rcases hended with hjoin | hexpire
    · obtain ⟨-, -, rfl⟩ := Spawned.join_eq_some.mp hjoin
      exact .inl rfl
    · obtain ⟨-, -, rfl⟩ := Spawned.expire_eq_some.mp hexpire
      exact .inr rfl

/-- An await that goes on keeps the log to what the pump has read. -/
theorem printed_advance {call : Call} {stage : Stage} {poke : Poke} {move : Move call}
    (hadvance : run.advance call stage poke = some move) (hprinted : Printed run)
    (hpc : ¬ Unspawned next.pc) (hlog : next.log = move.after.log)
    (hpump : next.pump = move.after.pump) : Printed next := by
  have hawaited := advance_awaited hadvance
  by_cases hdrain : call = .drainOutput
  · subst hdrain
    have hsame : next.log = run.log := by
      rw [hlog]
      exact hawaited.log.resolve_left nofun
    rcases drainOutput_settles hadvance with hkept | ⟨pump, after, hbefore, hafter, htask⟩
    · exact hprinted.turns (fun hbefore ↦ absurd hbefore hpc) (hsame ▸ .refl _)
        (hpump.trans hkept)
    · exact hprinted.settles hpc hsame hbefore (hpump.trans hafter) htask
  · refine hprinted.turns (fun hbefore ↦ absurd hbefore hpc) ?_
      (hpump.trans (hawaited.pump.resolve_left hdrain))
    rw [hlog]
    exact advance_turns hadvance

/-- Dropping an await detaches what it waited for, and nothing else. -/
theorem printed_abandon (hprinted : Printed run) (call : Call) (hpc : ¬ Unspawned next.pc)
    (hlog : next.log = (run.abandon call).log) (hpump : next.pump = (run.abandon call).pump) :
    Printed next := by
  by_cases hdrain : call = .drainOutput
  · subst hdrain
    have hsame : next.log = run.log := hlog
    cases hbefore : run.pump with
    | none =>
        refine hprinted.turns (fun hbefore ↦ absurd hbefore hpc) (hsame ▸ .refl _) ?_
        rw [hpump, hbefore]
        exact congrArg (Option.map Spawned.detach) hbefore
    | some pump =>
        refine hprinted.settles hpc hsame hbefore
          (hpump.trans (congrArg (Option.map Spawned.detach) hbefore)) (.inl ?_)
        unfold Spawned.detach
        split <;> rfl
  · refine hprinted.turns (fun hbefore ↦ absurd hbefore hpc) ?_
      (hpump.trans (abandon_pump run hdrain))
    rw [hlog]
    exact abandon_turns run call

/-- The steps of `serve_run` keep the log to what the pump has read. -/
theorem printed_of_serves {action : Action} (h : Serves run action next)
    (hprinted : Printed run) : Printed next := by
  have hkept {next : Run} (hpc : Unspawned next.pc → Unspawned run.pc)
      (hlog : next.log = run.log) (hpump : next.pump = run.pump) : Printed next :=
    hprinted.turns hpc (hlog ▸ .refl _) hpump
  cases h with
  | accepted hpc | validated hpc | started hpc =>
      exact hkept (fun _ ↦ by rw [hpc]; trivial) rfl rfl
  | ignored => exact hkept id rfl rfl
  | spawned hpc =>
      obtain ⟨reads, actions, hexec, hunwritten, hpumped⟩ := hprinted.printed
      rw [hprinted.unspawned (by rw [hpc]; trivial)] at hpumped
      refine ⟨False.elim, reads, actions, hexec, hunwritten, ?_⟩
      rw [hpumped.1, hpumped.2]
      rfl
  | interrupted terminal inbox stage call =>
      have htaken : Printed (run.taken terminal inbox) := hkept id rfl rfl
      exact printed_abandon htaken call id rfl rfl
  | suspended hpc hadvance => exact printed_advance hadvance hprinted id rfl rfl
  | answered hpc hadvance => exact printed_advance hadvance hprinted id rfl rfl
  | _ => exact hkept False.elim rfl rfl

/-- Every step of a run moves its log by steps of the log stream. -/
theorem log_of_step {action : Action} (h : step run action = some next) :
    ∃ actions, LogStream.machine.exec run.log actions = some next.log := by
  have hlogs {log : LogStream} (action : LogStream.Action)
      (hstep : run.log.step action = some log) :
      ∃ actions, LogStream.machine.exec run.log actions = some log :=
    ⟨[action], by
      rw [Machine.exec_cons, show LogStream.machine.step run.log action = _ from hstep]
      rfl⟩
  rcases step_cases h with ⟨htask, -⟩ | hserves
  · cases action with
    | arrives terminal => cases h; exact ⟨[], rfl⟩
    | exits result => rw [exits_eq_some h]; exact ⟨[], rfl⟩
    | reads bytes =>
        change run.reads bytes = some next at h
        unfold reads at h
        split at h <;> cases h
        exact ⟨_, exec_calls run.log _⟩
    | hangsUp =>
        change run.hangsUp = some next at h
        unfold hangsUp at h
        split at h <;> cases h
        exact ⟨_, exec_calls run.log _⟩
    | selects wake =>
        obtain ⟨log, hlog, rfl⟩ := Option.map_eq_some_iff.mp h
        exact hlogs (.select wake) hlog
    | flushes =>
        obtain ⟨log, hlog, rfl⟩ := Option.map_eq_some_iff.mp h
        exact hlogs .flush hlog
    | flushed sent =>
        obtain ⟨log, hlog, rfl⟩ := Option.map_eq_some_iff.mp h
        exact hlogs (.answer sent) hlog
    | watches action =>
        obtain ⟨after, -, rfl⟩ := Option.map_eq_some_iff.mp h
        exact ⟨[], rfl⟩
    | _ => exact htask.elim
  · obtain ⟨actions, hexec, -⟩ := serves_turns hserves
    exact ⟨actions, hexec⟩

theorem printed_of_reachable (h : machine.Reachable run) : Printed run := by
  apply h.invariant Printed
  · rintro _ ⟨setup, rfl⟩
    exact ⟨fun _ ↦ rfl, [], [], rfl, nofun, rfl, rfl⟩
  · intro run action next hprinted _ hstep
    rcases step_cases hstep with ⟨htask, -⟩ | hserves
    · exact printed_of_task htask hstep hprinted
    · exact printed_of_serves hserves hprinted

/-- **No escape leaves the machine.**  `plain` removes every escape, keeps the rest in order and is
done after one pass, and pass by pass between sequences; whatever is pushed to a log stream and
whatever its flusher does, the farm's copy and the tail have no escape and the other views have the
lines as they came; and the log of every run has seen the calls its output was cut into, and no
others. -/
theorem no_escape_leaves :
    (∀ text, Ansi.esc ∉ Ansi.plain text ∧ (Ansi.plain text).Sublist text ∧
      Ansi.plain (Ansi.plain text) = Ansi.plain text ∧
      (Ansi.State.text.after text = .text →
        ∀ more, Ansi.plain (text ++ more) = Ansi.plain text ++ Ansi.plain more)) ∧
    (∀ actions stream, LogStream.machine.exec .new actions = some stream →
      Stripped actions stream) ∧
    ∀ run, machine.Reachable run → ∃ reads actions,
      LogStream.machine.exec .new actions = some run.log ∧ Unwritten actions ∧
        calls actions <+: LineAssembler.pump reads := by
  refine ⟨fun text ↦ ?_, fun actions stream hexec ↦ stripped_of_exec hexec, fun run h ↦ ?_⟩
  · exact ⟨Ansi.esc_notMem_plain text, Ansi.plain_sublist text, Ansi.plain_plain text,
      fun hbetween more ↦ Ansi.plain_append hbetween more⟩
  · obtain ⟨reads, actions, hexec, hunwritten, hpumped⟩ := (printed_of_reachable h).printed
    exact ⟨reads, actions, hexec, hunwritten, hpumped.called_of_pump⟩

theorem no_escape_leaves_coloured : ∃ stream,
    LogStream.machine.exec .new [.pushLine [0x1B, 0x5B, 0x6D, 0x61] .newline] = some stream ∧
      Stripped [.pushLine [0x1B, 0x5B, 0x6D, 0x61] .newline] stream :=
  ⟨_, rfl, no_escape_leaves.2.1 _ _ rfl⟩

end Run

end RalphexRunner
