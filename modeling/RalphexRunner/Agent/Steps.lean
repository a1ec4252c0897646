import RalphexRunner.Agent.Run
import RalphexRunner.LogStream.Chunks
import RalphexRunner.Semantics.Trace

/-!
# What the steps of a run do

The parts of a run that a step leaves alone, and the events it adds.  A step of a task changes
neither where `serve_run` stands nor the events that decide its outcome; an await changes what it
waits for and adds the one event its call is named after.
-/

namespace RalphexRunner

def Call.OfWatcher : Call → Prop
  | .halt => True
  | .unwatch => True
  | .freeze _ => True
  | _ => False

namespace Run

variable {run next : Run}

@[simp] theorem emit_setup (run : Run) (events : List Event) :
    (run.emit events).setup = run.setup := rfl

@[simp] theorem emit_pc (run : Run) (events : List Event) : (run.emit events).pc = run.pc := rfl

@[simp] theorem emit_log (run : Run) (events : List Event) : (run.emit events).log = run.log := rfl

@[simp] theorem emit_pump (run : Run) (events : List Event) :
    (run.emit events).pump = run.pump := rfl

@[simp] theorem emit_watcher (run : Run) (events : List Event) :
    (run.emit events).watcher = run.watcher := rfl

@[simp] theorem emit_trace (run : Run) (events : List Event) :
    (run.emit events).trace = run.trace ++ events := rfl

/-- Events of the tasks beside `serve_run`. -/
def Event.Background : Event → Prop
  | .due _ => True
  | .appended _ _ => True
  | _ => False

/-- The actions of the world and of the tasks beside `serve_run`. -/
def Action.OfTask : Action → Prop
  | .arrives _ => True
  | .exits _ => True
  | .reads _ => True
  | .hangsUp => True
  | .selects _ => True
  | .flushes => True
  | .flushed _ => True
  | .watches _ => True
  | _ => False

/-- A step beside `serve_run`. -/
structure Beside (run next : Run) : Prop where
  setup : next.setup = run.setup
  pc : next.pc = run.pc
  trace : ∃ events, next.trace = run.trace ++ events ∧ ∀ event ∈ events, event.Background

theorem Beside.silent (hsetup : next.setup = run.setup) (hpc : next.pc = run.pc)
    (htrace : next.trace = run.trace) : Beside run next :=
  ⟨hsetup, hpc, [], by rw [htrace, List.append_nil], by simp⟩

theorem logs_beside {log : Option LogStream} (h : run.logs log = some next) : Beside run next := by
  obtain ⟨log, -, rfl⟩ := Option.map_eq_some_iff.mp h
  refine ⟨rfl, rfl, handedOver run.log log, rfl, fun event hevent ↦ ?_⟩
  obtain ⟨chunk, -, rfl⟩ := List.mem_map.mp hevent
  trivial

theorem watches_beside {action : PlanWatcher.Action} (h : run.watches action = some next) :
    Beside run next := by
  obtain ⟨after, -, rfl⟩ := Option.map_eq_some_iff.mp h
  refine ⟨rfl, rfl, after.2.map .due, rfl, fun event hevent ↦ ?_⟩
  obtain ⟨due, -, rfl⟩ := List.mem_map.mp hevent
  trivial

theorem exits_eq_some {result : Except JobError ExitStatus} (h : run.exits result = some next) :
    next = { run with exit := some result } := by
  unfold exits at h
  split at h <;> cases h
  rfl

/-- Draining the terminal feeds the log and the tracker, and at most ends the task. -/
theorem reads_eq_some {bytes : List UInt8} (h : run.reads bytes = some next) :
    ∃ assembler handle calls assembler', run.pump = some ⟨.running assembler, handle⟩ ∧
      next = { run.takes calls with pump := some ⟨.running assembler', handle⟩ } := by
  unfold reads at h
  split at h <;> cases h
  rename_i assembler handle hpump
  exact ⟨assembler, handle, _, _, hpump, rfl⟩

theorem hangsUp_eq_some (h : run.hangsUp = some next) :
    ∃ assembler handle calls, run.pump = some ⟨.running assembler, handle⟩ ∧
      next = { run.takes calls with pump := some ⟨.ended, handle⟩ } := by
  unfold hangsUp at h
  split at h <;> cases h
  rename_i assembler handle hpump
  exact ⟨assembler, handle, _, hpump, rfl⟩

/-- The tasks beside `serve_run` leave it where it stands. -/
theorem step_beside {action : Action} (haction : action.OfTask) (h : step run action = some next) :
    Beside run next := by
  cases action with
  | arrives terminal => cases h; exact .silent rfl rfl rfl
  | exits result => rw [exits_eq_some h]; exact .silent rfl rfl rfl
  | reads bytes =>
      obtain ⟨_, _, _, _, -, rfl⟩ := reads_eq_some h
      exact .silent rfl rfl rfl
  | hangsUp =>
      obtain ⟨_, _, _, -, rfl⟩ := hangsUp_eq_some h
      exact .silent rfl rfl rfl
  | selects wake => exact logs_beside h
  | flushes => exact logs_beside h
  | flushed sent => exact logs_beside h
  | watches action => exact watches_beside h
  | _ => exact haction.elim

@[simp] theorem flusher_takes (run : Run) (calls : List LineAssembler.Call) :
    (run.takes calls).log.flusher = run.log.flusher := by
  have hfold (log : LogStream) :
      (calls.foldl LineAssembler.Call.apply log).flusher = log.flusher := by
    induction calls generalizing log with
    | nil => rfl
    | cons call rest ih =>
        rw [List.foldl_cons, ih]
        cases call <;> rfl
  exact hfold run.log

/-- The pump takes steps of its own at most. -/
theorem step_pump {action : Action} (haction : action.OfTask) (h : step run action = some next) :
    next.pump = run.pump ∨
      ∃ pump after, run.pump = some pump ∧ pump.Runs after ∧ next.pump = some after := by
  cases action with
  | arrives terminal => cases h; exact .inl rfl
  | exits result => rw [exits_eq_some h]; exact .inl rfl
  | reads bytes =>
      obtain ⟨assembler, handle, calls, assembler', hpump, rfl⟩ := reads_eq_some h
      exact .inr ⟨_, _, hpump, .inr ⟨assembler, .running assembler', rfl, rfl⟩, rfl⟩
  | hangsUp =>
      obtain ⟨assembler, handle, calls, hpump, rfl⟩ := hangsUp_eq_some h
      exact .inr ⟨_, _, hpump, .inr ⟨assembler, .ended, rfl, rfl⟩, rfl⟩
  | selects | flushes | flushed | watches =>
      obtain ⟨after, -, rfl⟩ := Option.map_eq_some_iff.mp h
      exact .inl rfl
  | _ => exact haction.elim

/-- So does the flusher. -/
theorem step_flusher {action : Action} (haction : action.OfTask)
    (h : step run action = some next) : run.log.flusher.Runs next.log.flusher := by
  cases action with
  | arrives terminal => cases h; exact .inl rfl
  | exits result => rw [exits_eq_some h]; exact .inl rfl
  | reads bytes =>
      obtain ⟨_, _, _, _, -, rfl⟩ := reads_eq_some h
      exact .inl (flusher_takes _ _)
  | hangsUp =>
      obtain ⟨_, _, _, -, rfl⟩ := hangsUp_eq_some h
      exact .inl (flusher_takes _ _)
  | selects wake =>
      obtain ⟨after, hafter, rfl⟩ := Option.map_eq_some_iff.mp h
      exact .inr (LogStream.select_ticks hafter)
  | flushes =>
      obtain ⟨after, hafter, rfl⟩ := Option.map_eq_some_iff.mp h
      exact .inr (LogStream.flush_ticks hafter)
  | flushed sent =>
      obtain ⟨after, hafter, rfl⟩ := Option.map_eq_some_iff.mp h
      exact .inr (LogStream.answer_ticks hafter)
  | watches action =>
      obtain ⟨after, -, rfl⟩ := Option.map_eq_some_iff.mp h
      exact .inl rfl
  | _ => exact haction.elim

/-- Once the flusher is settled no chunk is handed to the farm. -/
theorem step_silent {action : Action} (haction : action.OfTask)
    (hsettled : run.log.flusher.task.Settled) (h : step run action = some next) :
    ∃ events, next.trace = run.trace ++ events ∧ ∀ seq chunk, .appended seq chunk ∉ events := by
  cases action with
  | arrives terminal => cases h; exact ⟨[], (List.append_nil _).symm, nofun⟩
  | exits result => rw [exits_eq_some h]; exact ⟨[], (List.append_nil _).symm, nofun⟩
  | reads bytes =>
      obtain ⟨_, _, _, _, -, rfl⟩ := reads_eq_some h
      exact ⟨[], (List.append_nil _).symm, nofun⟩
  | hangsUp =>
      obtain ⟨_, _, _, -, rfl⟩ := hangsUp_eq_some h
      exact ⟨[], (List.append_nil _).symm, nofun⟩
  | selects wake =>
      obtain ⟨after, hafter, -⟩ := Option.map_eq_some_iff.mp h
      exact absurd hsettled (LogStream.select_ticks hafter).not_settled
  | flushes =>
      obtain ⟨after, hafter, -⟩ := Option.map_eq_some_iff.mp h
      exact absurd hsettled (LogStream.flush_ticks hafter).not_settled
  | flushed sent =>
      obtain ⟨after, hafter, -⟩ := Option.map_eq_some_iff.mp h
      exact absurd hsettled (LogStream.answer_ticks hafter).not_settled
  | watches action =>
      obtain ⟨after, -, rfl⟩ := Option.map_eq_some_iff.mp h
      refine ⟨after.2.map .due, rfl, fun seq chunk hmem ↦ ?_⟩
      obtain ⟨due, -, hdue⟩ := List.mem_map.mp hmem
      cases hdue
  | _ => exact haction.elim

/-- The events one step of an await can add. -/
inductive Added : Call → List Event → Prop
  | nothing (call : Call) : Added call []
  | due (snapshot : Snapshot) (fate : Fate) : Added (.post snapshot) [.due ⟨snapshot, fate⟩]
  | stepped (command : Command) : Added (.step command) [.stepped command]

/-- What one step of an await leaves alone. -/
structure Awaited (run : Run) (call : Call) (move : Move call) : Prop where
  setup : move.after.setup = run.setup
  inbox : move.after.inbox = run.inbox
  exit : move.after.exit = run.exit
  log : call = .closeLog ∨ move.after.log = run.log
  pump : call = .drainOutput ∨ move.after.pump = run.pump
  watcher : call.OfWatcher ∨ move.after.watcher = run.watcher
  trace : ∃ events, move.after.trace = run.trace ++ events ∧ Added call events

theorem Awaited.same {call : Call} {move : Move call} (h : move.after = run) :
    Awaited run call move := by
  subst h
  exact ⟨rfl, rfl, rfl, .inr rfl, .inr rfl, .inr rfl, [], (List.append_nil _).symm, .nothing call⟩

theorem Awaited.watched {call : Call} {move : Move call} (hcall : call.OfWatcher)
    {watcher : Option PlanWatcher} (h : move.after = { run with watcher }) :
    Awaited run call move :=
  ⟨by rw [h], by rw [h], by rw [h], .inr (by rw [h]), .inr (by rw [h]), .inl hcall, [],
    by rw [h, List.append_nil], .nothing call⟩

theorem Awaited.emits {call : Call} {move : Move call} {events : List Event}
    (hadded : Added call events) (h : move.after = run.emit events) : Awaited run call move :=
  ⟨by rw [h, emit_setup], by rw [h]; rfl, by rw [h]; rfl, .inr (by rw [h, emit_log]),
    .inr (by rw [h, emit_pump]), .inr (by rw [h, emit_watcher]), events, by rw [h, emit_trace],
    hadded⟩

theorem Awaited.drained {move : Move .drainOutput} {pump : Option (Spawned LineAssembler)}
    (h : move.after = { run with pump }) : Awaited run .drainOutput move :=
  ⟨by rw [h], by rw [h], by rw [h], .inr (by rw [h]), .inl rfl, .inr (by rw [h]), [],
    by rw [h, List.append_nil], .nothing _⟩

theorem Awaited.closed {move : Move .closeLog} {log : LogStream}
    (h : move.after = { run with log }) : Awaited run .closeLog move :=
  ⟨by rw [h], by rw [h], by rw [h], .inl rfl, .inr (by rw [h]), .inr (by rw [h]), [],
    by rw [h, List.append_nil], .nothing _⟩

theorem unwatch_eq_some (h : run.unwatch = some next) :
    ∃ watcher, run.watcher = some watcher ∧ watcher.opened = true ∧
      next = { run with watcher := some { watcher with posts := .aborted } } := by
  unfold unwatch at h
  obtain ⟨after, hafter, rfl⟩ := Option.map_eq_some_iff.mp h
  obtain ⟨watcher, hwatcher, hstopped⟩ := Option.bind_eq_some_iff.mp hafter
  unfold PlanWatcher.stopped at hstopped
  split at hstopped <;> cases hstopped
  rename_i hopened
  exact ⟨watcher, hwatcher, hopened, rfl⟩

theorem drainOutput_awaited (run : Run) : Awaited run .drainOutput run.drainOutput := by
  unfold drainOutput
  split
  · exact .drained rfl
  · exact .same rfl

theorem closeLog_awaited (run : Run) : Awaited run .closeLog run.closeLog := by
  unfold closeLog
  split <;> exact .closed rfl

/-- An await changes what it waits for and adds the event it is named after, and nothing else. -/
theorem advance_awaited {call : Call} {stage : Stage} {poke : Poke} {move : Move call}
    (h : run.advance call stage poke = some move) : Awaited run call move := by
  unfold advance at h
  split at h
  case h_3 | h_6 =>
    obtain ⟨after, hunwatch, rfl⟩ := Option.map_eq_some_iff.mp h
    obtain ⟨watcher, -, -, rfl⟩ := unwatch_eq_some hunwatch
    exact .watched trivial rfl
  case h_7 => cases h; exact drainOutput_awaited run
  case h_8 | h_9 =>
    obtain ⟨pump, -, rfl⟩ := Option.map_eq_some_iff.mp h
    exact .drained rfl
  case h_10 => cases h; exact closeLog_awaited run
  case h_11 | h_12 =>
    obtain ⟨log, -, rfl⟩ := Option.map_eq_some_iff.mp h
    exact .closed rfl
  case h_1 | h_5 | h_14 => cases h; exact .watched trivial rfl
  case h_17 | h_19 => cases h; exact .emits (.due _ _) rfl
  case h_21 => cases h; exact .emits (.stepped _) rfl
  case h_24 => cases h
  all_goals cases h; exact .same rfl

/-- What one step of a drain does to the pump. -/
theorem advance_drainOutput {stage : Stage} {poke : Poke} {move : Move .drainOutput}
    (h : run.advance .drainOutput stage poke = some move) :
    (stage = .ready ∧ move = run.drainOutput) ∨
      (stage = .awaiting ∧ ∃ pump after, run.pump = some pump ∧
        (pump.join = some after ∨ pump.expire = some after) ∧
          move = .answered { run with pump := some after } ()) := by
  cases stage <;> cases poke <;> simp only [advance, reduceCtorEq] at h
  case ready.performs => exact .inl ⟨rfl, (Option.some.inj h).symm⟩
  case awaiting.completes =>
    obtain ⟨after, hafter, rfl⟩ := Option.map_eq_some_iff.mp h
    obtain ⟨pump, hpump, hjoin⟩ := Option.bind_eq_some_iff.mp hafter
    exact .inr ⟨rfl, pump, after, hpump, .inl hjoin, rfl⟩
  case awaiting.elapses =>
    obtain ⟨after, hafter, rfl⟩ := Option.map_eq_some_iff.mp h
    obtain ⟨pump, hpump, hexpire⟩ := Option.bind_eq_some_iff.mp hafter
    exact .inr ⟨rfl, pump, after, hpump, .inr hexpire, rfl⟩

/-- What one step of a close does to the flusher. -/
theorem advance_closeLog {stage : Stage} {poke : Poke} {move : Move .closeLog}
    (h : run.advance .closeLog stage poke = some move) :
    (stage = .ready ∧ move = run.closeLog) ∨
      (stage = .awaiting ∧ ∃ log flusher, log.flusher = flusher ∧
        (run.log.flusher.join = some flusher ∨ run.log.flusher.expire = some flusher) ∧
          move = .answered { run with log } ()) := by
  cases stage <;> cases poke <;> simp only [advance, reduceCtorEq] at h
  case ready.performs => exact .inl ⟨rfl, (Option.some.inj h).symm⟩
  case awaiting.completes =>
    obtain ⟨log, hjoined, rfl⟩ := Option.map_eq_some_iff.mp h
    obtain ⟨flusher, hflusher, rfl⟩ := Option.map_eq_some_iff.mp hjoined
    exact .inr ⟨rfl, _, flusher, rfl, .inl hflusher, rfl⟩
  case awaiting.elapses =>
    obtain ⟨log, helapsed, rfl⟩ := Option.map_eq_some_iff.mp h
    obtain ⟨flusher, hflusher, rfl⟩ := Option.map_eq_some_iff.mp helapsed
    exact .inr ⟨rfl, _, flusher, rfl, .inr hflusher, rfl⟩

/-- What one step of a halt does to the watcher. -/
theorem advance_halt {stage : Stage} {poke : Poke} {move : Move .halt}
    (h : run.advance .halt stage poke = some move) :
    (stage = .ready ∧ move = .suspended run.release (.joining false false)) ∨
      (∃ unwatched, stage = .joining false unwatched ∧
        move = .suspended run (.joining true unwatched)) ∨
      (∃ halted after, stage = .joining halted false ∧ run.unwatch = some after ∧
        move = .suspended after (.joining halted true)) ∨
      (stage = .joining true true ∧ move = .answered run ()) := by
  rcases stage with _ | _ | _ | ⟨_ | _, _ | _⟩ <;> cases poke <;>
    simp only [advance, reduceCtorEq, Option.some.injEq, Option.map_eq_some_iff] at h
  case ready.performs => exact .inl ⟨rfl, h.symm⟩
  case joining.false.false.halts | joining.false.true.halts =>
    exact .inr (.inl ⟨_, rfl, h.symm⟩)
  case joining.false.false.unwatches | joining.true.false.unwatches =>
    obtain ⟨after, hafter, rfl⟩ := h
    exact .inr (.inr (.inl ⟨_, after, rfl, hafter, rfl⟩))
  case joining.true.true.completes => exact .inr (.inr (.inr ⟨rfl, h.symm⟩))

theorem advance_unwatch {stage : Stage} {poke : Poke} {move : Move .unwatch}
    (h : run.advance .unwatch stage poke = some move) :
    (stage = .ready ∧ move = .suspended run.release .awaiting) ∨
      ∃ after, stage = .awaiting ∧ run.unwatch = some after ∧ move = .answered after () := by
  cases stage <;> cases poke <;>
    simp only [advance, reduceCtorEq, Option.some.injEq, Option.map_eq_some_iff] at h
  case ready.performs => exact .inl ⟨rfl, h.symm⟩
  case awaiting.completes =>
    obtain ⟨after, hafter, rfl⟩ := h
    exact .inr ⟨after, rfl, hafter, rfl⟩

/-- A post is handed to the sender, or its deadline passes before or after that. -/
theorem advance_post {snapshot : Snapshot} {stage : Stage} {poke : Poke}
    {move : Move (.post snapshot)} (h : run.advance (.post snapshot) stage poke = some move) :
    (stage = .ready ∧ move = .suspended run .awaiting) ∨
      (stage = .awaiting ∧ move = .suspended (run.emit [.due ⟨snapshot, .handed⟩]) .handed) ∨
      (stage = .handed ∧ move = .answered run ()) ∨
      (stage = .awaiting ∧ move = .answered (run.emit [.due ⟨snapshot, .missed⟩]) ()) := by
  cases stage <;> cases poke <;> simp only [advance, reduceCtorEq, Option.some.injEq] at h
  case ready.performs => exact .inl ⟨rfl, h.symm⟩
  case awaiting.hands => exact .inr (.inl ⟨rfl, h.symm⟩)
  case handed.completes | handed.elapses => exact .inr (.inr (.inl ⟨rfl, h.symm⟩))
  case awaiting.elapses => exact .inr (.inr (.inr ⟨rfl, h.symm⟩))

theorem advance_freeze {phase : Phase} {stage : Stage} {poke : Poke} {move : Move (.freeze phase)}
    (h : run.advance (.freeze phase) stage poke = some move) :
    stage = .ready ∧ move = .answered (run.freeze phase) () := by
  cases stage <;> cases poke <;> simp only [advance, reduceCtorEq, Option.some.injEq] at h
  case ready.performs => exact ⟨rfl, h.symm⟩

theorem advance_phase {stage : Stage} {poke : Poke} {move : Move .phase}
    (h : run.advance .phase stage poke = some move) :
    stage = .ready ∧ move = .answered run run.phase := by
  cases stage <;> cases poke <;> simp only [advance, reduceCtorEq, Option.some.injEq] at h
  case ready.performs => exact ⟨rfl, h.symm⟩

/-- Only a halt joins two awaits. -/
theorem advance_joining {call : Call} {stage : Stage} {poke : Poke} {after : Run}
    {halted unwatched : Bool}
    (h : run.advance call stage poke = some (.suspended after (.joining halted unwatched))) :
    call = .halt := by
  unfold advance at h
  split at h
  case h_7 => unfold drainOutput at h; split at h <;> cases h
  case h_10 => unfold closeLog at h; split at h <;> cases h
  case h_6 | h_8 | h_9 | h_11 | h_12 =>
    obtain ⟨_, -, hmove⟩ := Option.map_eq_some_iff.mp h
    cases hmove
  all_goals first | rfl | cases h

/-! ## The body of `serve_run` -/

@[simp] theorem abandon_setup (run : Run) (call : Call) :
    (run.abandon call).setup = run.setup := by
  cases call <;> rfl

@[simp] theorem abandon_trace (run : Run) (call : Call) :
    (run.abandon call).trace = run.trace := by
  cases call <;> rfl

@[simp] theorem abandon_watcher (run : Run) (call : Call) :
    (run.abandon call).watcher = run.watcher := by
  cases call <;> rfl

theorem abandon_pump (run : Run) {call : Call} (h : call ≠ .drainOutput) :
    (run.abandon call).pump = run.pump := by
  cases call <;> first | exact absurd rfl h | rfl

theorem abandon_log (run : Run) {call : Call} (h : call ≠ .closeLog) :
    (run.abandon call).log = run.log := by
  cases call <;> first | exact absurd rfl h | rfl

def taken (run : Run) (terminal : Terminal) (inbox : List Terminal) : Run :=
  { run with inbox }.emit [.consumed terminal]

section Taken

variable (run : Run) (terminal : Terminal) (inbox : List Terminal)

@[simp] theorem taken_setup : (run.taken terminal inbox).setup = run.setup := rfl

@[simp] theorem taken_pc : (run.taken terminal inbox).pc = run.pc := rfl

@[simp] theorem taken_log : (run.taken terminal inbox).log = run.log := rfl

@[simp] theorem taken_pump : (run.taken terminal inbox).pump = run.pump := rfl

@[simp] theorem taken_watcher : (run.taken terminal inbox).watcher = run.watcher := rfl

@[simp] theorem taken_trace :
    (run.taken terminal inbox).trace = run.trace ++ [.consumed terminal] := rfl

end Taken

/-- Everything a step of `serve_run` itself can do. -/
inductive Serves (run : Run) : Action → Run → Prop
  | accepted : run.pc = .entered → run.setup.job.runtime = runtimeName →
      Serves run .begins { run with pc := .validating }
  | mismatched : run.pc = .entered → run.setup.job.runtime ≠ runtimeName →
      Serves run .begins { run with
        pc := .reporting (Finish.refused (runtimeMismatch run.setup.job.runtime)) }
  | validated : run.pc = .validating →
      Serves run (.validates (.ok ())) { run with pc := .watching }
  | invalid (error : JobError) : run.pc = .validating →
      Serves run (.validates (.error error)) { run with
        pc := .reporting (Finish.refused (failed error.failReason error.message [])) }
  | started : run.pc = .watching →
      Serves run .starts { run with pc := .spawning, watcher := some .start }
  | spawned : run.pc = .spawning → Serves run (.spawns (.ok ()))
      ({ run with pc := .waiting, pump := some (.start .new) }.emit [.spawned])
  | unspawned (error : JobError) : run.pc = .spawning → Serves run (.spawns (.error error))
      { run with pc := .performing .winding .ready (Finish.unspawned error run.setup.output) }
  | exited (result : Except JobError ExitStatus) : run.pc = .waiting → run.exit = some result →
      Serves run .takesExit ({ run with pc := .unwatching result }.release.emit [.exited result])
  | unwatched (result : Except JobError ExitStatus) (watcher : PlanWatcher) :
      run.pc = .unwatching result → run.watcher = some watcher → watcher.opened = true →
      Serves run .unwatched { run with
        watcher := some { watcher with posts := .aborted }
        pc := .performing .finishing .ready (run.setup.finishing result) }
  | stopped (terminal : Terminal) (inbox : List Terminal) : run.pc = .waiting →
      run.exit = none → run.inbox = terminal :: inbox →
      Serves run .consumes { run.taken terminal inbox with
        pc := .performing .winding .ready (Finish.stop terminal run.setup.output) }
  | ignored (inbox : List Terminal) (stage : Stage) (call : Call)
      (resume : call.Answer → RunProgram Finished) :
      run.pc = .performing .finishing stage (.call call resume) → run.inbox = .drain :: inbox →
      Serves run .consumes (run.taken .drain inbox)
  | interrupted (terminal : Terminal) (inbox : List Terminal) (stage : Stage) (call : Call)
      (resume : call.Answer → RunProgram Finished) : terminal ≠ .drain →
      run.pc = .performing .finishing stage (.call call resume) → run.inbox = terminal :: inbox →
      run.Suspended call stage →
      Serves run .consumes { (run.taken terminal inbox).abandon call with
        pc := .performing .winding .ready (Finish.interrupt terminal run.setup.output) }
  | suspended {mode : Mode} {stage stage' : Stage} {call : Call}
      {resume : call.Answer → RunProgram Finished} {poke : Poke} {after : Run} :
      run.pc = .performing mode stage (.call call resume) →
      run.advance call stage poke = some (.suspended after stage') →
      Serves run (.pokes poke) { after with pc := .performing mode stage' (.call call resume) }
  | answered {mode : Mode} {stage : Stage} {call : Call}
      {resume : call.Answer → RunProgram Finished} {poke : Poke} {after : Run}
      {answer : call.Answer} : run.pc = .performing mode stage (.call call resume) →
      run.advance call stage poke = some (.answered after answer) →
      Serves run (.pokes poke) ({ after with pc := .performing mode .ready (resume answer) }.emit
        [.answered ⟨call, answer⟩])
  | concluded {mode : Mode} (finished : Finished) :
      run.pc = .performing mode .ready (.done finished) →
      Serves run .concludes { run with pc := .reporting finished }
  | reported (finished : Finished) (completion : CompleteRequest) : run.pc = .reporting finished →
      finished.completion = some completion →
      Serves run .reports ({ run with pc := .reported finished completion }.emit
        [.completed completion])
  | silent (finished : Finished) : run.pc = .reporting finished → finished.completion = none →
      Serves run .reports { run with pc := .removing finished (unsent finished.outcome) }
  | heard (finished : Finished) (completion : CompleteRequest) (answer : Except FarmError Unit) :
      run.pc = .reported finished completion → Serves run (.hears answer)
        { run with pc := .removing finished (report completion answer) }
  | removed (finished : Finished) (ended : RunEnd) : run.pc = .removing finished ended →
      Serves run .removes { run with pc := .leaving finished ended }
  | left (finished : Finished) (ended : RunEnd) : run.pc = .leaving finished ended →
      Serves run .leaves { run with pc := .left finished ended }

theorem Added.not_appended {call : Call} {events : List Event} (h : Added call events) (seq : Seq)
    (chunk : List UInt8) : .appended seq chunk ∉ events := by
  cases h <;> simp

/-- `serve_run` itself hands no chunk to the farm. -/
theorem serves_silent {action : Action} (h : Serves run action next) :
    ∃ events, next.trace = run.trace ++ events ∧ ∀ seq chunk, .appended seq chunk ∉ events := by
  cases h with
  | spawned | exited | reported => exact ⟨_, rfl, by simp⟩
  | stopped | ignored => exact ⟨_, rfl, by simp⟩
  | interrupted terminal inbox stage call resume =>
      exact ⟨[.consumed terminal], by rw [abandon_trace, taken_trace], by simp⟩
  | suspended hpc hadvance =>
      obtain ⟨-, -, -, -, -, -, events, htrace, hadded⟩ := advance_awaited hadvance
      exact ⟨events, htrace, hadded.not_appended⟩
  | @answered mode stage call resume poke after answer hpc hadvance =>
      obtain ⟨-, -, -, -, -, -, events, htrace, hadded⟩ := advance_awaited hadvance
      refine ⟨events ++ [.answered ⟨call, answer⟩], ?_, fun seq chunk hmem ↦ ?_⟩
      · rw [emit_trace, ← List.append_assoc, ← htrace]
        rfl
      · rw [List.mem_append] at hmem
        rcases hmem with hmem | hmem
        · exact hadded.not_appended seq chunk hmem
        · cases List.mem_singleton.mp hmem
  | _ => exact ⟨[], (List.append_nil _).symm, nofun⟩

/-- A terminal that is taken stops the run, interrupts its program or is ignored. -/
theorem consumes_serves (h : run.consumes = some next) : Serves run .consumes next := by
  unfold consumes at h
  split at h
  · cases h
  rename_i terminal inbox hinbox
  dsimp only at h
  split at h
  · rename_i hpc
    split at h <;> cases h
    rename_i hexit
    exact .stopped terminal inbox hpc (Option.isNone_iff_eq_none.mp hexit) hinbox
  · rename_i stage call resume hpc
    split at h <;> cases h
    rename_i hsuspended
    by_cases hdrain : terminal = .drain
    · subst hdrain
      exact .ignored inbox stage call resume hpc hinbox
    · have hinterrupts : (run.taken terminal inbox).interrupts call terminal =
          { (run.taken terminal inbox).abandon call with
            pc := .performing .winding .ready (Finish.interrupt terminal run.setup.output) } := by
        cases terminal <;> first | exact absurd rfl hdrain | rfl
      have hinterrupted := Serves.interrupted terminal inbox stage call resume hdrain hpc hinbox
        hsuspended
      rw [← hinterrupts] at hinterrupted
      exact hinterrupted
  · cases h

theorem pokes_serves {poke : Poke} (h : run.pokes poke = some next) :
    Serves run (.pokes poke) next := by
  unfold pokes at h
  split at h
  · rename_i mode stage call resume hpc
    obtain ⟨move, hadvance, rfl⟩ := Option.map_eq_some_iff.mp h
    cases move with
    | suspended after stage' => exact .suspended hpc hadvance
    | answered after answer => exact .answered hpc hadvance
  · cases h

/-- A step is one of the world and of the tasks beside `serve_run`, or one of `serve_run` itself. -/
theorem step_cases {action : Action} (h : step run action = some next) :
    (action.OfTask ∧ Beside run next) ∨ Serves run action next := by
  cases action with
  | arrives | exits | reads | hangsUp | selects | flushes | flushed | watches =>
      exact .inl ⟨trivial, step_beside (by trivial) h⟩
  | begins =>
      simp only [step, begins] at h
      split at h
      · rename_i hpc
        split at h <;> cases h
        · exact .inr (.accepted hpc ‹_›)
        · exact .inr (.mismatched hpc ‹_›)
      · cases h
  | validates result =>
      simp only [step, validates] at h
      split at h <;> cases h
      · exact .inr (.validated ‹_›)
      · exact .inr (.invalid _ ‹_›)
  | starts =>
      simp only [step, starts] at h
      split at h <;> cases h
      exact .inr (.started ‹_›)
  | spawns result =>
      simp only [step, spawns] at h
      split at h <;> cases h
      · exact .inr (.spawned ‹_›)
      · exact .inr (.unspawned _ ‹_›)
  | takesExit =>
      simp only [step, takesExit] at h
      split at h <;> cases h
      exact .inr (.exited _ ‹_› ‹_›)
  | unwatched =>
      simp only [step, unwatched] at h
      split at h
      · obtain ⟨after, hunwatch, rfl⟩ := Option.map_eq_some_iff.mp h
        obtain ⟨watcher, hwatcher, hopened, rfl⟩ := unwatch_eq_some hunwatch
        exact .inr (.unwatched _ watcher ‹_› hwatcher hopened)
      · cases h
  | consumes => exact .inr (consumes_serves h)
  | pokes poke => exact .inr (pokes_serves h)
  | concludes =>
      simp only [step, concludes] at h
      split at h <;> cases h
      exact .inr (.concluded _ ‹_›)
  | reports =>
      simp only [step, reports] at h
      split at h
      · split at h <;> cases h
        · exact .inr (.reported _ _ ‹_› ‹_›)
        · exact .inr (.silent _ ‹_› ‹_›)
      · cases h
  | hears answer =>
      simp only [step, hears] at h
      split at h <;> cases h
      exact .inr (.heard _ _ answer ‹_›)
  | removes =>
      simp only [step, removes] at h
      split at h <;> cases h
      exact .inr (.removed _ _ ‹_›)
  | leaves =>
      simp only [step, leaves] at h
      split at h <;> cases h
      exact .inr (.left _ _ ‹_›)

theorem serves_setup {action : Action} (h : Serves run action next) : next.setup = run.setup := by
  cases h with
  | interrupted => rw [abandon_setup, taken_setup]
  | suspended hpc hadvance => exact (advance_awaited hadvance).setup
  | answered hpc hadvance => exact (advance_awaited hadvance).setup
  | _ => rfl

theorem step_setup {action : Action} (h : step run action = some next) :
    next.setup = run.setup := by
  rcases step_cases h with ⟨-, hbeside⟩ | hserves
  · exact hbeside.setup
  · exact serves_setup hserves

/-- A step adds events and takes none back. -/
theorem step_extends {action : Action} (h : step run action = some next) :
    ∃ events, next.trace = run.trace ++ events := by
  rcases step_cases h with ⟨-, -, -, events, htrace, -⟩ | hserves
  · exact ⟨events, htrace⟩
  · obtain ⟨events, htrace, -⟩ := serves_silent hserves
    exact ⟨events, htrace⟩

def Left (run : Run) : Prop := ∃ finished ended, run.pc = .left finished ended

theorem left_of_leaves (h : step run .leaves = some next) : ¬ Left run ∧ Left next := by
  rcases step_cases h with ⟨hnever, -⟩ | hserves
  · exact hnever.elim
  · cases hserves with
    | left finished ended hpc =>
        refine ⟨fun hleft ↦ ?_, finished, ended, rfl⟩
        obtain ⟨_, _, hleft⟩ := hleft
        rw [hpc] at hleft
        cases hleft

/-- A run is left by its last step alone. -/
theorem left_iff_of_step {action : Action} (h : step run action = some next)
    (haction : action ≠ .leaves) : Left next ↔ Left run := by
  rcases step_cases h with ⟨-, -, hpc, -⟩ | hserves
  · rw [Left, Left, hpc]
  · have hneither (hbefore : ¬ Left run) (hafter : ¬ Left next) : Left next ↔ Left run :=
      ⟨fun hleft ↦ absurd hleft hafter, fun hleft ↦ absurd hleft hbefore⟩
    cases hserves with
    | left => exact absurd rfl haction
    | ignored inbox stage call resume hpc => rw [Left, Left, taken_pc]
    | accepted hpc | mismatched hpc | validated hpc | invalid error hpc | started hpc | spawned hpc
    | unspawned error hpc | exited result hpc | unwatched result watcher hpc
    | stopped terminal inbox hpc | interrupted terminal inbox stage call resume hterminal hpc
    | suspended hpc | answered hpc | concluded finished hpc | reported finished completion hpc
    | silent finished hpc | heard finished completion answer hpc | removed finished ended hpc =>
        apply hneither
        · rw [Left, hpc]
          exact fun ⟨_, _, hleft⟩ ↦ by cases hleft
        · exact fun ⟨_, _, hleft⟩ ↦ by cases hleft

end Run

end RalphexRunner
