import RalphexRunner.Agent.Finish
import RalphexRunner.Job.LineAssembler

/-!
# One run, from its entry to its end

A `Run` is the state of `serve_run` and of everything it shares with its tasks: the flusher of the
log stream, the task draining the pseudo-terminal, the two tasks of the plan watcher, and the
channel the terminals arrive on.  `step` says what each action does; an action is what one party
does between two awaits, so a list of actions is one interleaving.  `trace` is not in the source: it
keeps the events the statements are about, in order.

The selects of `execute` are biased.  A terminal is therefore taken only while the exit status is
not available and, once the run has exited, only while the finishing program is suspended in an
await that is not over.  The sender of the terminals lives as long as the run, so the channel is
never closed.
-/

namespace RalphexRunner

/-- What is fixed about a run: the job, what its client asked for, the programs, and the output
directory made for it, if one is made. -/
structure Setup where
  job : Job
  worktree : Worktree
  tools : PrTools
  output : Option Text

/-- The file finalize is told to write the description to. -/
def Setup.prFile (setup : Setup) : Option Text := setup.output.map (· ++ "/pr.md".toList)

def Setup.pullRequest (setup : Setup) : PullRequest where
  branch := setup.job.branch
  worktree := setup.worktree
  origin := origin setup.job
  plan := setup.job.planPath
  runId := setup.job.runId
  prFile := setup.prFile
  createPr := setup.job.createPr

/-- What is left of a run that exited, up to what `execute` returns. -/
def Setup.finishing (setup : Setup) (exited : Except JobError ExitStatus) :
    RunProgram Finished := do
  let closed ← Finish.finish exited setup.pullRequest setup.tools
  pure (Finish.finished setup.output closed)

theorem Setup.finishing_eq (setup : Setup) (exited : Except JobError ExitStatus) :
    setup.finishing exited = .call .drainOutput fun _ ↦ .call .closeLog fun _ ↦
      Finish.settle exited setup.pullRequest setup.tools >>= fun closed ↦
        Finish.markFailure (some closed.completion) >>= fun _ ↦
          .done (Finish.finished setup.output closed) := by
  simp only [finishing, Finish.finish_eq, Program.call_bind, Program.bind_assoc,
    Program.done_bind, Program.pure_eq]

namespace Run

/-- What happens to a run that the statements speak of. -/
inductive Event where
  | spawned
  | consumed (terminal : Terminal)
  | exited (result : Except JobError ExitStatus)
  | stepped (command : Command)
  | answered (exchange : Program.Exchange Call Call.Answer)
  | due (due : Due)
  | appended (seq : Seq) (chunk : List UInt8)
  | completed (completion : CompleteRequest)

/-- Whether a terminal can still interrupt the program under way. -/
inductive Mode where
  | winding
  | finishing
  deriving DecidableEq

/-- How far the await at the head of a program has got. -/
inductive Stage where
  | ready
  | awaiting
  | handed
  | joining (halted unwatched : Bool)
  deriving DecidableEq

/-- Where `serve_run` stands. -/
inductive Pc where
  | entered
  | validating
  | watching
  | spawning
  | waiting
  | unwatching (exited : Except JobError ExitStatus)
  | performing (mode : Mode) (stage : Stage) (program : RunProgram Finished)
  | reporting (finished : Finished)
  | reported (finished : Finished) (completion : CompleteRequest)
  | removing (finished : Finished) (ended : RunEnd)
  | leaving (finished : Finished) (ended : RunEnd)
  | left (finished : Finished) (ended : RunEnd)

end Run

open Run in
/-- A run and everything it shares with its tasks. -/
structure Run where
  setup : Setup
  pc : Pc
  log : LogStream
  pump : Option (Spawned LineAssembler)
  watcher : Option PlanWatcher
  inbox : List Terminal
  exit : Option (Except JobError ExitStatus)
  trace : List Event

namespace Run

def enter (setup : Setup) : Run := ⟨setup, .entered, .new, none, none, [], none, []⟩

def emit (run : Run) (events : List Event) : Run := { run with trace := run.trace ++ events }

/-- What a call of the line assembler shows the tracker. -/
def heard (tracker : PhaseTracker) : LineAssembler.Call → PhaseTracker
  | .pushLine piece _ => tracker.observe (Ansi.plain (LogStream.lineText piece))
  | .pushBreak => tracker

/-- The log stream and the tracker take the calls of the line assembler. -/
def takes (run : Run) (calls : List LineAssembler.Call) : Run :=
  { run with
    log := calls.foldl LineAssembler.Call.apply run.log
    watcher := run.watcher.map fun watcher ↦
      { watcher with tracker := calls.foldl heard watcher.tracker } }

/-- The task draining the terminal reads some bytes. -/
def reads (run : Run) (bytes : List UInt8) : Option Run :=
  match run.pump with
  | some ⟨.running assembler, handle⟩ =>
      let fed := assembler.feed bytes
      some { run.takes fed.2 with pump := some ⟨.running fed.1, handle⟩ }
  | _ => none

/-- The task draining the terminal meets the end of the output. -/
def hangsUp (run : Run) : Option Run :=
  match run.pump with
  | some ⟨.running assembler, handle⟩ =>
      some { run.takes assembler.finish with pump := some ⟨.ended, handle⟩ }
  | _ => none

/-- The chunks one step of a log stream handed to the farm. -/
def handedOver (before after : LogStream) : List Event :=
  (after.chunks.drop before.chunks.length).map fun chunk ↦ .appended chunk.1 chunk.2

/-- The log stream takes a step, and the chunk it hands over is recorded. -/
def logs (run : Run) (log : Option LogStream) : Option Run :=
  log.map fun log ↦ { run with log }.emit (handedOver run.log log)

/-- A task of the plan watcher takes a step, and what became of a snapshot is recorded. -/
def watches (run : Run) (action : PlanWatcher.Action) : Option Run :=
  (run.watcher.bind (·.step action)).map fun next ↦
    { run with watcher := some next.1 }.emit (next.2.map .due)

/-- What can happen to the await at the head of a program. -/
inductive Poke where
  | performs
  | describes (read : Except Text Description)
  | hands
  | halts
  | unwatches
  | ends (outcome : StepOutcome)
  | completes
  | elapses

/-- What it comes to: the await is suspended, or it is over. -/
inductive Move (call : Call) where
  | suspended (run : Run) (stage : Stage)
  | answered (run : Run) (answer : call.Answer)

def Move.after {call : Call} : Move call → Run
  | .suspended run _ => run
  | .answered run _ => run

def release (run : Run) : Run :=
  { run with watcher := run.watcher.map PlanWatcher.release }

/-- The posting task is aborted once the opening snapshot is over. -/
def unwatch (run : Run) : Option Run :=
  (run.watcher.bind PlanWatcher.stopped).map fun watcher ↦ { run with watcher := some watcher }

/-- What `drain_output` starts with: it waits for a reader that is still there. -/
def drainOutput (run : Run) : Move .drainOutput :=
  match run.pump.bind Spawned.take with
  | some pump => .suspended { run with pump := some pump } .awaiting
  | none => .answered run ()

/-- What `close` starts with: it waits for a flusher whose handle is still there. -/
def closeLog (run : Run) : Move .closeLog :=
  match run.log.flusher.take with
  | some _ => .suspended { run with log := run.log.close } .awaiting
  | none => .answered { run with log := run.log.close } ()

def freeze (run : Run) (phase : Phase) : Run :=
  { run with watcher := run.watcher.map fun watcher ↦
    { watcher with tracker := watcher.tracker.fix phase } }

def phase (run : Run) : Phase := (run.watcher.map (·.tracker.phase)).getD .setup

/-- One step of an await. -/
def advance (run : Run) : (call : Call) → Stage → Poke → Option (Move call)
  | .halt, .ready, .performs => some (.suspended run.release (.joining false false))
  | .halt, .joining false unwatched, .halts => some (.suspended run (.joining true unwatched))
  | .halt, .joining halted false, .unwatches =>
      run.unwatch.map fun run ↦ .suspended run (.joining halted true)
  | .halt, .joining true true, .completes => some (.answered run ())
  | .unwatch, .ready, .performs => some (.suspended run.release .awaiting)
  | .unwatch, .awaiting, .completes => run.unwatch.map fun run ↦ .answered run ()
  | .drainOutput, .ready, .performs => some run.drainOutput
  | .drainOutput, .awaiting, .completes =>
      (run.pump.bind Spawned.join).map fun pump ↦ .answered { run with pump := some pump } ()
  | .drainOutput, .awaiting, .elapses =>
      (run.pump.bind Spawned.expire).map fun pump ↦ .answered { run with pump := some pump } ()
  | .closeLog, .ready, .performs => some run.closeLog
  | .closeLog, .awaiting, .completes =>
      run.log.joined.map fun log ↦ .answered { run with log } ()
  | .closeLog, .awaiting, .elapses =>
      run.log.elapsed.map fun log ↦ .answered { run with log } ()
  | .tail, .ready, .performs => some (.answered run run.log.tail.joined)
  | .freeze phase, .ready, .performs => some (.answered (run.freeze phase) ())
  | .phase, .ready, .performs => some (.answered run run.phase)
  | .post _, .ready, .performs => some (.suspended run .awaiting)
  | .post snapshot, .awaiting, .hands =>
      some (.suspended (run.emit [.due ⟨snapshot, .handed⟩]) .handed)
  | .post _, .handed, .completes => some (.answered run ())
  | .post snapshot, .awaiting, .elapses =>
      some (.answered (run.emit [.due ⟨snapshot, .missed⟩]) ())
  | .post _, .handed, .elapses => some (.answered run ())
  | .step command, .ready, .performs =>
      some (.suspended (run.emit [.stepped command]) .awaiting)
  | .step _, .awaiting, .ends outcome => some (.answered run outcome)
  | .describe, .ready, .describes read => some (.answered run read)
  | _, _, _ => none

/-- The program goes on where its await has got to. -/
def goOn (mode : Mode) (request : Call) (resume : request.Answer → RunProgram Finished) :
    Move request → Run
  | .suspended run stage => { run with pc := .performing mode stage (.call request resume) }
  | .answered run answer =>
      { run with pc := .performing mode .ready (resume answer) }.emit
        [.answered ⟨request, answer⟩]

def pokes (run : Run) (poke : Poke) : Option Run :=
  match run.pc with
  | .performing mode stage (.call request resume) =>
      (run.advance request stage poke).map (goOn mode request resume)
  | _ => none

def Suspended (run : Run) (call : Call) (stage : Stage) : Prop :=
  stage ≠ .ready ∧
    match call with
    | .drainOutput => ∀ pump, run.pump = some pump → ¬ pump.task.Settled
    | .closeLog => ¬ run.log.flusher.task.Settled
    | _ => True

instance (pump : Option (Spawned LineAssembler)) :
    Decidable (∀ spawned, pump = some spawned → ¬ spawned.task.Settled) :=
  match pump with
  | none => .isTrue nofun
  | some spawned =>
      decidable_of_iff (¬ spawned.task.Settled)
        ⟨fun h _ hsome ↦ Option.some.inj hsome ▸ h, fun h ↦ h spawned rfl⟩

instance (run : Run) (call : Call) (stage : Stage) : Decidable (run.Suspended call stage) := by
  unfold Suspended
  cases call <;> infer_instance

/-- The await is dropped, and with it the handle it took. -/
def abandon (run : Run) : Call → Run
  | .drainOutput => { run with pump := run.pump.map Spawned.detach }
  | .closeLog => { run with log := run.log.interrupted }
  | _ => run

/-! ## The body of `serve_run` -/

def begins (run : Run) : Option Run :=
  match run.pc with
  | .entered =>
      if run.setup.job.runtime = runtimeName then some { run with pc := .validating }
      else
        some { run with pc := .reporting (Finish.refused (runtimeMismatch run.setup.job.runtime)) }
  | _ => none

def validates (run : Run) (result : Except JobError Unit) : Option Run :=
  match run.pc, result with
  | .validating, .ok () => some { run with pc := .watching }
  | .validating, .error error =>
      some { run with
        pc := .reporting (Finish.refused (failed error.failReason error.message [])) }
  | _, _ => none

def starts (run : Run) : Option Run :=
  match run.pc with
  | .watching => some { run with pc := .spawning, watcher := some .start }
  | _ => none

def spawns (run : Run) (result : Except JobError Unit) : Option Run :=
  match run.pc, result with
  | .spawning, .ok () =>
      some ({ run with pc := .waiting, pump := some (.start .new) }.emit [.spawned])
  | .spawning, .error error =>
      some { run with pc := .performing .winding .ready (Finish.unspawned error run.setup.output) }
  | _, _ => none

/-- The child's status becomes available. -/
def exits (run : Run) (result : Except JobError ExitStatus) : Option Run :=
  match run.pump, run.exit with
  | some _, none => some { run with exit := some result }
  | _, _ => none

/-- The select takes the exit status; what follows starts by stopping the watcher. -/
def takesExit (run : Run) : Option Run :=
  match run.pc, run.exit with
  | .waiting, some result =>
      some ({ run with pc := .unwatching result }.release.emit [.exited result])
  | _, _ => none

/-- The watcher of a run that exited has stopped. -/
def unwatched (run : Run) : Option Run :=
  match run.pc with
  | .unwatching result =>
      run.unwatch.map fun run ↦ { run with
        pc := .performing .finishing .ready (run.setup.finishing result) }
  | _ => none

/-- What a terminal does to a finishing run: a drain is ignored. -/
def interrupts (run : Run) (call : Call) : Terminal → Run
  | .drain => run
  | terminal =>
      { run.abandon call with
        pc := .performing .winding .ready (Finish.interrupt terminal run.setup.output) }

/-- A select takes the first terminal that arrived. -/
def consumes (run : Run) : Option Run :=
  match run.inbox with
  | [] => none
  | terminal :: inbox =>
      let taken := { run with inbox }.emit [.consumed terminal]
      match run.pc with
      | .waiting =>
          if run.exit.isNone then
            some { taken with
              pc := .performing .winding .ready (Finish.stop terminal run.setup.output) }
          else none
      | .performing .finishing stage (.call call _) =>
          if run.Suspended call stage then some (taken.interrupts call terminal) else none
      | _ => none

def concludes (run : Run) : Option Run :=
  match run.pc with
  | .performing _ .ready (.done finished) => some { run with pc := .reporting finished }
  | _ => none

/-- The completion is sent, if there is one. -/
def reports (run : Run) : Option Run :=
  match run.pc with
  | .reporting finished =>
      match finished.completion with
      | some completion =>
          some ({ run with pc := .reported finished completion }.emit [.completed completion])
      | none => some { run with pc := .removing finished (unsent finished.outcome) }
  | _ => none

/-- The farm answers the completion. -/
def hears (run : Run) (answer : Except FarmError Unit) : Option Run :=
  match run.pc with
  | .reported finished completion =>
      some { run with pc := .removing finished (report completion answer) }
  | _ => none

/-- The output directory, if there is one, is removed or given up on. -/
def removes (run : Run) : Option Run :=
  match run.pc with
  | .removing finished ended => some { run with pc := .leaving finished ended }
  | _ => none

def leaves (run : Run) : Option Run :=
  match run.pc with
  | .leaving finished ended => some { run with pc := .left finished ended }
  | _ => none

inductive Action where
  | arrives (terminal : Terminal)
  | exits (result : Except JobError ExitStatus)
  | reads (bytes : List UInt8)
  | hangsUp
  | selects (wake : LogStream.Wake)
  | flushes
  | flushed (sent : Except FarmError Unit)
  | watches (action : PlanWatcher.Action)
  | begins
  | validates (result : Except JobError Unit)
  | starts
  | spawns (result : Except JobError Unit)
  | takesExit
  | unwatched
  | consumes
  | pokes (poke : Poke)
  | concludes
  | reports
  | hears (answer : Except FarmError Unit)
  | removes
  | leaves

def step (run : Run) : Action → Option Run
  | .arrives terminal => some { run with inbox := run.inbox ++ [terminal] }
  | .exits result => run.exits result
  | .reads bytes => run.reads bytes
  | .hangsUp => run.hangsUp
  | .selects wake => run.logs (run.log.select wake)
  | .flushes => run.logs run.log.flush
  | .flushed sent => run.logs (run.log.answer sent)
  | .watches action => run.watches action
  | .begins => run.begins
  | .validates result => run.validates result
  | .starts => run.starts
  | .spawns result => run.spawns result
  | .takesExit => run.takesExit
  | .unwatched => run.unwatched
  | .consumes => run.consumes
  | .pokes poke => run.pokes poke
  | .concludes => run.concludes
  | .reports => run.reports
  | .hears answer => run.hears answer
  | .removes => run.removes
  | .leaves => run.leaves

def machine : Machine Run Action where
  init run := ∃ setup, run = enter setup
  step := step

end Run

end RalphexRunner
