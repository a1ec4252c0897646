import RalphexRunner.Agent.Run
import RalphexRunner.Semantics.Semaphore

/-!
# The run slot and everything that competes for it

An `Agent` is what the claim loop, the local requests and the attaching clients share, together
with where each of them stands.  Each step of a party touches what is shared at most once, so the
order in which a party stores the slot, leaves its run and drops its permit is visible to the
others.  A party that serves a run takes the steps of that `Run`.

The watches of the slot and of the shutdown keep only the latest value: a party that is waiting for
one of them sees the value there is when it looks.  The semaphore is never closed and the senders of
the watches live as long as the daemon.  A request is answered where its answer is decided; what it
does after that up to its return touches nothing but its place in the line.  `trace` is not in the
source: it keeps the events the statements are about, in order.
-/

namespace RalphexRunner

/-- How far a shutdown has got. -/
inductive Shutdown where
  | running
  | draining
  | hurry
  deriving DecidableEq

def Shutdown.raised : Shutdown → Bool
  | .running => false
  | .draining => true
  | .hurry => true

/-- A signal moves a shutdown one step further. -/
def hasten : Shutdown → Shutdown
  | .running => .draining
  | .draining => .hurry
  | .hurry => .hurry

/-- What the agent is doing with its only run slot. -/
inductive RunSlot where
  | free
  | polling
  | opening
  | running (runId : RunId)
  deriving DecidableEq

/-- The pointer to the current run that clients share: what of it never changes.  Its log is the one
of the run. -/
structure RunHandle where
  runId : RunId
  dashboardUrl : Text
  deriving DecidableEq

/-- What a local request is answered. -/
inductive LocalStart where
  | started (current : RunHandle)
  | busy (runId : RunId)
  | refused (message : Text)
  deriving DecidableEq

/-- How the claim loop ended. -/
inductive AgentExit where
  | shutdown
  | versionMismatch (message : Text)
  deriving DecidableEq

structure Config where
  name : Text
  farmUrl : Text

/-- What a client asks the daemon to run. -/
structure RunRequest where
  ctx : Text
  plan : Text
  branch : Branch
  createPr : CreatePr
  worktree : Worktree

def protocolVersion : Text := "1".toList

/-- What the farm is asked to open a run with. -/
structure OpenRunRequest where
  runner : Text
  version : Text
  runtime : Text
  repo : Text
  ctx : Text
  plan : Text
  branch : Branch
  createPr : CreatePr
  title : Option Text

def dashboardUrl (farmUrl : Text) (runId : RunId) : Text :=
  (farmUrl.reverse.dropWhile (· = '/')).reverse ++ "/#/run/".toList ++ runId.value

/-- The last component of a path, or the path itself where that is none or the parent. -/
def repoName (ctx : Text) : Text :=
  let components := (ctx.splitOn '/').filter fun part ↦ part ≠ [] ∧ part ≠ ['.']
  match components.getLast? with
  | none => ctx
  | some name => if name = ['.', '.'] then ctx else name

/-- The body of the request for a run, with the title found in its plan. -/
def openRunRequest (config : Config) (request : RunRequest) (title : Option Text) :
    OpenRunRequest where
  runner := config.name
  version := protocolVersion
  runtime := runtimeName
  repo := repoName request.ctx
  ctx := request.ctx
  plan := request.plan
  branch := request.branch
  createPr := request.createPr
  title := title.map fitTitle

namespace Agent

/-- Who competes for the slot. -/
inductive Party where
  | loop
  | request (index : ℕ)
  deriving DecidableEq

/-- What happens to an agent that the statements speak of. -/
inductive Event where
  | hastened
  | attached (current : Option RunHandle)
  | arrived (index : ℕ)
  | claiming
  | opening (request : OpenRunRequest)
  | handed (job : Job)
  | held (slot : RunSlot)
  | completed (runId : RunId) (completion : CompleteRequest)
  | ran (runId : RunId) (event : Run.Event)
  | released
  | answered (index : ℕ) (start : LocalStart)
  | exited (exit : AgentExit)

/-- What the holder of a job does with it, from its arrival to the end of its run. -/
inductive Tenancy where
  | received (job : Job)
  | overtaken (job : Job)
  | reported (job : Job)
  | accepted (job : Job)
  | announced (job : Job)
  | serving (run : Run)

/-- Where the claim loop goes on once it has given the slot back. -/
inductive After where
  | again
  | pacing
  | draining
  | exited (exit : AgentExit)

/-- Where `Agent::run` stands.  A party that frees the slot knows whose run was in it. -/
inductive LoopPc where
  | top
  | acquiring
  | queued
  | polling
  | claimed
  | tenancy (stage : Tenancy)
  | stopping (tenant : Option RunId) (message : Text)
  | freeing (tenant : Option RunId) (after : After)
  | dropping (after : After)
  | pacing
  | draining
  | drainQueued
  | exited (exit : AgentExit)

/-- Where one call of `Agent::start_local`, and the task it spawns, stands. -/
inductive RequestPc where
  | absent
  | arrived (request : RunRequest)
  | subscribing (request : RunRequest)
  | selecting (request : RunRequest)
  | queued (request : RunRequest)
  | backingOut
  | granted (request : RunRequest)
  | checked (request : RunRequest)
  | opening (request : RunRequest)
  | titling (request : RunRequest)
  | asking (request : RunRequest)
  | tenancy (worktree : Worktree) (stage : Tenancy)
  | starting (worktree : Worktree) (current : RunHandle) (run : Run)
  | freeing (tenant : Option RunId) (refusal : Option Text)
  | dropping (refusal : Option Text)
  | finished

/-- What a party does next, with what it is told from outside. -/
inductive Move where
  | arrives (request : RunRequest)
  | checks
  | tries
  | looks
  | enqueues
  | wins
  | notices
  | cancels
  | holds
  | claims (answer : Except FarmError (Option Job))
  | titles (title : Option Text)
  | opens (answer : Except FarmError Job)
  | reports
  | hears (answer : Except FarmError Unit)
  | enters (output : Option Text)
  | spawns
  | runs (action : Run.Action)
  | returns
  | stops
  | frees
  | drops
  | elapses

/-- What a step does to what the parties share. -/
inductive Effect where
  | nothing
  | enqueues
  | cancels
  | releases
  | holds (slot : RunSlot)
  | enters (current : RunHandle)
  | departs
  | stopsAccepting

/-- One step of a party: what it does to what is shared, the events it adds, and where the party
stands after it. -/
structure Turn (ρ : Type) where
  effect : Effect
  events : List Event
  next : ρ

def Turn.map {ρ ρ' : Type} (f : ρ → ρ') (turn : Turn ρ) : Turn ρ' :=
  ⟨turn.effect, turn.events, f turn.next⟩

/-- A step that changes nothing but where the party stands. -/
def Turn.silent {ρ : Type} (next : ρ) : Turn ρ := ⟨.nothing, [], next⟩

end Agent

open Agent in
/-- What the parties share, and where each of them stands. -/
structure Agent where
  config : Config
  tools : PrTools
  permits : Semaphore Party
  slot : RunSlot
  current : Option RunHandle
  exiting : Bool
  shutdown : Shutdown
  loop : LoopPc
  requests : ℕ → RequestPc
  trace : List Event

namespace Agent

def new (config : Config) (tools : PrTools) : Agent where
  config
  tools
  permits := .free
  slot := .free
  current := none
  exiting := false
  shutdown := .running
  loop := .top
  requests _ := .absent
  trace := []

def emit (agent : Agent) (events : List Event) : Agent :=
  { agent with trace := agent.trace ++ events }

/-- Store a value in the slot. -/
def hold (agent : Agent) (slot : RunSlot) : Agent := { agent with slot }.emit [.held slot]

def apply (agent : Agent) (party : Party) : Effect → Agent
  | .nothing => agent
  | .enqueues => { agent with permits := agent.permits.enqueue party }
  | .cancels => { agent with permits := agent.permits.leave party }
  | .releases => { agent with permits := agent.permits.leave party }.emit [.released]
  | .holds slot => agent.hold slot
  | .enters current => { agent with current := some current }
  | .departs => { agent with current := none }
  | .stopsAccepting => { agent with exiting := true }

/-- What is shared after a step of a party. -/
def takes {ρ : Type} (agent : Agent) (party : Party) (turn : Turn ρ) : Agent :=
  (agent.apply party turn.effect).emit turn.events

def moveLoop (agent : Agent) (turn : Turn LoopPc) : Agent :=
  { agent.takes .loop turn with loop := turn.next }

def moveRequest (agent : Agent) (index : ℕ) (turn : Turn RequestPc) : Agent :=
  { agent.takes (.request index) turn with
    requests := Function.update agent.requests index turn.next }

/-- The run a client can attach to while `runId` is served. -/
def enter (agent : Agent) (runId : RunId) : RunHandle :=
  ⟨runId, dashboardUrl agent.config.farmUrl runId⟩

/-- The run of a job that is about to be served. -/
def serve (agent : Agent) (job : Job) (worktree : Worktree) (output : Option Text) : Run :=
  .enter ⟨job, worktree, agent.tools, output⟩

def ranEvents (before after : Run) : List Event :=
  (after.trace.drop before.trace.length).map (.ran before.setup.job.runId)

/-- A run is left by its last step. -/
def departure : Run.Action → Effect
  | .leaves => .departs
  | _ => .nothing

/-- What the claim loop and a local request do alike with a job. -/
def Tenancy.step (agent : Agent) : Tenancy → Move → Option (Turn Tenancy)
  | .received job, .checks =>
      if agent.shutdown.raised then some (.silent (.overtaken job))
      else some (.silent (.accepted job))
  | .overtaken job, .reports =>
      some ⟨.nothing, [.completed job.runId shutDown], .reported job⟩
  | .accepted job, .holds => some ⟨.holds (.running job.runId), [], .announced job⟩
  | .serving run, .runs action =>
      (Run.step run action).map fun next ↦ ⟨departure action, ranEvents run next, .serving next⟩
  | _, _ => none

/-! ## The claim loop -/

/-- Where the claim loop stands once the slot is given back, and the event of its end. -/
def After.resume : After → List Event × LoopPc
  | .again => ([], .top)
  | .pacing => ([], .pacing)
  | .draining => ([], .draining)
  | .exited exit => ([.exited exit], .exited exit)

/-- What a claim comes to.  The claim loop stops accepting before it frees the slot. -/
def LoopPc.claims : Except FarmError (Option Job) → Turn LoopPc
  | .ok (some job) => ⟨.nothing, [.handed job], .tenancy (.received job)⟩
  | .ok none => .silent (.freeing none .pacing)
  | .error error =>
      match versionMismatch error with
      | some message => .silent (.stopping none message)
      | none => .silent (.freeing none .pacing)

/-- What the outcome of a run leaves the claim loop to do. -/
def LoopPc.returns (runId : RunId) : RunOutcome → LoopPc
  | .continue => .freeing (some runId) .again
  | .versionMismatch message => .stopping (some runId) message

/-- One step of `Agent::run`.  The claim is in flight from the store of the slot on. -/
def LoopPc.step (agent : Agent) : LoopPc → Move → Option (Turn LoopPc)
  | .top, .checks =>
      if agent.shutdown.raised then some (.silent .draining) else some (.silent .acquiring)
  | .acquiring, .enqueues =>
      if agent.permits.holder = none then some ⟨.enqueues, [], .polling⟩
      else some ⟨.enqueues, [], .queued⟩
  | .acquiring, .notices => if agent.shutdown.raised then some (.silent .draining) else none
  | .queued, .wins =>
      if agent.permits.holder = some .loop then some (.silent .polling) else none
  | .queued, .notices =>
      if agent.shutdown.raised then some ⟨.cancels, [], .draining⟩ else none
  | .polling, .holds => some ⟨.holds .polling, [.claiming], .claimed⟩
  | .claimed, .claims answer => some (LoopPc.claims answer)
  | .tenancy (.reported job), .hears _ => some (.silent (.freeing (some job.runId) .draining))
  | .tenancy (.announced job), .enters output =>
      some ⟨.enters (agent.enter job.runId), [],
        .tenancy (.serving (agent.serve job .no output))⟩
  | .tenancy (.serving run), .returns =>
      match run.pc with
      | .left finished _ => some (.silent (LoopPc.returns run.setup.job.runId finished.outcome))
      | _ => none
  | .tenancy stage, move => (stage.step agent move).map (.map .tenancy)
  | .stopping tenant message, .stops =>
      some ⟨.stopsAccepting, [], .freeing tenant (.exited (.versionMismatch message))⟩
  | .freeing _ after, .frees => some ⟨.holds .free, [], .dropping after⟩
  | .dropping after, .drops => some ⟨.releases, after.resume.1, after.resume.2⟩
  | .pacing, .elapses => some (.silent .top)
  | .pacing, .notices => if agent.shutdown.raised then some (.silent .draining) else none
  | .draining, .enqueues =>
      if agent.permits.holder = none then some ⟨.enqueues, [], .freeing none (.exited .shutdown)⟩
      else some ⟨.enqueues, [], .drainQueued⟩
  | .drainQueued, .wins =>
      if agent.permits.holder = some .loop then some (.silent (.freeing none (.exited .shutdown)))
      else none
  | _, _ => none

def daemonExiting : Text := "the daemon is exiting".toList

def shuttingDown : Text := "the runner is shutting down".toList

/-- The slot is looked at: a run in it answers the request, anything else lets it go on. -/
def RequestPc.sees (agent : Agent) (index : ℕ) (busy : RequestPc)
    (other : Option (Turn RequestPc)) : Option (Turn RequestPc) :=
  match agent.slot with
  | .running runId => some ⟨.nothing, [.answered index (.busy runId)], busy⟩
  | _ => other

/-- One step of `Agent::start_local` and of the task it spawns. -/
def RequestPc.step (agent : Agent) (index : ℕ) : RequestPc → Move → Option (Turn RequestPc)
  | .absent, .arrives request => some ⟨.nothing, [.arrived index], .arrived request⟩
  | .arrived request, .tries =>
      if agent.permits.holder = none then some ⟨.enqueues, [], .granted request⟩
      else some (.silent (.subscribing request))
  | .subscribing request, .looks =>
      RequestPc.sees agent index .finished (some (.silent (.selecting request)))
  | .selecting request, .enqueues =>
      if agent.permits.holder = none then some ⟨.enqueues, [], .granted request⟩
      else some ⟨.enqueues, [], .queued request⟩
  | .selecting _, .notices => RequestPc.sees agent index .finished none
  | .queued request, .wins =>
      if agent.permits.holder = some (.request index) then some (.silent (.granted request))
      else none
  | .queued _, .notices => RequestPc.sees agent index .backingOut none
  | .backingOut, .cancels => some ⟨.cancels, [], .finished⟩
  | .granted request, .checks =>
      if agent.exiting then some (.silent (.dropping (some daemonExiting)))
      else some (.silent (.checked request))
  | .checked request, .checks =>
      if agent.shutdown.raised then some (.silent (.dropping (some shuttingDown)))
      else some (.silent (.opening request))
  | .opening request, .holds => some ⟨.holds .opening, [], .titling request⟩
  | .titling request, .titles title =>
      some ⟨.nothing, [.opening (openRunRequest agent.config request title)], .asking request⟩
  | .asking request, .opens (.ok job) =>
      some ⟨.nothing, [.handed job], .tenancy request.worktree (.received job)⟩
  | .asking _, .opens (.error error) => some (.silent (.freeing none (some error.message)))
  | .tenancy _ (.reported job), .hears _ =>
      some (.silent (.freeing (some job.runId) (some shuttingDown)))
  | .tenancy worktree (.announced job), .enters output =>
      some ⟨.enters (agent.enter job.runId), [],
        .starting worktree (agent.enter job.runId) (agent.serve job worktree output)⟩
  | .starting worktree current run, .spawns =>
      some ⟨.nothing, [.answered index (.started current)], .tenancy worktree (.serving run)⟩
  | .tenancy _ (.serving run), .returns =>
      match run.pc with
      | .left _ _ => some (.silent (.freeing (some run.setup.job.runId) none))
      | _ => none
  | .tenancy worktree stage, move => (stage.step agent move).map (.map (.tenancy worktree))
  | .freeing _ refusal, .frees => some ⟨.holds .free, [], .dropping refusal⟩
  | .dropping refusal, .drops =>
      some ⟨.releases, refusal.toList.map fun message ↦ .answered index (.refused message),
        .finished⟩
  | _, _ => none

inductive Action where
  | hastens
  | attaches
  | loop (move : Move)
  | request (index : ℕ) (move : Move)

def step (agent : Agent) : Action → Option Agent
  | .hastens => some ({ agent with shutdown := hasten agent.shutdown }.emit [.hastened])
  | .attaches => some (agent.emit [.attached agent.current])
  | .loop move => (agent.loop.step agent move).map agent.moveLoop
  | .request index move =>
      ((agent.requests index).step agent index move).map (agent.moveRequest index)

/-- The daemon from the start of its claim loop on. -/
def machine : Machine Agent Action where
  init agent := ∃ config tools, agent = new config tools
  step := step

end Agent

end RalphexRunner
