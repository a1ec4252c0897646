import RalphexRunner.Agent.Slot
import RalphexRunner.Agent.Steps

/-!
# What the parties do in one step

`Tends`, `Loops` and `Requests` list everything a step of a party can do, one case each, with what
was checked before it.  A step changes what is shared as its effect says and moves nobody else, so
an invariant of what the permit guards is proved by looking at these cases alone.
-/

namespace RalphexRunner.Agent

/-- Everything the holder of a job can do that both parties do alike. -/
inductive Tends (agent : Agent) : Tenancy → Turn Tenancy → Prop
  | overtaken (job : Job) : agent.shutdown.raised = true →
      Tends agent (.received job) (.silent (.overtaken job))
  | accepted (job : Job) : agent.shutdown.raised = false →
      Tends agent (.received job) (.silent (.accepted job))
  | reported (job : Job) : Tends agent (.overtaken job)
      ⟨.nothing, [.completed job.runId shutDown], .reported job⟩
  | announced (job : Job) : Tends agent (.accepted job)
      ⟨.holds (.running job.runId), [], .announced job⟩
  | ran (run after : Run) (action : Run.Action) : Run.step run action = some after →
      Tends agent (.serving run) ⟨departure action, ranEvents run after, .serving after⟩

/-- Everything a step of the claim loop can do. -/
inductive Loops (agent : Agent) : LoopPc → Turn LoopPc → Prop
  | raised (pc : LoopPc) : pc = .top ∨ pc = .acquiring ∨ pc = .pacing →
      agent.shutdown.raised = true → Loops agent pc (.silent .draining)
  | goesOn : agent.shutdown.raised = false → Loops agent .top (.silent .acquiring)
  | acquired : agent.permits.holder = none → Loops agent .acquiring ⟨.enqueues, [], .polling⟩
  | queued : Loops agent .acquiring ⟨.enqueues, [], .queued⟩
  | won : agent.permits.holder = some .loop → Loops agent .queued (.silent .polling)
  | gaveUp : agent.shutdown.raised = true → Loops agent .queued ⟨.cancels, [], .draining⟩
  | polled : Loops agent .polling ⟨.holds .polling, [.claiming], .claimed⟩
  | handed (job : Job) :
      Loops agent .claimed ⟨.nothing, [.handed job], .tenancy (.received job)⟩
  | unclaimed : Loops agent .claimed (.silent (.freeing none .pacing))
  | mismatched (message : Text) : Loops agent .claimed (.silent (.stopping none message))
  | reported (job : Job) : Loops agent (.tenancy (.reported job))
      (.silent (.freeing (some job.runId) .draining))
  | entered (job : Job) (output : Option Text) : Loops agent (.tenancy (.announced job))
      ⟨.enters (agent.enter job.runId), [], .tenancy (.serving (agent.serve job .no output))⟩
  | returned (run : Run) (finished : Finished) (ended : RunEnd) : run.pc = .left finished ended →
      Loops agent (.tenancy (.serving run))
        (.silent (LoopPc.returns run.setup.job.runId finished.outcome))
  | tends (stage : Tenancy) (turn : Turn Tenancy) : Tends agent stage turn →
      Loops agent (.tenancy stage) (turn.map .tenancy)
  | stopped (tenant : Option RunId) (message : Text) : Loops agent (.stopping tenant message)
      ⟨.stopsAccepting, [], .freeing tenant (.exited (.versionMismatch message))⟩
  | freed (tenant : Option RunId) (after : After) : Loops agent (.freeing tenant after)
      ⟨.holds .free, [], .dropping after⟩
  | dropped (after : After) : Loops agent (.dropping after)
      ⟨.releases, after.resume.1, after.resume.2⟩
  | paced : Loops agent .pacing (.silent .top)
  | drained : agent.permits.holder = none →
      Loops agent .draining ⟨.enqueues, [], .freeing none (.exited .shutdown)⟩
  | drainQueued : Loops agent .draining ⟨.enqueues, [], .drainQueued⟩
  | drainWon : agent.permits.holder = some .loop →
      Loops agent .drainQueued (.silent (.freeing none (.exited .shutdown)))

/-- Everything a step of a local request can do. -/
inductive Requests (agent : Agent) (index : ℕ) : RequestPc → Turn RequestPc → Prop
  | arrived (request : RunRequest) :
      Requests agent index .absent ⟨.nothing, [.arrived index], .arrived request⟩
  | acquired (pc : RequestPc) (request : RunRequest) :
      pc = .arrived request ∨ pc = .selecting request → agent.permits.holder = none →
        Requests agent index pc ⟨.enqueues, [], .granted request⟩
  | missed (request : RunRequest) :
      Requests agent index (.arrived request) (.silent (.subscribing request))
  | busy (pc : RequestPc) (request : RunRequest) (runId : RunId) :
      pc = .subscribing request ∨ pc = .selecting request → agent.slot = .running runId →
        Requests agent index pc ⟨.nothing, [.answered index (.busy runId)], .finished⟩
  | looked (request : RunRequest) :
      Requests agent index (.subscribing request) (.silent (.selecting request))
  | queued (request : RunRequest) :
      Requests agent index (.selecting request) ⟨.enqueues, [], .queued request⟩
  | won (request : RunRequest) : agent.permits.holder = some (.request index) →
      Requests agent index (.queued request) (.silent (.granted request))
  | noticed (request : RunRequest) (runId : RunId) : agent.slot = .running runId →
      Requests agent index (.queued request)
        ⟨.nothing, [.answered index (.busy runId)], .backingOut⟩
  | cancelled : Requests agent index .backingOut ⟨.cancels, [], .finished⟩
  | turnedAway (request : RunRequest) : agent.exiting = true →
      Requests agent index (.granted request) (.silent (.dropping (some daemonExiting)))
  | checked (request : RunRequest) : agent.exiting = false →
      Requests agent index (.granted request) (.silent (.checked request))
  | refused (request : RunRequest) : agent.shutdown.raised = true →
      Requests agent index (.checked request) (.silent (.dropping (some shuttingDown)))
  | admitted (request : RunRequest) : agent.shutdown.raised = false →
      Requests agent index (.checked request) (.silent (.opening request))
  | held (request : RunRequest) :
      Requests agent index (.opening request) ⟨.holds .opening, [], .titling request⟩
  | asked (request : RunRequest) (title : Option Text) : Requests agent index (.titling request)
      ⟨.nothing, [.opening (openRunRequest agent.config request title)], .asking request⟩
  | handed (request : RunRequest) (job : Job) : Requests agent index (.asking request)
      ⟨.nothing, [.handed job], .tenancy request.worktree (.received job)⟩
  | failed (request : RunRequest) (error : FarmError) : Requests agent index (.asking request)
      (.silent (.freeing none (some error.message)))
  | reported (worktree : Worktree) (job : Job) :
      Requests agent index (.tenancy worktree (.reported job))
        (.silent (.freeing (some job.runId) (some shuttingDown)))
  | entered (worktree : Worktree) (job : Job) (output : Option Text) :
      Requests agent index (.tenancy worktree (.announced job))
        ⟨.enters (agent.enter job.runId), [],
          .starting worktree (agent.enter job.runId) (agent.serve job worktree output)⟩
  | spawned (worktree : Worktree) (current : RunHandle) (run : Run) :
      Requests agent index (.starting worktree current run)
        ⟨.nothing, [.answered index (.started current)], .tenancy worktree (.serving run)⟩
  | returned (worktree : Worktree) (run : Run) : run.Left →
      Requests agent index (.tenancy worktree (.serving run))
        (.silent (.freeing (some run.setup.job.runId) none))
  | tends (worktree : Worktree) (stage : Tenancy) (turn : Turn Tenancy) : Tends agent stage turn →
      Requests agent index (.tenancy worktree stage) (turn.map (.tenancy worktree))
  | freed (tenant : Option RunId) (refusal : Option Text) :
      Requests agent index (.freeing tenant refusal) ⟨.holds .free, [], .dropping refusal⟩
  | dropped (refusal : Option Text) : Requests agent index (.dropping refusal)
      ⟨.releases, refusal.toList.map fun message ↦ .answered index (.refused message), .finished⟩

variable {agent next : Agent} {σ : Type}

theorem tenancy_cases {stage : Tenancy} {move : Move} {turn : Turn Tenancy}
    (h : stage.step agent move = some turn) : Tends agent stage turn := by
  revert h
  fun_cases Tenancy.step agent stage move with
  | case1 job hraised => rintro ⟨⟩; exact .overtaken job hraised
  | case2 job hcalm => rintro ⟨⟩; exact .accepted job (eq_false_of_ne_true hcalm)
  | case3 job => rintro ⟨⟩; exact .reported job
  | case4 job => rintro ⟨⟩; exact .announced job
  | case5 run action =>
    intro h
    obtain ⟨after, hafter, rfl⟩ := Option.map_eq_some_iff.mp h
    exact .ran run after action hafter
  | case6 => nofun

theorem claims_cases (answer : Except FarmError (Option Job)) :
    Loops agent .claimed (LoopPc.claims answer) := by
  fun_cases LoopPc.claims answer with
  | case1 job => exact .handed job
  | case2 => exact .unclaimed
  | case3 error message => exact .mismatched message
  | case4 error => exact .unclaimed

/-- Everything the claim loop can do. -/
theorem loop_cases {pc : LoopPc} {move : Move} {turn : Turn LoopPc}
    (h : pc.step agent move = some turn) : Loops agent pc turn := by
  revert h
  fun_cases LoopPc.step agent pc move with
  | case1 hraised => rintro ⟨⟩; exact .raised _ (.inl rfl) hraised
  | case2 hcalm => rintro ⟨⟩; exact .goesOn (eq_false_of_ne_true hcalm)
  | case3 hfree => rintro ⟨⟩; exact .acquired hfree
  | case4 => rintro ⟨⟩; exact .queued
  | case5 hraised => rintro ⟨⟩; exact .raised _ (.inr (.inl rfl)) hraised
  | case7 hholder => rintro ⟨⟩; exact .won hholder
  | case9 hraised => rintro ⟨⟩; exact .gaveUp hraised
  | case11 => rintro ⟨⟩; exact .polled
  | case12 answer => rintro ⟨⟩; exact claims_cases answer
  | case13 job => rintro ⟨⟩; exact .reported job
  | case14 job output => rintro ⟨⟩; exact .entered job output
  | case15 run finished ended hpc => rintro ⟨⟩; exact .returned run finished ended hpc
  | case17 =>
    intro h
    obtain ⟨turn, hturn, rfl⟩ := Option.map_eq_some_iff.mp h
    exact .tends _ turn (tenancy_cases hturn)
  | case18 tenant message => rintro ⟨⟩; exact .stopped tenant message
  | case19 tenant after => rintro ⟨⟩; exact .freed tenant after
  | case20 after => rintro ⟨⟩; exact .dropped after
  | case21 => rintro ⟨⟩; exact .paced
  | case22 hraised => rintro ⟨⟩; exact .raised _ (.inr (.inr rfl)) hraised
  | case24 hfree => rintro ⟨⟩; exact .drained hfree
  | case25 => rintro ⟨⟩; exact .drainQueued
  | case26 hholder => rintro ⟨⟩; exact .drainWon hholder
  | _ => nofun

/-- A look at the slot that finds a run answers the request. -/
theorem sees_cases {index : ℕ} {busy : RequestPc} {other : Option (Turn RequestPc)}
    {turn : Turn RequestPc} (h : RequestPc.sees agent index busy other = some turn) :
    (∃ runId, agent.slot = .running runId ∧
      turn = ⟨.nothing, [.answered index (.busy runId)], busy⟩) ∨ other = some turn := by
  unfold RequestPc.sees at h
  split at h
  · rename_i runId hslot
    exact .inl ⟨runId, hslot, (Option.some.inj h).symm⟩
  · exact .inr h

/-- Everything a local request can do. -/
theorem request_cases {index : ℕ} {pc : RequestPc} {move : Move} {turn : Turn RequestPc}
    (h : pc.step agent index move = some turn) : Requests agent index pc turn := by
  revert h
  fun_cases RequestPc.step agent index pc move with
  | case1 request => rintro ⟨⟩; exact .arrived request
  | case2 request hfree => rintro ⟨⟩; exact .acquired _ request (.inl rfl) hfree
  | case3 request => rintro ⟨⟩; exact .missed request
  | case4 request =>
    intro h
    rcases sees_cases h with ⟨runId, hslot, rfl⟩ | hlooked
    · exact .busy _ request runId (.inl rfl) hslot
    · cases hlooked
      exact .looked request
  | case5 request hfree => rintro ⟨⟩; exact .acquired _ request (.inr rfl) hfree
  | case6 request => rintro ⟨⟩; exact .queued request
  | case7 request =>
    intro h
    obtain ⟨runId, hslot, rfl⟩ := (sees_cases h).resolve_right nofun
    exact .busy _ request runId (.inr rfl) hslot
  | case8 request hholder => rintro ⟨⟩; exact .won request hholder
  | case10 request =>
    intro h
    obtain ⟨runId, hslot, rfl⟩ := (sees_cases h).resolve_right nofun
    exact .noticed request runId hslot
  | case11 => rintro ⟨⟩; exact .cancelled
  | case12 request hexiting => rintro ⟨⟩; exact .turnedAway request hexiting
  | case13 request hexiting => rintro ⟨⟩; exact .checked request (eq_false_of_ne_true hexiting)
  | case14 request hraised => rintro ⟨⟩; exact .refused request hraised
  | case15 request hcalm => rintro ⟨⟩; exact .admitted request (eq_false_of_ne_true hcalm)
  | case16 request => rintro ⟨⟩; exact .held request
  | case17 request title => rintro ⟨⟩; exact .asked request title
  | case18 request job => rintro ⟨⟩; exact .handed request job
  | case19 request error => rintro ⟨⟩; exact .failed request error
  | case20 worktree job => rintro ⟨⟩; exact .reported worktree job
  | case21 worktree job output => rintro ⟨⟩; exact .entered worktree job output
  | case22 worktree current run => rintro ⟨⟩; exact .spawned worktree current run
  | case23 worktree run finished ended hpc =>
    rintro ⟨⟩
    exact .returned worktree run ⟨finished, ended, hpc⟩
  | case25 =>
    intro h
    obtain ⟨turn, hturn, rfl⟩ := Option.map_eq_some_iff.mp h
    exact .tends _ _ turn (tenancy_cases hturn)
  | case26 tenant refusal => rintro ⟨⟩; exact .freed tenant refusal
  | case27 refusal => rintro ⟨⟩; exact .dropped refusal
  | _ => nofun

/-- Everything a step of an agent can do. -/
inductive Acts (agent : Agent) : Agent → Prop
  | hastened : Acts agent ({ agent with shutdown := hasten agent.shutdown }.emit [.hastened])
  | attached : Acts agent (agent.emit [.attached agent.current])
  | looped (turn : Turn LoopPc) : Loops agent agent.loop turn → Acts agent (agent.moveLoop turn)
  | requested (index : ℕ) (turn : Turn RequestPc) :
      Requests agent index (agent.requests index) turn → Acts agent (agent.moveRequest index turn)

theorem step_cases {action : Action} (h : step agent action = some next) : Acts agent next := by
  cases action with
  | hastens => cases h; exact .hastened
  | attaches => cases h; exact .attached
  | loop move =>
      obtain ⟨turn, hturn, rfl⟩ := Option.map_eq_some_iff.mp h
      exact .looped turn (loop_cases hturn)
  | request index move =>
      obtain ⟨turn, hturn, rfl⟩ := Option.map_eq_some_iff.mp h
      exact .requested index turn (request_cases hturn)

def Effect.events : Effect → List Event
  | .releases => [.released]
  | .holds slot => [.held slot]
  | _ => []

/-- All events of a step. -/
def Turn.added {ρ : Type} (turn : Turn ρ) : List Event := turn.effect.events ++ turn.events

def Event.Own : Event → Prop
  | .held _ => False
  | .released => False
  | _ => True

def Event.OfTenancy : Event → Prop
  | .completed _ _ => True
  | .ran _ _ => True
  | _ => False

def Event.OfLoop : Event → Prop
  | .claiming => True
  | .handed _ => True
  | .completed _ _ => True
  | .ran _ _ => True
  | .exited _ => True
  | _ => False

def Event.OfRequest : Event → Prop
  | .arrived _ => True
  | .opening _ => True
  | .handed _ => True
  | .completed _ _ => True
  | .ran _ _ => True
  | .answered _ _ => True
  | _ => False

theorem tends_events {stage : Tenancy} {turn : Turn Tenancy} (h : Tends agent stage turn) :
    ∀ event ∈ turn.events, event.OfTenancy := by
  intro event hevent
  cases h with
  | overtaken | accepted | announced => cases hevent
  | reported job =>
      rw [List.mem_singleton.mp hevent]
      trivial
  | ran run after action =>
      obtain ⟨inner, -, rfl⟩ := List.mem_map.mp hevent
      trivial

/-- The claim loop adds no event but its own. -/
theorem loops_events {pc : LoopPc} {turn : Turn LoopPc} (h : Loops agent pc turn) :
    ∀ event ∈ turn.events, event.OfLoop := by
  intro event hevent
  cases h with
  | polled | handed =>
      rw [List.mem_singleton.mp hevent]
      trivial
  | tends stage turn htends =>
      have htenancy := tends_events htends event hevent
      cases event <;> trivial
  | dropped after =>
      cases after with
      | exited exit =>
          rw [List.mem_singleton.mp hevent]
          trivial
      | _ => cases hevent
  | _ => cases hevent

theorem loops_own {pc : LoopPc} {turn : Turn LoopPc} (h : Loops agent pc turn) :
    ∀ event ∈ turn.events, event.Own := by
  intro event hevent
  have hloop := loops_events h event hevent
  cases event <;> trivial

theorem requests_events {index : ℕ} {pc : RequestPc} {turn : Turn RequestPc}
    (h : Requests agent index pc turn) : ∀ event ∈ turn.events, event.OfRequest := by
  intro event hevent
  cases h with
  | arrived | busy | noticed | asked | handed | spawned =>
      rw [List.mem_singleton.mp hevent]
      trivial
  | tends worktree stage turn htends =>
      have htenancy := tends_events htends event hevent
      cases event <;> trivial
  | dropped refusal =>
      obtain ⟨message, -, rfl⟩ := List.mem_map.mp hevent
      trivial
  | _ => cases hevent

theorem requests_own {index : ℕ} {pc : RequestPc} {turn : Turn RequestPc}
    (h : Requests agent index pc turn) : ∀ event ∈ turn.events, event.Own := by
  intro event hevent
  have hrequest := requests_events h event hevent
  cases event <;> trivial

/-- The claim loop ends as it gives the slot back. -/
theorem loops_exited {pc : LoopPc} {turn : Turn LoopPc} (h : Loops agent pc turn)
    {exit : AgentExit} (hevent : .exited exit ∈ turn.events) :
    turn.added = [.released, .exited exit] ∧ turn.next = .exited exit := by
  cases h with
  | polled | handed => cases List.mem_singleton.mp hevent
  | tends stage turn htends => exact (tends_events htends _ hevent).elim
  | dropped after =>
      cases after with
      | exited exit =>
          cases List.mem_singleton.mp hevent
          exact ⟨rfl, rfl⟩
      | _ => cases hevent
  | _ => cases hevent

/-- An event of a step is the one of its effect, or one it adds of itself. -/
theorem Turn.added_cases {ρ : Type} {turn : Turn ρ} {event : Event} (h : event ∈ turn.added) :
    (∃ slot, event = .held slot) ∨ event = .released ∨ event ∈ turn.events := by
  rcases List.mem_append.mp h with heffect | hown
  · cases hturn : turn.effect with
    | holds slot =>
        rw [hturn] at heffect
        exact .inl ⟨slot, List.mem_singleton.mp heffect⟩
    | releases =>
        rw [hturn] at heffect
        exact .inr (.inl (List.mem_singleton.mp heffect))
    | _ =>
        rw [hturn] at heffect
        cases heffect
  · exact .inr (.inr hown)

/-- An event of a step that no effect adds is one the step adds of itself. -/
theorem Turn.mem_events {ρ : Type} {turn : Turn ρ} {event : Event} (h : event ∈ turn.added)
    (hown : event.Own) : event ∈ turn.events := by
  rcases Turn.added_cases h with ⟨slot, rfl⟩ | rfl | hevent
  · exact hown.elim
  · exact hown.elim
  · exact hevent

/-- A request is answered once it has arrived: that a run is in the slot, that its own run has
started, or with a refusal once it has given the slot back. -/
theorem requests_answered {index other : ℕ} {pc : RequestPc} {turn : Turn RequestPc}
    {start : LocalStart} (h : Requests agent index pc turn)
    (hevent : .answered other start ∈ turn.events) : other = index ∧ pc ≠ .absent ∧
      ((∃ runId, start = .busy runId ∧ agent.slot = .running runId ∧
          turn.added = [.answered index start]) ∨
        (∃ worktree current run, start = .started current ∧ pc = .starting worktree current run) ∨
          ∃ message, start = .refused message ∧ pc = .dropping (some message)) := by
  cases h with
  | arrived | asked | handed => cases List.mem_singleton.mp hevent
  | busy _ request runId hpc hslot =>
      cases List.mem_singleton.mp hevent
      refine ⟨rfl, ?_, .inl ⟨runId, rfl, hslot, rfl⟩⟩
      rcases hpc with rfl | rfl <;> nofun
  | noticed request runId hslot =>
      cases List.mem_singleton.mp hevent
      exact ⟨rfl, nofun, .inl ⟨runId, rfl, hslot, rfl⟩⟩
  | spawned worktree current run =>
      cases List.mem_singleton.mp hevent
      exact ⟨rfl, nofun, .inr (.inl ⟨worktree, current, run, rfl, rfl⟩)⟩
  | tends worktree stage turn htends => exact (tends_events htends _ hevent).elim
  | dropped refusal =>
      cases refusal with
      | none => cases hevent
      | some message =>
          cases List.mem_singleton.mp hevent
          exact ⟨rfl, nofun, .inr (.inr ⟨message, rfl, rfl⟩)⟩
  | _ => cases hevent

section Takes

variable {ρ : Type} (agent : Agent) (party : Party) (turn : Turn ρ)

@[simp] theorem takes_loop : (agent.takes party turn).loop = agent.loop := by
  unfold takes
  cases turn.effect <;> rfl

@[simp] theorem takes_requests : (agent.takes party turn).requests = agent.requests := by
  unfold takes
  cases turn.effect <;> rfl

@[simp] theorem takes_shutdown : (agent.takes party turn).shutdown = agent.shutdown := by
  unfold takes
  cases turn.effect <;> rfl

@[simp] theorem takes_trace : (agent.takes party turn).trace = agent.trace ++ turn.added := by
  unfold takes Turn.added
  cases turn.effect <;> simp [apply, emit, hold, Effect.events]

/-- A step of a party changes the line as its effect says. -/
theorem takes_permits : (agent.takes party turn).permits = agent.permits ∨
    (agent.takes party turn).permits = agent.permits.enqueue party ∨
      (agent.takes party turn).permits = agent.permits.leave party := by
  unfold takes
  cases turn.effect with
  | enqueues => exact .inr (.inl rfl)
  | cancels | releases => exact .inr (.inr rfl)
  | _ => exact .inl rfl

end Takes

section Moves

variable (agent : Agent)

@[simp] theorem moveLoop_loop (turn : Turn LoopPc) : (agent.moveLoop turn).loop = turn.next := rfl

@[simp] theorem moveLoop_requests (turn : Turn LoopPc) :
    (agent.moveLoop turn).requests = agent.requests := takes_requests agent .loop turn

@[simp] theorem moveLoop_shutdown (turn : Turn LoopPc) :
    (agent.moveLoop turn).shutdown = agent.shutdown := takes_shutdown agent .loop turn

@[simp] theorem moveLoop_trace (turn : Turn LoopPc) :
    (agent.moveLoop turn).trace = agent.trace ++ turn.added := takes_trace agent .loop turn

variable (index : ℕ) (turn : Turn RequestPc)

@[simp] theorem moveRequest_loop : (agent.moveRequest index turn).loop = agent.loop :=
  takes_loop agent (.request index) turn

@[simp] theorem moveRequest_requests :
    (agent.moveRequest index turn).requests = Function.update agent.requests index turn.next := rfl

theorem moveRequest_self : (agent.moveRequest index turn).requests index = turn.next := by
  rw [moveRequest_requests, Function.update_self]

theorem moveRequest_of_ne {other : ℕ} (h : other ≠ index) :
    (agent.moveRequest index turn).requests other = agent.requests other := by
  rw [moveRequest_requests, Function.update_of_ne h]

@[simp] theorem moveRequest_shutdown :
    (agent.moveRequest index turn).shutdown = agent.shutdown :=
  takes_shutdown agent (.request index) turn

@[simp] theorem moveRequest_trace :
    (agent.moveRequest index turn).trace = agent.trace ++ turn.added :=
  takes_trace agent (.request index) turn

end Moves

/-- A step moves a request as the step of that request says, or leaves it where it is. -/
theorem requests_of_step {action : Action} (h : step agent action = some next) (index : ℕ) :
    next.requests index = agent.requests index ∨
      ∃ turn, Requests agent index (agent.requests index) turn ∧
        next.requests index = turn.next := by
  cases step_cases h with
  | hastened | attached => exact .inl rfl
  | looped turn => exact .inl (congrFun (moveLoop_requests agent turn) index)
  | requested other turn hturn =>
      by_cases hsame : index = other
      · subst hsame
        exact .inr ⟨turn, hturn, moveRequest_self agent index turn⟩
      · exact .inl (moveRequest_of_ne agent other turn hsame)

/-- What both parties do with a job leaves the line as it is. -/
theorem tends_permits {stage : Tenancy} {turn : Turn Tenancy} {party : Party}
    (h : Tends agent stage turn) : (agent.takes party turn).permits = agent.permits := by
  cases h with
  | ran run after action => cases action <;> rfl
  | _ => rfl

/-- The places of all parties, from where each of them stands. -/
def places (atLoop : LoopPc → Place σ) (atRequest : RequestPc → Place σ) (agent : Agent) :
    Party → Place σ
  | .loop => atLoop agent.loop
  | .request index => atRequest (agent.requests index)

variable {atLoop : LoopPc → Place σ} {atRequest : RequestPc → Place σ}

theorem places_moveLoop (agent : Agent) (turn : Turn LoopPc) :
    places atLoop atRequest (agent.moveLoop turn) =
      Function.update (places atLoop atRequest agent) .loop (atLoop turn.next) := by
  funext party
  cases party with
  | loop => rw [Function.update_self]; rfl
  | request index =>
      rw [Function.update_of_ne (by nofun)]
      simp only [places, moveLoop_requests]

theorem places_moveRequest (agent : Agent) (index : ℕ) (turn : Turn RequestPc) :
    places atLoop atRequest (agent.moveRequest index turn) =
      Function.update (places atLoop atRequest agent) (.request index) (atRequest turn.next) := by
  funext party
  cases party with
  | loop =>
      rw [Function.update_of_ne (by nofun)]
      simp only [places, moveRequest_loop]
  | request other =>
      simp only [places, moveRequest_requests]
      by_cases hsame : other = index
      · rw [hsame, Function.update_self, Function.update_self]
      · rw [Function.update_of_ne hsame, Function.update_of_ne (by simpa using hsame)]
        rfl

/-- What the permit guards holds in every reachable state if every step of a party is one the rules
of the semaphore know, and a signal disturbs no claim. -/
theorem guards_of_reachable (value : Agent → σ) (idle : σ → Prop)
    (hplaces : ∀ config tools party,
      places atLoop atRequest (new config tools) party = .outside)
    (hinit : ∀ config tools, idle (value (new config tools)))
    (hhastened : ∀ agent, Guards agent.permits (places atLoop atRequest agent) idle (value agent) →
      Guards agent.permits (places atLoop atRequest agent) idle
        (value ({ agent with shutdown := hasten agent.shutdown }.emit [.hastened])))
    (hattached : ∀ agent, value (agent.emit [.attached agent.current]) = value agent)
    (hloop : ∀ agent turn, machine.Reachable agent → Loops agent agent.loop turn →
      Guards.Moves agent.permits .loop idle (value agent) (atLoop agent.loop)
        (agent.takes .loop turn).permits (atLoop turn.next) (value (agent.moveLoop turn)))
    (hrequest : ∀ agent index turn, machine.Reachable agent →
      Requests agent index (agent.requests index) turn →
      Guards.Moves agent.permits (.request index) idle (value agent)
        (atRequest (agent.requests index)) (agent.takes (.request index) turn).permits
          (atRequest turn.next) (value (agent.moveRequest index turn)))
    (h : machine.Reachable agent) :
    Guards agent.permits (places atLoop atRequest agent) idle (value agent) := by
  apply h.invariant_of (fun agent ↦ machine.Reachable agent)
    (fun agent ↦ Guards agent.permits (places atLoop atRequest agent) idle (value agent))
    fun _ ↦ id
  · intro agent hinitial
    obtain ⟨config, tools, rfl⟩ := hinitial
    exact .start (hplaces config tools) (hinit config tools)
  · intro agent action next hreach hguards _ hstep
    cases step_cases hstep with
    | hastened => exact hhastened agent hguards
    | attached =>
        rw [hattached]
        exact hguards
    | looped turn hturn =>
        rw [places_moveLoop]
        exact hguards.moves rfl (hloop agent turn hreach hturn)
    | requested index turn hturn =>
        rw [places_moveRequest]
        exact hguards.moves rfl (hrequest agent index turn hreach hturn)

end RalphexRunner.Agent
