import RalphexRunner.Agent.Holder
import RalphexRunner.Agent.Tasks
import RalphexRunner.Semantics.Fairness

/-!
# What becomes of a request that waits for a claim

A request that finds the claim loop with the permit stands in line behind it, and looks at the slot
whenever it changes.  From the answer to the claim on the loop does nothing but give the permit
back, with the run of the job between where there is one; the loop joins the line again at its end.
So the requests in line come first, and a request that did not see a run in the slot is behind the
end of that run when it is granted the permit.
-/

namespace RalphexRunner.Agent

variable {agent next : Agent} {index : ℕ} {request : RunRequest}

/-- Nobody gets before a party that stays in line. -/
theorem ahead_of_step {action : Action} {party : Party} (h : step agent action = some next)
    (hbefore : party ∈ agent.permits.line) (hafter : party ∈ next.permits.line) :
    next.permits.ahead party ⊆ agent.permits.ahead party := by
  have hmoved {mover : Party} (hpermits : next.permits = agent.permits ∨
      next.permits = agent.permits.enqueue mover ∨ next.permits = agent.permits.leave mover) :
      next.permits.ahead party ⊆ agent.permits.ahead party := by
    rcases hpermits with hsame | hjoined | hleft
    · rw [hsame]
      exact List.Subset.refl _
    · rw [hjoined, Semaphore.ahead_enqueue hbefore]
      exact List.Subset.refl _
    · rw [hleft] at hafter ⊢
      exact Semaphore.ahead_leave hafter
  cases step_cases h with
  | hastened | attached => exact List.Subset.refl _
  | looped turn => exact hmoved (takes_permits agent .loop turn)
  | requested other turn => exact hmoved (takes_permits agent (.request other) turn)

/-- The request stands in line, or has stood in it. -/
def RequestPc.Joined : RequestPc → Prop
  | .absent | .arrived _ | .subscribing _ | .selecting _ => False
  | _ => True

theorem requests_joined {pc : RequestPc} {turn : Turn RequestPc}
    (h : Requests agent index pc turn) (hjoined : pc.Joined) : turn.next.Joined := by
  cases h with
  | arrived | missed | looked | queued => exact hjoined.elim
  | acquired _ _ hpc | busy _ _ _ hpc => rcases hpc with rfl | rfl <;> exact hjoined.elim
  | _ => trivial

theorem requests_unfinished {pc : RequestPc} {turn : Turn RequestPc}
    (h : Requests agent index pc turn) : pc ≠ .finished := by
  cases h with
  | acquired _ _ hpc | busy _ _ _ hpc => rcases hpc with rfl | rfl <;> nofun
  | _ => nofun

theorem joined_of_step {action : Action} (h : step agent action = some next)
    (hjoined : (agent.requests index).Joined) : (next.requests index).Joined := by
  rcases requests_of_step h index with hsame | ⟨turn, hturn, hnext⟩
  · exact hsame ▸ hjoined
  · exact hnext ▸ requests_joined hturn hjoined

theorem finished_of_step {action : Action} (h : step agent action = some next)
    (hfinished : agent.requests index = .finished) : next.requests index = .finished := by
  rcases requests_of_step h index with hsame | ⟨turn, hturn, -⟩
  · exact hsame.trans hfinished
  · exact absurd hfinished (requests_unfinished hturn)

/-- A request that stands in line has joined it. -/
theorem joined_of_mem (h : machine.Reachable agent) (hmem : .request index ∈ agent.permits.line) :
    (agent.requests index).Joined := by
  have hfits := request_fits h index
  cases hpc : agent.requests index with
  | absent | arrived | subscribing | selecting =>
      rw [hpc] at hfits
      exact absurd hmem hfits
  | _ => trivial

/-- A request that has joined the line and does not stand in it is over. -/
theorem finished_of_notMem (h : machine.Reachable agent) (hjoined : (agent.requests index).Joined)
    (hnot : .request index ∉ agent.permits.line) : agent.requests index = .finished := by
  have hfits := request_fits h index
  have hplace : (agent.requests index).place = .outside := by
    cases hplace : (agent.requests index).place with
    | outside => rfl
    | queued =>
        rw [hplace] at hfits
        exact absurd hfits hnot
    | holding claim =>
        rw [hplace] at hfits
        exact absurd (Semaphore.mem_of_holder hfits) hnot
  cases hpc : agent.requests index with
  | finished => rfl
  | absent | arrived | subscribing | selecting =>
      rw [hpc] at hjoined
      exact hjoined.elim
  | _ =>
      rw [hpc] at hplace
      cases hplace

theorem notMem_of_finished (h : machine.Reachable agent)
    (hfinished : agent.requests index = .finished) :
    .request index ∉ agent.permits.line := by
  have hfits := request_fits h index
  rwa [hfinished] at hfits

/-- A request that has left the line does not join it again. -/
theorem mem_of_step {action : Action} (hreach : machine.Reachable agent)
    (h : step agent action = some next) (hjoined : (agent.requests index).Joined)
    (hmem : .request index ∈ next.permits.line) : .request index ∈ agent.permits.line := by
  by_contra hnot
  have hfinished := finished_of_step h (finished_of_notMem hreach hjoined hnot)
  exact notMem_of_finished (.step hreach trivial h) hfinished hmem

/-- The claim loop has the permit, for the run of a job or for none, from the answer to a claim to
the return of the permit. -/
def LoopPc.Returning (tenant : Option RunId) : LoopPc → Prop
  | .tenancy stage => tenant = some stage.runId
  | .stopping other _ | .freeing other _ => other = tenant
  | .dropping _ => True
  | _ => False

theorem tends_runId {stage : Tenancy} {turn : Turn Tenancy} (h : Tends agent stage turn) :
    turn.next.runId = stage.runId := by
  cases h with
  | ran run after action hstep =>
      exact congrArg (fun setup ↦ setup.job.runId) (Run.step_setup hstep)
  | _ => rfl

/-- What the claim loop does after the answer to a claim leads to the return of the permit. -/
theorem loops_returning {pc : LoopPc} {turn : Turn LoopPc} {tenant : Option RunId}
    (h : Loops agent pc turn) (hpc : pc.Returning tenant) :
    turn.next.Returning tenant ∨ ∃ after, pc = .dropping after := by
  cases h with
  | raised _ hsome => rcases hsome with rfl | rfl | rfl <;> exact hpc.elim
  | reported job => exact .inl hpc.symm
  | entered job => exact .inl hpc
  | returned run finished =>
      cases houtcome : finished.outcome <;> exact .inl hpc.symm
  | tends stage turn htends => exact .inl (hpc.trans (congrArg some (tends_runId htends).symm))
  | stopped => exact .inl hpc
  | freed => exact .inl trivial
  | dropped after => exact .inr ⟨after, rfl⟩
  | _ => exact hpc.elim

/-- The claim loop has the permit until it gives it back. -/
theorem holder_of_returning (h : machine.Reachable agent) {tenant : Option RunId}
    (hloop : agent.loop.Returning tenant) : agent.permits.holder = some .loop := by
  have hfits := loop_fits h
  cases hpc : agent.loop with
  | tenancy | stopping | freeing | dropping =>
      rw [hpc] at hfits
      exact hfits
  | _ =>
      rw [hpc] at hloop
      exact hloop.elim

/-- A run in the slot is the one the claim loop has the permit for. -/
theorem tenant_of_returning (h : machine.Reachable agent) {tenant : Option RunId} {runId : RunId}
    (hloop : agent.loop.Returning tenant) (hslot : agent.slot = .running runId) :
    tenant = some runId := by
  obtain ⟨party, hholder, htenant⟩ := tenant_of_slot h hslot
  have hparty : party = .loop := Option.some.inj (hholder.symm.trans (holder_of_returning h hloop))
  rw [hparty, Agent.tenant] at htenant
  cases hpc : agent.loop with
  | tenancy stage =>
      rw [hpc] at hloop htenant
      exact hloop.trans htenant
  | stopping other | freeing other =>
      rw [hpc] at hloop htenant
      exact hloop.symm.trans htenant
  | _ =>
      rw [hpc] at htenant
      cases htenant

/-- The claim loop gives the permit to the head of the line, in which the request waits. -/
structure HandsOver (index : ℕ) (request : RunRequest) (before : Agent) (action : Action)
    (after : Agent) : Prop where
  drops : action = .loop .drops
  holder : before.permits.holder = some .loop
  queued : before.requests index = .queued request
  waiting : .request index ∈ before.permits.waiting
  line : after.permits.line = before.permits.waiting
  head : after.permits.holder = before.permits.waiting.head?

/-- The request, in line, finds a run in the slot and is answered that it is busy. -/
structure Told (index : ℕ) (runId : RunId) (before : Agent) (action : Action) (after : Agent) :
    Prop where
  looks : action = .request index .notices
  slot : before.slot = .running runId
  answer : after.trace = before.trace ++ [.answered index (.busy runId)]

/-- The request learns that it has the permit. -/
structure Granted (index : ℕ) (before : Agent) (action : Action) : Prop where
  wins : action = .request index .wins
  holder : before.permits.holder = some (.request index)

theorem drops_eq_some {after : After} {move : Move} {turn : Turn LoopPc}
    (h : LoopPc.step agent (.dropping after) move = some turn) :
    move = .drops ∧ turn = ⟨.releases, after.resume.1, after.resume.2⟩ := by
  cases move <;> cases h
  exact ⟨rfl, rfl⟩

theorem queued_eq_some {move : Move} {turn : Turn RequestPc}
    (h : RequestPc.step agent index (.queued request) move = some turn) :
    (move = .wins ∧ agent.permits.holder = some (.request index)) ∨
      move = .notices ∧ ∃ runId, agent.slot = .running runId ∧
        turn = ⟨.nothing, [.answered index (.busy runId)], .backingOut⟩ := by
  cases move with
  | wins =>
      rw [RequestPc.step] at h
      split at h
      · rename_i hholder
        exact .inl ⟨rfl, hholder⟩
      · cases h
  | notices => exact .inr ⟨rfl, (sees_cases h).resolve_right nofun⟩
  | _ => cases h

/-- A request in line stays there, or is granted the permit or answered. -/
theorem queued_of_step {action : Action} (h : step agent action = some next)
    (hqueued : agent.requests index = .queued request) :
    next.requests index = .queued request ∨ Granted index agent action ∨
      ∃ runId, Told index runId agent action next := by
  cases action with
  | hastens | attaches =>
      cases h
      exact .inl hqueued
  | loop move =>
      obtain ⟨turn, -, rfl⟩ := Option.map_eq_some_iff.mp h
      exact .inl ((congrFun (moveLoop_requests agent turn) index).trans hqueued)
  | request other move =>
      obtain ⟨turn, hturn, rfl⟩ := Option.map_eq_some_iff.mp h
      by_cases hsame : index = other
      · subst hsame
        rw [hqueued] at hturn
        rcases queued_eq_some hturn with ⟨rfl, hholder⟩ | ⟨rfl, runId, hslot, rfl⟩
        · exact .inr (.inl ⟨rfl, hholder⟩)
        · exact .inr (.inr ⟨runId, rfl, hslot, moveRequest_trace agent index _⟩)
      · exact .inl ((moveRequest_of_ne agent other turn hsame).trans hqueued)

/-- The claim loop has yet to give the permit back, and the request waits in line. -/
structure Awaits (tenant : Option RunId) (index : ℕ) (request : RunRequest) (agent : Agent) :
    Prop where
  loop : agent.loop.Returning tenant
  queued : agent.requests index = .queued request

/-- The claim loop goes on towards the return of the permit, or takes the step that returns it. -/
theorem returning_of_step {tenant : Option RunId} {action : Action}
    (h : step agent action = some next) (hloop : agent.loop.Returning tenant) :
    next.loop.Returning tenant ∨
      action = .loop .drops ∧ next.permits = agent.permits.leave .loop := by
  cases action with
  | hastens | attaches =>
      cases h
      exact .inl hloop
  | request other move =>
      obtain ⟨turn, -, rfl⟩ := Option.map_eq_some_iff.mp h
      exact .inl ((moveRequest_loop agent other turn).symm ▸ hloop)
  | loop move =>
      obtain ⟨turn, hturn, rfl⟩ := Option.map_eq_some_iff.mp h
      rcases loops_returning (loop_cases hturn) hloop with hreturning | ⟨after, hpc⟩
      · exact .inl hreturning
      · rw [hpc] at hturn
        obtain ⟨rfl, rfl⟩ := drops_eq_some hturn
        exact .inr ⟨rfl, rfl⟩

/-- One step of the time in which the claim loop has yet to give the permit back. -/
theorem awaits_step {tenant : Option RunId} {action : Action} (hreach : machine.Reachable agent)
    (hawaits : Awaits tenant index request agent) (h : step agent action = some next) :
    Awaits tenant index request next ∨ HandsOver index request agent action next ∨
      ∃ runId, tenant = some runId ∧ Told index runId agent action next := by
  obtain ⟨hloop, hqueued⟩ := hawaits
  have hholder := holder_of_returning hreach hloop
  rcases returning_of_step h hloop with hreturning | ⟨rfl, hpermits⟩
  · rcases queued_of_step h hqueued with hstill | hgranted | ⟨runId, htold⟩
    · exact .inl ⟨hreturning, hstill⟩
    · exact absurd (hholder.symm.trans hgranted.holder) nofun
    · exact .inr (.inr ⟨runId, tenant_of_returning hreach hloop htold.slot, htold⟩)
  · have hline : next.permits.line = agent.permits.waiting := by
      rw [hpermits, Semaphore.leave_line hholder]
    have hwaiting := Semaphore.mem_waiting hholder (mem_of_queued hreach hqueued) nofun
    exact .inr (.inl ⟨rfl, hholder, hqueued, hwaiting, hline, congrArg List.head? hline⟩)

/-- The request waits behind nobody but these. -/
structure Behind (parties : List Party) (index : ℕ) (request : RunRequest) (agent : Agent) :
    Prop where
  queued : agent.requests index = .queued request
  ahead : agent.permits.ahead (.request index) ⊆ parties

/-- A run that answers a request in line is the one of a party that stands before it. -/
theorem behind_step {parties : List Party} {action : Action} (hreach : machine.Reachable agent)
    (hbehind : Behind parties index request agent) (h : step agent action = some next) :
    Behind parties index request next ∨ Granted index agent action ∨
      ∃ runId party, Told index runId agent action next ∧ agent.permits.holder = some party ∧
        agent.tenant party = some runId ∧ party ∈ parties := by
  obtain ⟨hqueued, hahead⟩ := hbehind
  rcases queued_of_step h hqueued with hstill | hgranted | ⟨runId, htold⟩
  · have hmem := mem_of_queued hreach hqueued
    have hmem' := mem_of_queued (.step hreach trivial h) hstill
    exact .inl ⟨hstill, List.Subset.trans (ahead_of_step h hmem hmem') hahead⟩
  · exact .inr (.inl hgranted)
  · obtain ⟨party, hholder, htenant⟩ := tenant_of_slot hreach htold.slot
    have hother : party ≠ .request index := by
      rintro rfl
      rw [Agent.tenant, hqueued] at htenant
      cases htenant
    have hparty := hahead (Semaphore.mem_ahead_of_holder hholder hother)
    exact .inr (.inr ⟨runId, party, htold, hholder, htenant, hparty⟩)

/-- The claim loop gives the permit back, or does not stand before the request. -/
def Yields (index : ℕ) (agent : Agent) : Prop :=
  (∃ tenant, agent.loop.Returning tenant) ∨
    (.request index ∈ agent.permits.line → .loop ∉ agent.permits.ahead (.request index))

theorem yields_step {action : Action} (hreach : machine.Reachable agent)
    (hjoined : (agent.requests index).Joined) (hyields : Yields index agent)
    (h : step agent action = some next) : Yields index next := by
  rcases hyields with ⟨tenant, hloop⟩ | hyields
  · rcases returning_of_step h hloop with hreturning | ⟨-, hpermits⟩
    · exact .inl ⟨tenant, hreturning⟩
    · refine .inr fun _ hahead ↦ ?_
      have hmem := Semaphore.ahead_subset hahead
      rw [hpermits] at hmem
      exact (Semaphore.mem_leave_iff.mp hmem).1 rfl
  · refine .inr fun hmem hahead ↦ ?_
    have hbefore := mem_of_step hreach h hjoined hmem
    exact hyields hbefore (ahead_of_step h hbefore hmem hahead)

/-- Where the claim loop has sent another claim, those who were in line are through. -/
theorem finished_of_claimed {start : Agent} {actions : List Action}
    (hreach : machine.Reachable start) (hyields : Yields index start)
    (hmem : .request index ∈ start.permits.line)
    (hexec : machine.exec start actions = some next) (hclaimed : next.loop = .claimed) :
    next.requests index = .finished := by
  obtain ⟨hjoined, hstill⟩ := Machine.Reachable.exec_invariant
    (fun agent ↦ (agent.requests index).Joined ∧ Yields index agent)
    (fun _ _ _ hreach hinv hstep ↦
      ⟨joined_of_step hstep hinv.1, yields_step hreach hinv.1 hinv.2 hstep⟩)
    hreach ⟨joined_of_mem hreach hmem, hyields⟩ hexec
  have hreach' : machine.Reachable next := hreach.exec hexec
  apply finished_of_notMem hreach' hjoined
  intro hin
  rcases hstill with ⟨tenant, hreturning⟩ | hstill
  · rw [hclaimed] at hreturning
    exact hreturning
  · have hfits := loop_fits hreach'
    rw [hclaimed] at hfits
    exact hstill hin (Semaphore.mem_ahead_of_holder hfits nofun)

def Action.OfLoop (action : Action) : Prop := ∃ move, action = .loop move

/-- How many steps the claim loop has left before the one that gives the permit back, where no job
came. -/
def LoopPc.toReturn : LoopPc → ℕ
  | .stopping _ _ => 2
  | .freeing _ _ => 1
  | _ => 0

theorem loops_toReturn {pc : LoopPc} {turn : Turn LoopPc} (h : Loops agent pc turn)
    (hpc : pc.Returning none) (hnext : turn.next.Returning none) :
    turn.next.toReturn < pc.toReturn := by
  cases h with
  | raised _ hsome => rcases hsome with rfl | rfl | rfl <;> exact hpc.elim
  | stopped => exact Nat.lt_succ_self 1
  | freed => exact Nat.one_pos
  | dropped after => cases after <;> exact hnext.elim
  | reported | entered | returned | tends => cases hpc
  | _ => exact hpc.elim

/-- A claim loop on its way to give the permit back can always go on. -/
theorem returning_steps (h : agent.loop.Returning none) :
    ∃ action next, Action.OfLoop action ∧ step agent action = some next := by
  have hsteps (move : Move) (hturn : (agent.loop.step agent move).isSome) :
      ∃ action next, Action.OfLoop action ∧ step agent action = some next := by
    obtain ⟨turn, hturn⟩ := Option.isSome_iff_exists.mp hturn
    refine ⟨.loop move, agent.moveLoop turn, ⟨move, rfl⟩, ?_⟩
    rw [step, hturn, Option.map_some]
  cases hpc : agent.loop with
  | stopping tenant message => exact hsteps .stops (by rw [hpc]; rfl)
  | freeing tenant after => exact hsteps .frees (by rw [hpc]; rfl)
  | dropping after => exact hsteps .drops (by rw [hpc]; rfl)
  | tenancy =>
      rw [hpc] at h
      cases h
  | _ =>
      rw [hpc] at h
      exact h.elim

theorem loop_of_step {action : Action} (h : step agent action = some next)
    (hother : ¬ action.OfLoop) : next.loop = agent.loop := by
  cases action with
  | hastens | attaches =>
      cases h
      rfl
  | loop move => exact absurd ⟨move, rfl⟩ hother
  | request index move =>
      obtain ⟨turn, -, rfl⟩ := Option.map_eq_some_iff.mp h
      exact moveRequest_loop agent index turn

theorem HandsOver.returned {action : Action} (h : HandsOver index request agent action next)
    (hreach : machine.Reachable next) (tenant : Option RunId) : ¬ next.loop.Returning tenant := by
  intro hloop
  have hholder := holder_of_returning hreach hloop
  rw [h.head] at hholder
  exact Semaphore.notMem_waiting h.holder (List.mem_of_mem_head? hholder)

/-- Each step of the claim loop brings the return of the permit nearer, and no other step puts it
off. -/
theorem awaits_nears {action : Action}
    (h : machine.Reachable agent ∧ Awaits none index request agent)
    (hstep : machine.step agent action = some next) :
    Machine.Endless.Nears (fun _ : Unit ↦ Action.OfLoop)
      (fun agent ↦ machine.Reachable agent ∧ Awaits none index request agent)
      (fun agent ↦ ¬ agent.loop.Returning none) (fun agent ↦ agent.loop.toReturn) (fun _ ↦ ())
      agent action next := by
  obtain ⟨hreach, hawaits⟩ := h
  have hreach' : machine.Reachable next := .step hreach trivial hstep
  rcases awaits_step hreach hawaits hstep with hstill | hover | ⟨runId, hnone, -⟩
  · refine .inr ⟨⟨hreach', hstill⟩, ?_⟩
    by_cases hmine : action.OfLoop
    · obtain ⟨move, rfl⟩ := hmine
      obtain ⟨turn, hturn, rfl⟩ := Option.map_eq_some_iff.mp hstep
      exact .inl (loops_toReturn (loop_cases hturn) hawaits.loop hstill.loop)
    · have hloop := loop_of_step hstep hmine
      exact .inr ⟨congrArg LoopPc.toReturn hloop, rfl, hmine⟩
  · exact .inl (hover.returned hreach' none)
  · cases hnone

/-- A claim loop that is not held up for ever gives the permit back. -/
theorem handed_over {run : machine.Endless} (hreach : machine.Reachable (run.state 0))
    (hawaits : Awaits none index request (run.state 0)) (hfair : run.Fair Action.OfLoop) :
    ∃ time, HandsOver index request (run.state time) (run.action time) (run.state (time + 1)) := by
  by_contra hnever
  have hwaits (time : ℕ) :
      machine.Reachable (run.state time) ∧ Awaits none index request (run.state time) := by
    induction time with
    | zero => exact ⟨hreach, hawaits⟩
    | succ time ih =>
        refine ⟨.step ih.1 trivial (run.steps time), ?_⟩
        rcases awaits_step ih.1 ih.2 (run.steps time) with hstill | hover | ⟨runId, hnone, -⟩
        · exact hstill
        · exact absurd ⟨time, hover⟩ hnever
        · cases hnone
  obtain ⟨later, -, hreturned⟩ := Machine.Endless.eventually (fun _ ↦ hfair)
    (fun _ hpending ↦ returning_steps hpending.2.loop) (fun _ _ _ ↦ awaits_nears) (hwaits 0)
  exact hreturned (hwaits later).2.loop

/-! ## Runs from the answer to a claim -/

/-- Until the claim loop has given the permit back, a request that was in line is in line, unless it
was answered by the run the loop has the permit for. -/
theorem awaited {start : Agent} {actions : List Action} {tenant : Option RunId}
    (hreach : machine.Reachable start) (hawaits : Awaits tenant index request start)
    (hexec : machine.exec start actions = some next) :
    Awaits tenant index request next ∨
      (∃ told : machine.Moment start actions next, ∃ runId, tenant = some runId ∧
        told.before.permits.holder = some .loop ∧
          Told index runId told.before told.action told.after) ∨
      ∃ release : machine.Moment start actions next,
        HandsOver index request release.before release.action release.after := by
  rcases hreach.exec_until (Awaits tenant index request)
    (fun before action after ↦ HandsOver index request before action after ∨
      ∃ runId, tenant = some runId ∧ Told index runId before action after)
    (fun _ _ _ hreach ↦ awaits_step hreach) hawaits hexec with hstill | ⟨moment, hbefore, hends⟩
  · exact .inl hstill
  · rcases hends with hover | ⟨runId, htenant, htold⟩
    · exact .inr (.inr ⟨moment, hover⟩)
    · have hholder := holder_of_returning (moment.reachable hreach) hbefore.loop
      exact .inr (.inl ⟨moment, runId, htenant, hholder, htold⟩)

/-- What becomes of a request in line once the claim loop has given the permit back: it waits, or it
was granted the permit, or it was answered by the run of a request that stood before it. -/
inductive Fate (index : ℕ) (request : RunRequest) (start : Agent) (actions : List Action)
    (next : Agent) : Prop
  | waits : next.requests index = .queued request → Fate index request start actions next
  | granted (granted : machine.Moment start actions next) :
      Granted index granted.before granted.action → Fate index request start actions next
  | busy (told : machine.Moment start actions next) (runId : RunId) (other : ℕ) :
      Told index runId told.before told.action told.after →
      told.before.permits.holder = some (.request other) →
      told.before.tenant (.request other) = some runId →
      .request other ∈ start.permits.ahead (.request index) →
        Fate index request start actions next

theorem fate_of_exec {start : Agent} {actions : List Action} (hreach : machine.Reachable start)
    (hqueued : start.requests index = .queued request) (hloop : .loop ∉ start.permits.line)
    (hexec : machine.exec start actions = some next) : Fate index request start actions next := by
  have hbehind : Behind (start.permits.ahead (.request index)) index request start :=
    ⟨hqueued, List.Subset.refl _⟩
  rcases hreach.exec_until (Behind (start.permits.ahead (.request index)) index request) _
    (fun _ _ _ hreach ↦ behind_step hreach) hbehind hexec with hstill | ⟨moment, -, hends⟩
  · exact .waits hstill.queued
  · rcases hends with hgranted | ⟨runId, party, htold, hholder, htenant, hparty⟩
    · exact .granted moment hgranted
    · cases party with
      | loop => exact absurd (Semaphore.ahead_subset hparty) hloop
      | request other => exact .busy moment runId other htold hholder htenant hparty

/-- A claim stays in flight, and a request in line, until the claim is answered. -/
theorem claimed_step {action : Action} (hreach : machine.Reachable agent)
    (h : agent.loop = .claimed ∧ agent.requests index = .queued request)
    (hstep : step agent action = some next) :
    (next.loop = .claimed ∧ next.requests index = .queued request) ∨
      ∃ answer, action = .loop (.claims answer) ∧ next.loop = (LoopPc.claims answer).next ∧
        next.requests index = .queued request := by
  obtain ⟨hclaimed, hqueued⟩ := h
  have hguards := slot_guarded hreach
  have hplace : places LoopPc.place RequestPc.place agent .loop = .holding (Keeps .polling) :=
    congrArg LoopPc.place hclaimed
  have hstill : next.requests index = .queued request := by
    rcases queued_of_step hstep hqueued with hstill | hgranted | ⟨runId, htold⟩
    · exact hstill
    · exact absurd ((hguards.holder hplace).symm.trans hgranted.holder) nofun
    · have hslot : agent.slot = .polling := (hguards.kept .loop _ hplace).1
      exact absurd (hslot.symm.trans htold.slot) nofun
  by_cases hmine : action.OfLoop
  · obtain ⟨move, rfl⟩ := hmine
    obtain ⟨turn, hturn, rfl⟩ := Option.map_eq_some_iff.mp hstep
    rw [hclaimed] at hturn
    cases move with
    | claims answer =>
        cases hturn
        exact .inr ⟨answer, rfl, rfl, hstill⟩
    | _ => cases hturn
  · exact .inl ⟨(loop_of_step hstep hmine).trans hclaimed, hstill⟩

theorem returning_claims (answer : Except FarmError (Option Job)) :
    (∃ job, answer = .ok (some job) ∧
      (LoopPc.claims answer).next.Returning (some job.runId)) ∨
    (∀ job, answer ≠ .ok (some job)) ∧ (LoopPc.claims answer).next.Returning none := by
  fun_cases LoopPc.claims answer with
  | case1 job => exact .inl ⟨job, rfl, rfl⟩
  | case2 | case3 | case4 =>
      refine .inr ⟨fun job hjob ↦ ?_, rfl⟩
      cases hjob

/-- What the two futures of `hold_slot` would fail on. -/
inductive Failure where
  | closed
  | orphaned

/-- An agent with what has failed: the semaphore was closed, or the sender of the watch of the slot
is gone.  Nothing in the agent closes the one or drops the other before itself. -/
structure Handles where
  agent : Agent
  failed : Failure → Bool

/-- A request in `hold_slot` whose future failed is answered that it is busy with no run. -/
def RequestPc.fails (index : ℕ) : RequestPc → Option (Turn RequestPc)
  | .selecting _ => some ⟨.nothing, [.answered index (.busy ⟨[]⟩)], .finished⟩
  | .queued _ => some ⟨.nothing, [.answered index (.busy ⟨[]⟩)], .backingOut⟩
  | _ => none

namespace Handles

inductive Action where
  | acts (action : Agent.Action)
  | fails (failure : Failure) (index : ℕ)

def step (handles : Handles) : Action → Option Handles
  | .acts action => (Agent.step handles.agent action).map fun agent ↦ { handles with agent }
  | .fails failure index =>
      if handles.failed failure then
        ((handles.agent.requests index).fails index).map fun turn ↦
          { handles with agent := handles.agent.moveRequest index turn }
      else none

/-- The daemon with a semaphore that is open and a watch that has its sender. -/
def machine : Machine Handles Action where
  init handles := Agent.machine.init handles.agent ∧ ∀ failure, handles.failed failure = false
  step := step

theorem step_fails {handles : Handles} {failure : Failure} {index : ℕ}
    (h : ∀ failure, handles.failed failure = false) :
    handles.step (.fails failure index) = none := by
  rw [step, h failure]
  rfl

/-- Nothing ever fails, so the agent does what it does without the branches for it. -/
theorem sound_of_reachable {handles : Handles} (h : machine.Reachable handles) :
    Agent.machine.Reachable handles.agent ∧ ∀ failure, handles.failed failure = false := by
  apply h.invariant fun handles ↦
    Agent.machine.Reachable handles.agent ∧ ∀ failure, handles.failed failure = false
  · exact fun handles hinit ↦ ⟨.init hinit.1, hinit.2⟩
  · intro handles action next hsound _ hstep
    cases action with
    | acts action =>
        obtain ⟨agent, hagent, rfl⟩ := Option.map_eq_some_iff.mp hstep
        exact ⟨.step hsound.1 trivial hagent, hsound.2⟩
    | fails failure index => exact absurd ((step_fails hsound.2).symm.trans hstep) nofun

end Handles

/-- What a claim without a job leads to: the permit goes to the head of the line, at the latest when
the claim loop is not held up, and those in line are through before it sends another claim. -/
structure EndsEmpty (index : ℕ) (request : RunRequest) (start : Agent) (actions : List Action)
    (next : Agent) : Prop where
  permit : Awaits none index request next ∨
    ∃ release : machine.Moment start actions next,
      HandsOver index request release.before release.action release.after ∧
        (next.loop = .claimed → ∀ other, .request other ∈ release.before.permits.waiting →
          next.requests other = .finished)
  through : next.loop = .claimed → ∀ other, .request other ∈ start.permits.line →
    next.requests other = .finished
  inTime : ∀ run : machine.Endless, run.state 0 = start → run.Fair Action.OfLoop →
    ∃ time, HandsOver index request (run.state time) (run.action time) (run.state (time + 1))

/-- What a claim with a job leads to: the request waits until the run of the job gives the permit
back, unless it is answered by that run. -/
inductive EndsWith (job : Job) (index : ℕ) (request : RunRequest) (start : Agent)
    (actions : List Action) (next : Agent) : Prop
  | awaits : Awaits (some job.runId) index request next →
      EndsWith job index request start actions next
  | told (told : machine.Moment start actions next) :
      told.before.permits.holder = some .loop →
      Told index job.runId told.before told.action told.after →
        EndsWith job index request start actions next
  | missed (release : machine.Moment start actions next) :
      HandsOver index request release.before release.action release.after →
      Fate index request release.after release.later next →
        EndsWith job index request start actions next

theorem HandsOver.notMem {action : Action} (h : HandsOver index request agent action next) :
    .loop ∉ next.permits.line := by
  rw [h.line]
  exact Semaphore.notMem_waiting h.holder

/-- The request still waits when the permit has been given to the head of the line. -/
theorem HandsOver.still {action : Action} (h : HandsOver index request agent action next)
    (hstep : step agent action = some next) : next.requests index = .queued request := by
  rcases queued_of_step hstep h.queued with hstill | hgranted | ⟨runId, htold⟩
  · exact hstill
  · exact absurd (h.drops.symm.trans hgranted.wins) nofun
  · exact absurd (h.drops.symm.trans htold.looks) nofun

/-- A claim without a job hands the permit to the head of the line. -/
theorem ends_empty {start : Agent} {actions : List Action} (hreach : machine.Reachable start)
    (hawaits : Awaits none index request start) (hexec : machine.exec start actions = some next) :
    EndsEmpty index request start actions next where
  permit := by
    rcases awaited hreach hawaits hexec with hstill | ⟨_, _, hnone, -⟩ | ⟨release, hover⟩
    · exact .inl hstill
    · cases hnone
    · refine .inr ⟨release, hover, fun hclaimed other hother ↦ ?_⟩
      have hyields : Yields other release.after :=
        .inr fun _ hahead ↦ hover.notMem (Semaphore.ahead_subset hahead)
      exact finished_of_claimed (release.reachable_after hreach) hyields (hover.line ▸ hother)
        release.followed hclaimed
  through hclaimed other hother :=
    finished_of_claimed hreach (.inl ⟨none, hawaits.loop⟩) hother hexec hclaimed
  inTime run hstart hfair := by
    subst hstart
    exact handed_over hreach hawaits hfair

theorem ends_with {start : Agent} {actions : List Action} {job : Job}
    (hreach : machine.Reachable start) (hawaits : Awaits (some job.runId) index request start)
    (hexec : machine.exec start actions = some next) :
    EndsWith job index request start actions next := by
  rcases awaited hreach hawaits hexec with hstill | ⟨told, _, hsame, hholder, htold⟩ |
    ⟨release, hover⟩
  · exact .awaits hstill
  · cases hsame
    exact .told told hholder htold
  · have hstill := hover.still release.taken
    have hreach' := release.reachable_after hreach
    exact .missed release hover (fate_of_exec hreach' hstill hover.notMem release.followed)

/-- A request that waits in line while a claim is in flight waits until the claim is answered.
Without a job the permit goes to the head of the line, and the claim loop sends no further claim
before those in line are through.  With a job the request is answered that it is busy by the run of
the job, or waits until that run has given the permit back; after that it is granted the permit or
answered by the run of a request that stood before it.  No request is answered without a run: the
futures of `hold_slot` do not fail, and the run it names is in the slot. -/
theorem claim_hands_over (h : machine.Reachable agent) (hclaimed : agent.loop = .claimed)
    (hqueued : agent.requests index = .queued request) :
    (∀ actions next, machine.exec agent actions = some next →
      (next.loop = .claimed ∧ next.requests index = .queued request) ∨
      ∃ (claim : machine.Moment agent actions next) (answer : Except FarmError (Option Job)),
        claim.action = .loop (.claims answer) ∧
        ((∀ job, answer ≠ .ok (some job)) →
          EndsEmpty index request claim.after claim.later next) ∧
        ∀ job, answer = .ok (some job) →
          EndsWith job index request claim.after claim.later next) ∧
    ∀ handles, Handles.machine.Reachable handles →
      (∀ failure other, handles.step (.fails failure other) = none) ∧
        ∀ before other runId after,
          handles.agent.trace = before ++ .answered other (.busy runId) :: after →
            lastHeld before = .running runId := by
  refine ⟨fun actions next hexec ↦ ?_, fun handles hhandles ↦ ?_⟩
  · rcases h.exec_until (fun agent ↦ agent.loop = .claimed ∧ agent.requests index = .queued request)
      _ (fun _ _ _ hreach ↦ claimed_step hreach) ⟨hclaimed, hqueued⟩ hexec with
      hstill | ⟨claim, -, answer, haction, hloop, hstill⟩
    · exact .inl hstill
    · have hreach := claim.reachable_after h
      refine .inr ⟨claim, answer, haction, ?_⟩
      rcases returning_claims answer with ⟨job, rfl, hreturning⟩ | ⟨hnone, hreturning⟩
      · have hawaits : Awaits (some job.runId) index request claim.after :=
          ⟨hloop ▸ hreturning, hstill⟩
        refine ⟨fun hnone ↦ absurd rfl (hnone job), fun other hother ↦ ?_⟩
        cases hother
        exact ends_with hreach hawaits claim.followed
      · have hawaits : Awaits none index request claim.after := ⟨hloop ▸ hreturning, hstill⟩
        exact ⟨fun _ ↦ ends_empty hreach hawaits claim.followed,
          fun job hjob ↦ absurd hjob (hnone job)⟩
  · obtain ⟨hreach, hfailed⟩ := Handles.sound_of_reachable hhandles
    refine ⟨fun _ _ ↦ Handles.step_fails hfailed, fun before other runId after hsplit ↦ ?_⟩
    exact ((recorded_of_reachable hreach).named before _ after hsplit).2

def polls : List Action := [.loop .checks, .loop .enqueues, .loop .holds]

def linesUp (index : ℕ) : List Action :=
  [.request index (.arrives localRequest), .request index .tries, .request index .looks,
    .request index .enqueues]

def comesBack : List Action := [.loop (.claims (.ok none)), .loop .frees, .loop .drops]

/-- A request that waited through a poll has the permit once the poll came back empty. -/
theorem claim_hands_over_empty : ∃ agent next,
    machine.exec idleDaemon (polls ++ linesUp 0) = some agent ∧
      machine.exec agent comesBack = some next ∧
        next.permits.holder = some (.request 0) ∧
          ∃ claim : machine.Moment agent comesBack next,
            EndsEmpty 0 localRequest claim.after claim.later next := by
  have hexec : machine.exec idleDaemon (polls ++ linesUp 0) = some _ := rfl
  have hqueued (agent : Agent) (h : machine.exec idleDaemon (polls ++ linesUp 0) = some agent) :
      agent.requests 0 = .queued localRequest := by
    cases h
    rfl
  refine ⟨_, _, hexec, rfl, rfl, ?_⟩
  obtain ⟨hruns, -⟩ := claim_hands_over (reachable_of_exec hexec) rfl (hqueued _ hexec)
  rcases hruns comesBack _ rfl with ⟨hclaimed, -⟩ | ⟨claim, answer, haction, hempty, -⟩
  · cases hclaimed
  · refine ⟨claim, hempty fun job hjob ↦ ?_⟩
    have hmem := claim.action_mem
    rw [haction, hjob] at hmem
    simp [comesBack] at hmem

def farmJob : Job := { localJob with runId := ⟨['c']⟩ }

/-- The claim loop serves it to its end and gives the permit back. -/
def servesJob : List Action :=
  [.loop .checks, .loop .holds, .loop (.enters none)] ++
    (Run.drainedAndClosed ++ Run.returns).map (fun action ↦ .loop (.runs action)) ++
    [.loop .returns, .loop .frees, .loop .drops]

/-- The first request in line is granted the permit and a run, and the second one looks then. -/
def findsLaterRun : List Action :=
  [.request 0 .wins, .request 0 .checks, .request 0 .checks, .request 0 .holds,
    .request 0 (.titles none), .request 0 (.opens (.ok localJob)), .request 0 .checks,
    .request 0 .holds, .request 1 .notices, .request 1 .cancels]

def Event.answer? : Event → Option (ℕ × LocalStart)
  | .answered index start => some (index, start)
  | _ => none

theorem mem_answers {trace : List Event} {start : LocalStart} (h : .answered index start ∈ trace) :
    (index, start) ∈ trace.filterMap Event.answer? :=
  List.mem_filterMap.mpr ⟨_, h, rfl⟩

/-- A request that did not see the run of the job may never be granted the permit and be answered by
another run. -/
theorem busy_by_later_run : ¬ ∀ agent index request job actions next, machine.Reachable agent →
    agent.loop = .claimed → agent.requests index = .queued request →
    machine.exec agent (.loop (.claims (.ok (some job))) :: actions) = some next →
    next.requests index = .finished →
      .answered index (.busy job.runId) ∈ next.trace ∨ .request index .wins ∈ actions := by
  intro hclaim
  have hexec : machine.exec idleDaemon (polls ++ linesUp 0 ++ linesUp 1) = some _ := rfl
  have hqueued (agent : Agent)
      (h : machine.exec idleDaemon (polls ++ linesUp 0 ++ linesUp 1) = some agent) :
      agent.requests 1 = .queued localRequest := by
    cases h
    rfl
  have hlater := hclaim _ 1 _ farmJob (servesJob ++ findsLaterRun) _ (reachable_of_exec hexec) rfl
    (hqueued _ hexec) rfl rfl
  rcases hlater with hanswered | hgranted
  · have hanswer := mem_answers hanswered
    change (1, LocalStart.busy ⟨['c']⟩) ∈ [(1, LocalStart.busy ⟨['r']⟩)] at hanswer
    simp at hanswer
  · simp [servesJob, findsLaterRun, Run.drainedAndClosed, Run.returns] at hgranted

end RalphexRunner.Agent
