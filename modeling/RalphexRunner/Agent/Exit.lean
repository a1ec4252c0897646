import RalphexRunner.Agent.Holder

/-!
# After the claim loop has returned

The claim loop returns with the permit in its hand, so nobody else is past the two checks of a local
request at that moment; and it returns only once a shutdown was raised or it stopped accepting, so
nobody passes both checks afterwards.  What is left of the local requests is refused, one after the
other.
-/

namespace RalphexRunner.Agent

variable {agent next : Agent}

theorem raised_hasten {shutdown : Shutdown} (h : shutdown.raised = true) :
    (hasten shutdown).raised = true := by
  cases shutdown with
  | running => cases h
  | draining => rfl
  | hurry => rfl

/-- The claim loop goes on like this only after a shutdown was raised. -/
def After.OfShutdown : After → Prop
  | .again | .pacing => False
  | .draining => True
  | .exited exit => exit = .shutdown

/-- The claim loop stands here only after a shutdown was raised. -/
def LoopPc.OfShutdown : LoopPc → Prop
  | .tenancy (.overtaken _) | .tenancy (.reported _) | .draining | .drainQueued => True
  | .freeing _ after | .dropping after => after.OfShutdown
  | .exited exit => exit = .shutdown
  | _ => False

/-- The claim loop goes on like this only after it stopped accepting. -/
def After.OfMismatch : After → Prop
  | .again | .pacing | .draining => False
  | .exited exit => exit ≠ .shutdown

/-- The claim loop stands here only after it stopped accepting. -/
def LoopPc.OfMismatch : LoopPc → Prop
  | .freeing _ after | .dropping after => after.OfMismatch
  | .exited exit => exit ≠ .shutdown
  | _ => False

/-- What the claim loop has seen where it stands. -/
structure Warned (agent : Agent) : Prop where
  shutdown : agent.loop.OfShutdown → agent.shutdown.raised = true
  mismatch : agent.loop.OfMismatch → agent.exiting = true

theorem takes_exiting {ρ : Type} {party : Party} {turn : Turn ρ} (h : agent.exiting = true) :
    (agent.takes party turn).exiting = true := by
  unfold takes
  cases turn.effect <;> first | exact h | rfl

/-- Every step that leads to the end of a shutdown follows a look at it. -/
theorem loops_shutdown {pc : LoopPc} {turn : Turn LoopPc} (h : Loops agent pc turn)
    (hpc : pc.OfShutdown → agent.shutdown.raised = true) (hnext : turn.next.OfShutdown) :
    agent.shutdown.raised = true := by
  cases h with
  | raised _ _ hraised | gaveUp hraised => exact hraised
  | reported | drained | drainQueued | drainWon => exact hpc trivial
  | freed => exact hpc hnext
  | stopped => cases hnext
  | returned run finished ended =>
      cases houtcome : finished.outcome with
      | «continue» | versionMismatch =>
          rw [houtcome] at hnext
          exact hnext.elim
  | tends stage turn htends =>
      cases htends with
      | overtaken job hraised => exact hraised
      | reported job => exact hpc trivial
      | _ => exact hnext.elim
  | dropped after =>
      cases after with
      | again | pacing => exact hnext.elim
      | draining => exact hpc trivial
      | exited exit => exact hpc hnext
  | _ => exact hnext.elim

/-- Every step that leads to the end by a mismatch follows `stop_accepting`. -/
theorem loops_mismatch {pc : LoopPc} {turn : Turn LoopPc} (h : Loops agent pc turn)
    (hpc : pc.OfMismatch → agent.exiting = true) (hnext : turn.next.OfMismatch) :
    (agent.takes .loop turn).exiting = true := by
  cases h with
  | stopped => rfl
  | freed => exact takes_exiting (hpc hnext)
  | drained | drainWon => exact absurd rfl hnext
  | returned run finished ended =>
      cases houtcome : finished.outcome with
      | «continue» | versionMismatch =>
          rw [houtcome] at hnext
          exact hnext.elim
  | dropped after =>
      cases after with
      | again | pacing | draining => exact hnext.elim
      | exited exit => exact takes_exiting (hpc hnext)
  | _ => exact hnext.elim

theorem loops_warned {turn : Turn LoopPc} (h : Loops agent agent.loop turn)
    (hwarned : Warned agent) : Warned (agent.moveLoop turn) where
  shutdown hnext := by
    rw [moveLoop_shutdown]
    exact loops_shutdown h hwarned.shutdown hnext
  mismatch hnext := loops_mismatch h hwarned.mismatch hnext

/-- The claim loop has seen what it acts on. -/
theorem warned_of_reachable (h : machine.Reachable agent) : Warned agent := by
  apply h.invariant Warned
  · intro agent hinit
    obtain ⟨config, tools, rfl⟩ := hinit
    exact ⟨nofun, nofun⟩
  · intro agent action next hwarned _ hstep
    cases step_cases hstep with
    | hastened => exact ⟨fun hloop ↦ raised_hasten (hwarned.shutdown hloop), hwarned.mismatch⟩
    | attached => exact ⟨hwarned.shutdown, hwarned.mismatch⟩
    | looped turn hturn => exact loops_warned hturn hwarned
    | requested index turn hturn =>
        refine ⟨fun hloop ↦ ?_, fun hloop ↦ ?_⟩
        · rw [moveRequest_loop] at hloop
          rw [moveRequest_shutdown]
          exact hwarned.shutdown hloop
        · rw [moveRequest_loop] at hloop
          exact takes_exiting (hwarned.mismatch hloop)

/-- A request past both checks that has not given the slot back. -/
def RequestPc.Inside : RequestPc → Prop
  | .opening _ | .titling _ | .asking _ | .tenancy _ _ | .starting _ _ _ | .freeing _ _ => True
  | _ => False

/-- Nobody is past both checks, and only a raised shutdown is still to be met at the second. -/
def Barred (agent : Agent) : Prop :=
  ∀ index, ¬ (agent.requests index).Inside ∧
    ∀ request, agent.requests index = .checked request → agent.shutdown.raised = true

theorem holding_of_inside {pc : RequestPc} (h : pc.Inside) :
    ∃ claim, pc.place = .holding claim := by
  cases pc <;> first | exact h.elim | exact ⟨_, rfl⟩

/-- While the claim loop holds the permit nobody is inside. -/
theorem barred_of_holding (h : machine.Reachable agent) {claim : View → Prop}
    (hplace : agent.loop.place = .holding claim) : Barred agent := by
  have hguards := slot_guarded h
  have halone {index : ℕ} {claim' : View → Prop}
      (hother : (agent.requests index).place = .holding claim') : False := by
    have hsame : Party.loop = .request index := hguards.only hplace hother
    cases hsame
  refine fun index ↦ ⟨fun hinside ↦ ?_, fun request hchecked ↦ ?_⟩
  · obtain ⟨claim', hother⟩ := holding_of_inside hinside
    exact halone hother
  · exact (halone (congrArg RequestPc.place hchecked)).elim

/-- A request gets inside only past both checks. -/
theorem requests_barred {index : ℕ} {pc : RequestPc} {turn : Turn RequestPc}
    (h : Requests agent index pc turn) (houtside : ¬ pc.Inside)
    (hchecked : ∀ request, pc = .checked request → agent.shutdown.raised = true)
    (hshut : agent.exiting = true ∨ agent.shutdown.raised = true) :
    ¬ turn.next.Inside ∧
      ∀ request, turn.next = .checked request → agent.shutdown.raised = true := by
  cases h with
  | checked request hnot =>
      refine ⟨id, fun _ _ ↦ hshut.resolve_left fun hexiting ↦ ?_⟩
      rw [hnot] at hexiting
      cases hexiting
  | admitted request hcalm =>
      have hraised := hchecked request rfl
      rw [hcalm] at hraised
      cases hraised
  | held | asked | handed | failed | reported | entered | spawned | returned | tends | freed =>
      exact (houtside trivial).elim
  | _ => exact ⟨id, nofun⟩

/-- The claim loop has returned. -/
def Exited (agent : Agent) : Prop := ∃ exit, agent.loop = .exited exit

theorem Exited.shut (h : Exited agent) (hwarned : Warned agent) :
    agent.exiting = true ∨ agent.shutdown.raised = true := by
  obtain ⟨exit, hloop⟩ := h
  by_cases hexit : exit = .shutdown
  · exact .inr (hwarned.shutdown (by rw [hloop]; exact hexit))
  · exact .inl (hwarned.mismatch (by rw [hloop]; exact hexit))

/-- The claim loop takes no step once it has returned. -/
theorem Exited.still {turn : Turn LoopPc} (h : Exited agent) : ¬ Loops agent agent.loop turn := by
  obtain ⟨exit, hloop⟩ := h
  rw [hloop]
  intro hturn
  cases hturn with
  | raised _ hpc => rcases hpc with hpc | hpc | hpc <;> cases hpc

/-- A claim loop that returns held the permit until then. -/
theorem holding_of_exits {turn : Turn LoopPc} (h : Loops agent agent.loop turn)
    (hexited : Exited (agent.moveLoop turn)) : ∃ claim, agent.loop.place = .holding claim := by
  obtain ⟨exit, hloop⟩ := hexited
  rw [moveLoop_loop] at hloop
  revert hloop
  generalize agent.loop = pc at h
  intro hloop
  cases h with
  | dropped after => exact ⟨_, rfl⟩
  | returned run finished =>
      cases houtcome : finished.outcome with
      | «continue» | versionMismatch =>
          rw [houtcome] at hloop
          cases hloop
  | _ => cases hloop

/-- Once the claim loop has returned, nobody is inside and nobody gets in. -/
theorem barred_of_exited (h : machine.Reachable agent) : Exited agent → Barred agent := by
  apply h.invariant_of (fun agent ↦ machine.Reachable agent)
    (fun agent ↦ Exited agent → Barred agent) fun _ ↦ id
  · intro agent hinit hexited
    obtain ⟨config, tools, rfl⟩ := hinit
    obtain ⟨exit, hloop⟩ := hexited
    cases hloop
  · intro agent action next hreach hbarred _ hstep hexited
    have hshut {agent : Agent} (hreach : machine.Reachable agent) (hexited : Exited agent) :=
      hexited.shut (warned_of_reachable hreach)
    cases step_cases hstep with
    | hastened =>
        intro index
        obtain ⟨houtside, hchecked⟩ := hbarred hexited index
        exact ⟨houtside, fun request hpc ↦ raised_hasten (hchecked request hpc)⟩
    | attached => exact hbarred hexited
    | looped turn hturn =>
        obtain ⟨claim, hplace⟩ := holding_of_exits hturn hexited
        have hbefore := barred_of_holding hreach hplace
        intro index
        rw [moveLoop_requests, moveLoop_shutdown]
        exact hbefore index
    | requested index turn hturn =>
        have hearlier : Exited agent := by
          obtain ⟨exit, hloop⟩ := hexited
          rw [moveRequest_loop] at hloop
          exact ⟨exit, hloop⟩
        intro other
        rw [moveRequest_shutdown]
        by_cases hsame : other = index
        · subst hsame
          rw [moveRequest_self]
          obtain ⟨houtside, hchecked⟩ := hbarred hearlier other
          exact requests_barred hturn houtside hchecked (hshut hreach hearlier)
        · rw [moveRequest_of_ne agent index turn hsame]
          exact hbarred hearlier other

/-! ## What can still happen -/

/-- No run is asked for, no ralphex spawned, and no request answered but by a refusal. -/
def Event.Harmless (event : Event) : Prop :=
  (∀ request, event ≠ .opening request) ∧ (∀ runId, event ≠ .ran runId .spawned) ∧
    ∀ index start, event = .answered index start → ∃ message, start = .refused message

/-- Nothing but harmless events after the end of the claim loop. -/
def Ending (before : List Event) (event : Event) : Prop :=
  (∃ exit, .exited exit ∈ before) → event.Harmless

/-- The slot stays free after the claim loop has returned. -/
theorem slot_of_exited (h : machine.Reachable agent) (hexited : Exited agent) (runId : RunId) :
    agent.slot ≠ .running runId := by
  intro hslot
  obtain ⟨party, -, htenant⟩ := tenant_of_slot h hslot
  cases party with
  | loop =>
      obtain ⟨exit, hloop⟩ := hexited
      have hnone : agent.loop.tenant = some runId := htenant
      rw [hloop] at hnone
      cases hnone
  | request index =>
      apply (barred_of_exited h hexited index).1
      have hsome : (agent.requests index).tenant = some runId := htenant
      cases hpc : agent.requests index with
      | tenancy | starting | freeing => trivial
      | _ => rw [hpc] at hsome; cases hsome

theorem harmless_of_own {event : Event} (hopening : ∀ request, event ≠ .opening request)
    (hran : ∀ runId inner, event ≠ .ran runId inner)
    (hanswered : ∀ index start, event ≠ .answered index start) : event.Harmless :=
  ⟨hopening, fun runId ↦ hran runId .spawned, fun index start hsame ↦
    absurd hsame (hanswered index start)⟩

/-- What a request outside does once the slot stays free is harmless. -/
theorem requests_harmless {index : ℕ} {pc : RequestPc} {turn : Turn RequestPc}
    (h : Requests agent index pc turn) (houtside : ¬ pc.Inside)
    (hslot : ∀ runId, agent.slot ≠ .running runId) : ∀ event ∈ turn.added, event.Harmless := by
  intro event hevent
  rcases Turn.added_cases hevent with ⟨slot, rfl⟩ | rfl | hown
  · exact harmless_of_own nofun nofun nofun
  · exact harmless_of_own nofun nofun nofun
  · cases h with
    | arrived =>
        rw [List.mem_singleton.mp hown]
        exact harmless_of_own nofun nofun nofun
    | busy _ _ runId _ hrunning | noticed _ runId hrunning => exact absurd hrunning (hslot runId)
    | asked | handed | spawned | tends => exact (houtside trivial).elim
    | dropped refusal =>
        obtain ⟨message, -, rfl⟩ := List.mem_map.mp hown
        refine ⟨nofun, nofun, fun index start hsame ↦ ?_⟩
        cases hsame
        exact ⟨message, rfl⟩
    | _ => cases hown

/-- A step of the claim loop ends it and is harmless, or adds no end. -/
theorem loops_ending {pc : LoopPc} {turn : Turn LoopPc} (h : Loops agent pc turn) :
    (∀ event ∈ turn.added, event.Harmless) ∨ ∀ exit, .exited exit ∉ turn.added := by
  by_cases hexits : ∃ exit, .exited exit ∈ turn.events
  · obtain ⟨exit, hexit⟩ := hexits
    left
    rw [(loops_exited h hexit).1]
    intro event hevent
    rcases List.mem_cons.mp hevent with rfl | hlast
    · exact harmless_of_own nofun nofun nofun
    · rw [List.mem_singleton.mp hlast]
      exact harmless_of_own nofun nofun nofun
  · right
    intro exit hevent
    exact hexits ⟨exit, Turn.mem_events hevent trivial⟩

theorem requests_unending {index : ℕ} {pc : RequestPc} {turn : Turn RequestPc}
    (h : Requests agent index pc turn) (exit : AgentExit) : .exited exit ∉ turn.added := by
  intro hevent
  exact requests_events h _ (Turn.mem_events hevent trivial)

/-- The end of the claim loop is on record only once it has returned. -/
theorem exited_of_mem (h : machine.Reachable agent) (hmem : ∃ exit, .exited exit ∈ agent.trace) :
    Exited agent := by
  revert hmem
  apply h.invariant fun agent ↦ (∃ exit, .exited exit ∈ agent.trace) → Exited agent
  · intro agent hinit hmem
    obtain ⟨config, tools, rfl⟩ := hinit
    obtain ⟨exit, hexit⟩ := hmem
    cases hexit
  · intro agent action next hexited _ hstep hmem
    obtain ⟨exit, hexit⟩ := hmem
    cases step_cases hstep with
    | hastened => exact hexited ⟨exit, by simpa [emit] using hexit⟩
    | attached => exact hexited ⟨exit, by simpa [emit] using hexit⟩
    | looped turn hturn =>
        rw [moveLoop_trace, List.mem_append] at hexit
        rcases hexit with hearlier | hadded
        · exact absurd hturn (hexited ⟨exit, hearlier⟩).still
        · exact ⟨exit, (loops_exited hturn (Turn.mem_events hadded trivial)).2⟩
    | requested index turn hturn =>
        rw [moveRequest_trace, List.mem_append] at hexit
        have hearlier := hexit.resolve_right (requests_unending hturn exit)
        obtain ⟨exit, hloop⟩ := hexited ⟨exit, hearlier⟩
        exact ⟨exit, by rw [moveRequest_loop, hloop]⟩

/-- Events of one step follow an end only where they are harmless. -/
theorem ending_of {trace events : List Event}
    (h : (∀ event ∈ events, event.Harmless) ∨
      (∀ exit, .exited exit ∉ trace) ∧ ∀ exit, .exited exit ∉ events) :
    Justified (fun earlier event ↦ Ending (trace ++ earlier) event) events := by
  rintro before event after rfl ⟨exit, hmem⟩
  rcases h with hharmless | ⟨htrace, hevents⟩
  · exact hharmless event (by simp)
  · rcases List.mem_append.mp hmem with hmem | hmem
    · exact absurd hmem (htrace exit)
    · exact absurd (List.mem_append_left _ hmem) (hevents exit)

/-- Behind the end of the claim loop there are harmless events alone. -/
theorem ending_of_reachable (h : machine.Reachable agent) : Justified Ending agent.trace := by
  apply h.invariant_of (fun agent ↦ machine.Reachable agent)
    (fun agent ↦ Justified Ending agent.trace) fun _ ↦ id
  · intro agent hinit
    obtain ⟨config, tools, rfl⟩ := hinit
    exact justified_nil
  · intro agent action next hreach hending _ hstep
    have hunless : Exited agent ∨ ∀ exit, .exited exit ∉ agent.trace := by
      by_cases hmem : ∃ exit, .exited exit ∈ agent.trace
      · exact .inl (exited_of_mem hreach hmem)
      · exact .inr fun exit hexit ↦ hmem ⟨exit, hexit⟩
    cases step_cases hstep with
    | hastened => exact hending.snoc fun _ ↦ harmless_of_own nofun nofun nofun
    | attached => exact hending.snoc fun _ ↦ harmless_of_own nofun nofun nofun
    | looped turn hturn =>
        rw [moveLoop_trace]
        apply hending.append
        apply ending_of
        rcases hunless with hexited | hnever
        · exact absurd hturn hexited.still
        · exact (loops_ending hturn).imp id fun hnot ↦ ⟨hnever, hnot⟩
    | requested index turn hturn =>
        rw [moveRequest_trace]
        apply hending.append
        apply ending_of
        rcases hunless with hexited | hnever
        · exact .inl (requests_harmless hturn (barred_of_exited hreach hexited index).1
            (slot_of_exited hreach hexited))
        · exact .inr ⟨hnever, requests_unending hturn⟩

/-- How many steps a request outside still has before it. -/
def RequestPc.rank : RequestPc → ℕ
  | .arrived _ => 7
  | .subscribing _ => 6
  | .selecting _ => 5
  | .queued _ => 4
  | .granted _ => 3
  | .checked _ => 2
  | .dropping _ | .backingOut => 1
  | _ => 0

theorem requests_rank {index : ℕ} {pc : RequestPc} {turn : Turn RequestPc}
    (h : Requests agent index pc turn) (hpresent : pc ≠ .absent) (houtside : ¬ pc.Inside) :
    turn.next.rank < pc.rank := by
  cases h with
  | arrived => exact absurd rfl hpresent
  | acquired _ _ hpc | busy _ _ _ hpc => rcases hpc with rfl | rfl <;> simp [RequestPc.rank]
  | held | asked | handed | failed | reported | entered | spawned | returned | tends | freed =>
      exact (houtside trivial).elim
  | _ => simp [Turn.silent, RequestPc.rank]

/-- A request outside that is not over can take a step, unless it waits for the permit. -/
theorem requests_step {index : ℕ} {pc : RequestPc} (hpresent : pc ≠ .absent)
    (houtside : ¬ pc.Inside) (hunfinished : pc ≠ .finished)
    (hqueued : ∀ request, pc = .queued request →
      agent.permits.holder = some (.request index)) :
    ∃ move turn, pc.step agent index move = some turn := by
  cases pc with
  | absent => exact absurd rfl hpresent
  | finished => exact absurd rfl hunfinished
  | arrived request =>
      by_cases hfree : agent.permits.holder = none
      · exact ⟨.tries, _, if_pos hfree⟩
      · exact ⟨.tries, _, if_neg hfree⟩
  | subscribing request =>
      refine ⟨.looks, ?_⟩
      simp only [RequestPc.step, RequestPc.sees]
      cases agent.slot <;> exact ⟨_, rfl⟩
  | selecting request =>
      by_cases hfree : agent.permits.holder = none
      · exact ⟨.enqueues, _, if_pos hfree⟩
      · exact ⟨.enqueues, _, if_neg hfree⟩
  | queued request => exact ⟨.wins, _, if_pos (hqueued request rfl)⟩
  | backingOut => exact ⟨.cancels, _, rfl⟩
  | granted request =>
      by_cases hexiting : agent.exiting = true
      · exact ⟨.checks, _, if_pos hexiting⟩
      · exact ⟨.checks, _, if_neg hexiting⟩
  | checked request =>
      by_cases hraised : agent.shutdown.raised = true
      · exact ⟨.checks, _, if_pos hraised⟩
      · exact ⟨.checks, _, if_neg hraised⟩
  | dropping refusal => exact ⟨.drops, _, rfl⟩
  | _ => exact (houtside trivial).elim

def RequestPc.Replied : RequestPc → Prop
  | .finished | .backingOut | .tenancy _ (.serving _) | .freeing _ none | .dropping none => True
  | _ => False

/-- A request that stands behind its answer has given it. -/
theorem requests_replied {index : ℕ} {pc : RequestPc} {turn : Turn RequestPc}
    (h : Requests agent index pc turn)
    (hpc : pc.Replied → ∃ start, .answered index start ∈ agent.trace)
    (hnext : turn.next.Replied) : ∃ start, .answered index start ∈ agent.trace ++ turn.added := by
  have hearlier (hreplied : pc.Replied) :
      ∃ start, .answered index start ∈ agent.trace ++ turn.added := by
    obtain ⟨start, hstart⟩ := hpc hreplied
    exact ⟨start, List.mem_append_left _ hstart⟩
  cases h with
  | busy | noticed | spawned => exact ⟨_, List.mem_append_right _ List.mem_cons_self⟩
  | cancelled | returned => exact hearlier trivial
  | freed tenant refusal =>
      cases refusal with
      | none => exact hearlier trivial
      | some message => exact hnext.elim
  | dropped refusal =>
      cases refusal with
      | none => exact hearlier trivial
      | some message =>
          refine ⟨.refused message, List.mem_append_right _ ?_⟩
          exact List.mem_cons_of_mem _ List.mem_cons_self
  | tends worktree stage turn htends =>
      cases htends with
      | ran => exact hearlier trivial
      | _ => exact hnext.elim
  | _ => exact hnext.elim

theorem requests_present {index : ℕ} {pc : RequestPc} {turn : Turn RequestPc}
    (h : Requests agent index pc turn) : turn.next ≠ .absent := by
  cases h <;> nofun

theorem requests_arrives {index other : ℕ} {pc : RequestPc} {turn : Turn RequestPc}
    (h : Requests agent index pc turn) (hevent : .arrived other ∈ turn.events) : other = index := by
  cases h with
  | arrived =>
      cases List.mem_singleton.mp hevent
      rfl
  | busy | noticed | asked | handed | spawned => cases List.mem_singleton.mp hevent
  | tends worktree stage turn htends => exact (tends_events htends _ hevent).elim
  | dropped refusal =>
      obtain ⟨message, -, hmessage⟩ := List.mem_map.mp hevent
      cases hmessage
  | _ => cases hevent

/-- The events agree with where the requests stand. -/
structure Followed (agent : Agent) : Prop where
  present : ∀ index, .arrived index ∈ agent.trace → agent.requests index ≠ .absent
  replied : ∀ index, (agent.requests index).Replied → ∃ start, .answered index start ∈ agent.trace

/-- What the events tell of the requests is where these stand. -/
theorem followed_of_reachable (h : machine.Reachable agent) : Followed agent := by
  apply h.invariant Followed
  · intro agent hinit
    obtain ⟨config, tools, rfl⟩ := hinit
    exact ⟨nofun, nofun⟩
  · intro agent action next hfollowed _ hstep
    obtain ⟨hpresent, hreplied⟩ := hfollowed
    have hlater {events : List Event} (index : ℕ) (h : (agent.requests index).Replied) :
        ∃ start, .answered index start ∈ agent.trace ++ events := by
      obtain ⟨start, hstart⟩ := hreplied index h
      exact ⟨start, List.mem_append_left _ hstart⟩
    cases step_cases hstep with
    | hastened =>
        exact ⟨fun index harrived ↦ hpresent index (by simpa [emit] using harrived), hlater⟩
    | attached =>
        exact ⟨fun index harrived ↦ hpresent index (by simpa [emit] using harrived), hlater⟩
    | looped turn hturn =>
        refine ⟨fun index harrived ↦ ?_, fun index hindex ↦ ?_⟩
        · rw [moveLoop_requests]
          rw [moveLoop_trace, List.mem_append] at harrived
          apply hpresent index
          apply harrived.resolve_right
          intro hadded
          exact loops_events hturn _ (Turn.mem_events hadded trivial)
        · rw [moveLoop_requests] at hindex
          rw [moveLoop_trace]
          exact hlater index hindex
    | requested index turn hturn =>
        refine ⟨fun other harrived ↦ ?_, fun other hother ↦ ?_⟩
        · by_cases hsame : other = index
          · rw [hsame, moveRequest_self]
            exact requests_present hturn
          · rw [moveRequest_of_ne agent index turn hsame]
            rw [moveRequest_trace, List.mem_append] at harrived
            apply hpresent other
            apply harrived.resolve_right
            intro hadded
            exact hsame (requests_arrives hturn (Turn.mem_events hadded trivial))
        · rw [moveRequest_trace]
          by_cases hsame : other = index
          · subst hsame
            rw [moveRequest_self] at hother
            exact requests_replied hturn (hreplied other) hother
          · rw [moveRequest_of_ne agent index turn hsame] at hother
            exact hlater other hother

/-- A step of a request that is outside brings it nearer to its end. -/
theorem rank_of_step {index : ℕ} {move : Move} (h : step agent (.request index move) = some next)
    (hpresent : agent.requests index ≠ .absent) (houtside : ¬ (agent.requests index).Inside) :
    (next.requests index).rank < (agent.requests index).rank := by
  obtain ⟨turn, hturn, rfl⟩ := Option.map_eq_some_iff.mp h
  rw [moveRequest_self]
  exact requests_rank (request_cases hturn) hpresent houtside

/-- While a request waits for the permit after the end of the claim loop, the request that holds it
can take a step. -/
theorem holder_steps (h : machine.Reachable agent) (hexited : Exited agent) {index : ℕ}
    {request : RunRequest} (hqueued : agent.requests index = .queued request) :
    ∃ other move turn, agent.requests other ≠ .absent ∧
      (agent.requests other).step agent other move = some turn := by
  have hline := mem_of_queued h hqueued
  obtain ⟨party, hholder⟩ : ∃ party, agent.permits.holder = some party := by
    apply Option.ne_none_iff_exists'.mp
    intro hnone
    rw [Semaphore.holder_eq_none_iff.mp hnone] at hline
    cases hline
  have hin : party ∈ agent.permits.line := Semaphore.mem_of_holder hholder
  cases party with
  | loop =>
      have hfits := loop_fits h
      obtain ⟨exit, hloop⟩ := hexited
      rw [hloop] at hfits
      exact absurd hin hfits
  | request other =>
      have hfits := request_fits h other
      have hinside {pc : RequestPc} (hpc : agent.requests other = pc)
          (hplace : pc.place = .outside) : False := by
        rw [hpc, hplace] at hfits
        exact hfits hin
      have hpresent : agent.requests other ≠ .absent := fun hpc ↦ hinside hpc rfl
      obtain ⟨move, turn, hturn⟩ := requests_step hpresent (barred_of_exited h hexited other).1
        (fun hpc ↦ hinside hpc rfl) fun _ _ ↦ hholder
      exact ⟨other, move, turn, hpresent, hturn⟩

/-- A request without an answer waits for no more than the steps of requests that can take one. -/
theorem unanswered_steps (h : machine.Reachable agent) (hexited : Exited agent) {index : ℕ}
    (harrived : .arrived index ∈ agent.trace)
    (hnone : ∀ start, .answered index start ∉ agent.trace) :
    ∃ other move turn, agent.requests other ≠ .absent ∧
      (agent.requests other).step agent other move = some turn := by
  have hfollowed := followed_of_reachable h
  have hpresent := hfollowed.present index harrived
  by_cases hqueued : ∃ request, agent.requests index = .queued request
  · obtain ⟨request, hpc⟩ := hqueued
    exact holder_steps h hexited hpc
  · have hunfinished : agent.requests index ≠ .finished := by
      intro hpc
      obtain ⟨start, hstart⟩ := hfollowed.replied index (by rw [hpc]; trivial)
      exact hnone start hstart
    obtain ⟨move, turn, hturn⟩ := requests_step hpresent (barred_of_exited h hexited index).1
      hunfinished fun request hpc ↦ absurd ⟨request, hpc⟩ hqueued
    exact ⟨index, move, turn, hpresent, hturn⟩

/-- Once the claim loop has returned no run is under way, no run is asked for and no ralphex is
spawned any more, and whatever a request is answered is a refusal.  Each request is answered: one
without an answer can take a step, or waits for one that can, and each step leaves the request that
took it fewer than the at most seven it had before it. -/
theorem nothing_starts_after_exit (h : machine.Reachable agent) :
    (∀ exit, agent.loop = .exited exit → ∀ party run, ¬ agent.InRun party run) ∧
    (∀ before exit after, agent.trace = before ++ .exited exit :: after → ∀ event ∈ after,
      (∀ request, event ≠ .opening request) ∧ (∀ runId, event ≠ .ran runId .spawned) ∧
        ∀ index start, event = .answered index start → ∃ message, start = .refused message) ∧
    (∀ exit index, agent.loop = .exited exit → .arrived index ∈ agent.trace →
      (∃ start, .answered index start ∈ agent.trace) ∨
        ∃ other move next, agent.requests other ≠ .absent ∧
          step agent (.request other move) = some next) ∧
    ∀ exit index move next, agent.loop = .exited exit → agent.requests index ≠ .absent →
      step agent (.request index move) = some next →
        (next.requests index).rank < (agent.requests index).rank := by
  refine ⟨?_, ?_, ?_, ?_⟩
  · intro exit hloop party run hrun
    obtain ⟨claim, hplace⟩ := holding_of_entered hrun.1
    cases party with
    | loop =>
        have hoffice : agent.loop.place = .holding claim := hplace
        rw [hloop] at hoffice
        cases hoffice
    | request index =>
        apply (barred_of_exited h ⟨exit, hloop⟩ index).1
        have hentered : (agent.requests index).entered = some run := hrun.1
        cases hpc : agent.requests index with
        | tenancy | starting => trivial
        | _ => rw [hpc] at hentered; cases hentered
  · intro before exit after hsplit event hevent
    obtain ⟨early, late, hafter⟩ := List.append_of_mem hevent
    have hsplit' : agent.trace = (before ++ .exited exit :: early) ++ event :: late := by
      rw [hsplit, hafter, List.append_assoc, List.cons_append]
    exact ending_of_reachable h _ event late hsplit' ⟨exit, by simp⟩
  · intro exit index hloop harrived
    by_cases hanswered : ∃ start, .answered index start ∈ agent.trace
    · exact .inl hanswered
    · obtain ⟨other, move, turn, hpresent, hturn⟩ := unanswered_steps h ⟨exit, hloop⟩ harrived
        fun start hstart ↦ hanswered ⟨start, hstart⟩
      refine .inr ⟨other, move, agent.moveRequest other turn, hpresent, ?_⟩
      rw [step, hturn]
      rfl
  · intro exit index move next hloop hpresent hstep
    exact rank_of_step hstep hpresent (barred_of_exited h ⟨exit, hloop⟩ index).1

/-- A claim meets another protocol version while a request waits for the permit, and the request is
served after the claim loop has returned. -/
def refusedAtExit : List Action :=
  [.loop .checks, .loop .enqueues, .loop .holds, .request 0 (.arrives localRequest),
    .request 0 .tries, .request 0 .looks, .request 0 .enqueues,
    .loop (.claims (.error (.versionMismatch ['v']))), .loop .stops, .loop .frees, .loop .drops,
    .request 0 .wins, .request 0 .checks, .request 0 .drops]

theorem nothing_starts_after_exit_refused :
    ∃ agent, machine.exec idleDaemon refusedAtExit = some agent ∧
      agent.loop = .exited (.versionMismatch ['v']) ∧ ∀ party run, ¬ agent.InRun party run := by
  have hloop : (machine.exec idleDaemon refusedAtExit).map (·.loop) =
      some (.exited (.versionMismatch ['v'])) := rfl
  obtain ⟨agent, hexec, hexited⟩ := Option.map_eq_some_iff.mp hloop
  exact ⟨agent, hexec, hexited, (nothing_starts_after_exit (reachable_of_exec hexec)).1 _ hexited⟩

end RalphexRunner.Agent
