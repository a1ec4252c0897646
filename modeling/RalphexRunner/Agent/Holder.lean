import RalphexRunner.Agent.Turns
import RalphexRunner.Semantics.Trace

/-!
# Who holds the run slot

The permit guards the slot and the current run.  What a party stored is a function of where it
stands while it holds the permit, and a party gives the permit back only with the slot free and no
run to attach to; so at every moment the slot says who holds it and for which run.
-/

namespace RalphexRunner.Agent

variable {agent next : Agent}

/-- What the permit guards: the slot and the run an attaching client is given. -/
abbrev View := RunSlot × Option RunHandle

def view (agent : Agent) : View := (agent.slot, agent.current)

/-- The slot holds this, and there is no run to attach to. -/
def Keeps (slot : RunSlot) (view : View) : Prop := view.1 = slot ∧ view.2 = none

/-- The run in the slot is the one to attach to. -/
def Serves (runId : RunId) (view : View) : Prop :=
  view.1 = .running runId ∧ ∃ current, view.2 = some current ∧ current.runId = runId

/-- There is no run to attach to; the slot may still name the one that was just left. -/
def Vacates (tenant : Option RunId) (view : View) : Prop :=
  view.2 = none ∧ ∀ runId, view.1 = .running runId → tenant = some runId

/-- What the holder of a job claims, where `before` was in the slot when the job arrived. -/
def Tenancy.claim (before : RunSlot) : Tenancy → View → Prop
  | .received _ | .overtaken _ | .reported _ | .accepted _ => Keeps before
  | .announced job => Keeps (.running job.runId)
  | .serving run => fun view ↦
      (¬ run.Left ∧ Serves run.setup.job.runId view) ∨
        (run.Left ∧ Keeps (.running run.setup.job.runId) view)

def LoopPc.place : LoopPc → Place View
  | .top | .acquiring | .pacing | .draining | .exited _ => .outside
  | .queued | .drainQueued => .queued
  | .polling | .dropping _ => .holding (Keeps .free)
  | .claimed => .holding (Keeps .polling)
  | .tenancy stage => .holding (stage.claim .polling)
  | .stopping tenant _ | .freeing tenant _ => .holding (Vacates tenant)

def RequestPc.place : RequestPc → Place View
  | .absent | .arrived _ | .subscribing _ | .selecting _ | .finished => .outside
  | .queued _ | .backingOut => .queued
  | .granted _ | .checked _ | .opening _ | .dropping _ => .holding (Keeps .free)
  | .titling _ | .asking _ => .holding (Keeps .opening)
  | .tenancy _ stage => .holding (stage.claim .opening)
  | .starting _ _ run => .holding fun view ↦ ¬ run.Left ∧ Serves run.setup.job.runId view
  | .freeing tenant _ => .holding (Vacates tenant)

/-- A step of a run changes the current run only when it leaves. -/
theorem serving_claim {before : RunSlot} {run after : Run} {action : Run.Action} {party : Party}
    (h : Run.step run action = some after)
    (hclaim : (Tenancy.serving run).claim before (view agent)) :
    (Tenancy.serving after).claim before (view (agent.apply party (departure action))) := by
  have hsetup := Run.step_setup h
  simp only [Tenancy.claim, hsetup] at hclaim ⊢
  by_cases haction : action = .leaves
  · subst haction
    obtain ⟨hbefore, hafter⟩ := Run.left_of_leaves h
    obtain ⟨-, hslot, -⟩ := hclaim.resolve_right fun hleft ↦ hbefore hleft.1
    exact .inr ⟨hafter, hslot, rfl⟩
  · have heffect : departure action = .nothing := by
      cases action <;> first | exact absurd rfl haction | rfl
    rw [heffect, Run.left_iff_of_step h haction]
    exact hclaim

/-- A store replaces the slot alone. -/
theorem keeps_hold (agent : Agent) {before : RunSlot} (slot : RunSlot)
    (h : Keeps before (view agent)) : Keeps slot (view (agent.hold slot)) :=
  ⟨rfl, h.2⟩

/-- What both parties do with a job keeps their claim. -/
theorem tends_claim {before : RunSlot} {stage : Tenancy} {turn : Turn Tenancy} {party : Party}
    (h : Tends agent stage turn) (hclaim : stage.claim before (view agent)) :
    turn.next.claim before (view (agent.takes party turn)) := by
  cases h with
  | overtaken job | accepted job | reported job => exact hclaim
  | announced job => exact keeps_hold agent (.running job.runId) hclaim
  | ran run after action hstep => exact serving_claim hstep hclaim

/-- What both parties do with a job is a change of what the permit guards. -/
theorem tends_moves {before : RunSlot} {stage : Tenancy} {turn : Turn Tenancy} {party : Party}
    (h : Tends agent stage turn) :
    Guards.Moves agent.permits party (Keeps .free) (view agent) (.holding (stage.claim before))
      (agent.takes party turn).permits (.holding (turn.next.claim before))
        (view (agent.takes party turn)) := by
  rw [tends_permits h]
  exact .write fun hclaim ↦ tends_claim h hclaim

/-- Entering a run makes it the one to attach to. -/
theorem entered_claim {job : Job} {worktree : Worktree} {output : Option Text}
    (hclaim : Keeps (.running job.runId) (view agent)) :
    ¬ (agent.serve job worktree output).Left ∧
      Serves job.runId (view { agent with current := some (agent.enter job.runId) }) := by
  refine ⟨fun hleft ↦ ?_, hclaim.1, _, rfl, rfl⟩
  obtain ⟨_, _, hleft⟩ := hleft
  cases hleft

/-- A run that was left is no longer the one to attach to. -/
theorem returned_claim {before : RunSlot} {run : Run} (hleft : run.Left)
    (hclaim : (Tenancy.serving run).claim before (view agent)) :
    Vacates (some run.setup.job.runId) (view agent) := by
  obtain ⟨-, hslot, hcurrent⟩ := hclaim.resolve_left fun hserves ↦ hserves.1 hleft
  refine ⟨hcurrent, fun runId hrunning ↦ ?_⟩
  rw [hslot] at hrunning
  cases hrunning
  rfl

/-- A slot that names no run is vacated by anybody. -/
theorem Keeps.vacates {slot : RunSlot} {view : View} (h : Keeps slot view)
    (hslot : ∀ runId, slot ≠ .running runId) (tenant : Option RunId) : Vacates tenant view :=
  ⟨h.2, fun runId hview ↦ absurd (h.1.symm.trans hview) (hslot runId)⟩

theorem Vacates.hold {tenant : Option RunId} (h : Vacates tenant (view agent)) :
    Keeps .free (view (agent.hold .free)) :=
  ⟨rfl, h.1⟩

/-- A step of the claim loop is one of a guard whose claim is on the slot. -/
theorem loop_moves {pc : LoopPc} {turn : Turn LoopPc} (h : Loops agent pc turn) :
    Guards.Moves agent.permits .loop (Keeps .free) (view agent) pc.place
      (agent.takes .loop turn).permits turn.next.place (view (agent.takes .loop turn)) := by
  cases h with
  | raised _ hpc => rcases hpc with rfl | rfl | rfl <;> exact .rest
  | goesOn | paced => exact .rest
  | acquired hfree => exact .acquire hfree id
  | queued | drainQueued => exact .enqueue
  | won hholder => exact .win hholder id
  | gaveUp => exact .cancel
  | polled => exact .write fun hclaim ↦ keeps_hold agent .polling hclaim
  | handed job => exact .write id
  | unclaimed | mismatched => exact .write fun hclaim ↦ Keeps.vacates hclaim nofun none
  | reported job => exact .write fun hclaim ↦ Keeps.vacates hclaim nofun _
  | entered job output => exact .write fun hclaim ↦ .inl (entered_claim hclaim)
  | returned run finished ended hpc =>
      cases houtcome : finished.outcome with
      | «continue» | versionMismatch =>
          rw [LoopPc.returns]
          exact .write fun hclaim ↦ returned_claim ⟨finished, ended, hpc⟩ hclaim
  | tends stage turn htends => exact tends_moves htends
  | stopped tenant message => exact .write id
  | freed tenant after => exact .write fun hclaim ↦ hclaim.hold
  | dropped after =>
      cases after <;> exact .drop id
  | drained hfree => exact .acquire hfree fun hclaim ↦ Keeps.vacates hclaim nofun none
  | drainWon hholder => exact .win hholder fun hclaim ↦ Keeps.vacates hclaim nofun none

/-- So is a step of a local request. -/
theorem request_moves {index : ℕ} {pc : RequestPc} {turn : Turn RequestPc}
    (h : Requests agent index pc turn) :
    Guards.Moves agent.permits (.request index) (Keeps .free) (view agent) pc.place
      (agent.takes (.request index) turn).permits turn.next.place
        (view (agent.takes (.request index) turn)) := by
  cases h with
  | arrived | missed | looked | noticed => exact .rest
  | busy _ request runId hpc => rcases hpc with rfl | rfl <;> exact .rest
  | acquired _ request hpc hfree => rcases hpc with rfl | rfl <;> exact .acquire hfree id
  | queued => exact .enqueue
  | won request hholder => exact .win hholder id
  | cancelled => exact .cancel
  | turnedAway | checked | refused | admitted | asked | handed => exact .write id
  | held => exact .write fun hclaim ↦ keeps_hold agent .opening hclaim
  | failed | reported => exact .write fun hclaim ↦ Keeps.vacates hclaim nofun _
  | entered worktree job output => exact .write fun hclaim ↦ entered_claim hclaim
  | spawned worktree current run => exact .write fun hclaim ↦ .inl hclaim
  | returned worktree run hleft => exact .write fun hclaim ↦ returned_claim hleft hclaim
  | tends worktree stage turn htends => exact tends_moves htends
  | freed => exact .write fun hclaim ↦ hclaim.hold
  | dropped => exact .drop id

/-- In every reachable state the slot and the current run are what the party with the permit says,
and the slot is free where nobody has it. -/
theorem slot_guarded (h : machine.Reachable agent) :
    Guards agent.permits (places LoopPc.place RequestPc.place agent) (Keeps .free)
      (view agent) := by
  apply guards_of_reachable view (Keeps .free)
  · intro config tools party
    cases party <;> rfl
  · exact fun config tools ↦ ⟨rfl, rfl⟩
  · exact fun agent hguards ↦ hguards
  · exact fun agent ↦ rfl
  · exact fun agent turn _ hturn ↦ loop_moves hturn
  · exact fun agent index turn _ hturn ↦ request_moves hturn
  · exact h

/-- The claim loop stands in the line where it says it does. -/
theorem loop_fits (h : machine.Reachable agent) : agent.loop.place.Fits agent.permits .loop :=
  (slot_guarded h).fits .loop

/-- A request stands in the line where it says it does. -/
theorem request_fits (h : machine.Reachable agent) (index : ℕ) :
    (agent.requests index).place.Fits agent.permits (.request index) :=
  (slot_guarded h).fits (.request index)

theorem mem_of_queued (h : machine.Reachable agent) {index : ℕ} {request : RunRequest}
    (hqueued : agent.requests index = .queued request) :
    .request index ∈ agent.permits.line := by
  have hfits := request_fits h index
  rwa [hqueued] at hfits

/-! ## Who serves which run -/

def Tenancy.runId : Tenancy → RunId
  | .received job | .overtaken job | .reported job | .accepted job | .announced job => job.runId
  | .serving run => run.setup.job.runId

def LoopPc.tenant : LoopPc → Option RunId
  | .tenancy stage => some stage.runId
  | .stopping tenant _ | .freeing tenant _ => tenant
  | _ => none

def RequestPc.tenant : RequestPc → Option RunId
  | .tenancy _ stage => some stage.runId
  | .starting _ _ run => some run.setup.job.runId
  | .freeing tenant _ => tenant
  | _ => none

/-- The run a party does its present work for. -/
def tenant (agent : Agent) : Party → Option RunId
  | .loop => agent.loop.tenant
  | .request index => (agent.requests index).tenant

def LoopPc.entered : LoopPc → Option Run
  | .tenancy (.serving run) => some run
  | _ => none

def RequestPc.entered : RequestPc → Option Run
  | .tenancy _ (.serving run) | .starting _ _ run => some run
  | _ => none

def entered (agent : Agent) : Party → Option Run
  | .loop => agent.loop.entered
  | .request index => (agent.requests index).entered

/-- The party is between `enter` and `leave`. -/
def InRun (agent : Agent) (party : Party) (run : Run) : Prop :=
  agent.entered party = some run ∧ ¬ run.Left

/-- What the slot names is the run of the party, and so is the run to attach to. -/
structure Names (tenant : Option RunId) (view : View) : Prop where
  slot : ∀ runId, view.1 = .running runId → tenant = some runId
  current : ∀ current, view.2 = some current → view.1 = .running current.runId

theorem Vacates.names {tenant : Option RunId} {view : View} (h : Vacates tenant view) :
    Names tenant view where
  slot := h.2
  current current hcurrent := by
    rw [h.1] at hcurrent
    cases hcurrent

theorem Serves.names {runId : RunId} {view : View} (h : Serves runId view) :
    Names (some runId) view := by
  obtain ⟨hslot, current, hcurrent, hsame⟩ := h
  refine ⟨fun other hother ↦ ?_, fun other hother ↦ ?_⟩
  · rw [hslot] at hother
    cases hother
    rfl
  · rw [hcurrent] at hother
    cases hother
    rw [hslot, hsame]

theorem Keeps.names {runId : RunId} {view : View} (h : Keeps (.running runId) view) :
    Names (some runId) view := by
  apply Vacates.names
  refine ⟨h.2, fun other hother ↦ ?_⟩
  rw [h.1] at hother
  cases hother
  rfl

theorem Tenancy.names {before : RunSlot} {stage : Tenancy} {view : View}
    (hbefore : ∀ runId, before ≠ .running runId) (h : stage.claim before view) :
    Names (some stage.runId) view := by
  cases stage with
  | received | overtaken | reported | accepted => exact (Keeps.vacates h hbefore _).names
  | announced => exact Keeps.names h
  | serving run =>
      rcases h with ⟨-, hserves⟩ | ⟨-, hkeeps⟩
      · exact hserves.names
      · exact hkeeps.names

theorem LoopPc.names {pc : LoopPc} {claim : View → Prop} {view : View}
    (hplace : pc.place = .holding claim) (hclaim : claim view) : Names pc.tenant view := by
  cases pc with
  | polling | claimed | dropping =>
      cases hplace
      exact (Keeps.vacates hclaim nofun none).names
  | tenancy stage =>
      cases hplace
      exact Tenancy.names (by nofun) hclaim
  | stopping tenant | freeing tenant =>
      cases hplace
      exact Vacates.names hclaim
  | _ => cases hplace

/-- What a request claims of the slot names the run it works for. -/
theorem RequestPc.names {pc : RequestPc} {claim : View → Prop} {view : View}
    (hplace : pc.place = .holding claim) (hclaim : claim view) : Names pc.tenant view := by
  cases pc with
  | granted | checked | opening | titling | asking | dropping =>
      cases hplace
      exact (Keeps.vacates hclaim nofun none).names
  | tenancy worktree stage =>
      cases hplace
      exact Tenancy.names (by nofun) hclaim
  | starting worktree current run =>
      cases hplace
      exact hclaim.2.names
  | freeing tenant =>
      cases hplace
      exact Vacates.names hclaim
  | _ => cases hplace

/-- Whoever holds the permit has its run in the slot, if there is one. -/
theorem names_of_holding {party : Party} {claim : View → Prop} {view : View}
    (hplace : places LoopPc.place RequestPc.place agent party = .holding claim)
    (hclaim : claim view) : Names (agent.tenant party) view := by
  cases party with
  | loop => exact LoopPc.names hplace hclaim
  | request index => exact RequestPc.names hplace hclaim

/-- A party in a run holds the permit. -/
theorem holding_of_entered {party : Party} {run : Run} (h : agent.entered party = some run) :
    ∃ claim, places LoopPc.place RequestPc.place agent party = .holding claim := by
  cases party with
  | loop =>
      have hentered : agent.loop.entered = some run := h
      cases hpc : agent.loop with
      | tenancy stage => exact ⟨_, congrArg LoopPc.place hpc⟩
      | _ => rw [hpc] at hentered; cases hentered
  | request index =>
      have hentered : (agent.requests index).entered = some run := h
      cases hpc : agent.requests index with
      | tenancy worktree stage => exact ⟨_, congrArg RequestPc.place hpc⟩
      | starting worktree current run => exact ⟨_, congrArg RequestPc.place hpc⟩
      | _ => rw [hpc] at hentered; cases hentered

/-- The party that holds the permit names the slot and the current run. -/
theorem holder_names (h : machine.Reachable agent) (hnot : ¬ Keeps .free (view agent)) :
    ∃ party, agent.permits.holder = some party ∧ Names (agent.tenant party) (view agent) := by
  have hguards := slot_guarded h
  by_contra hnone
  apply hnot
  apply hguards.idle
  intro party claim hplace
  exact hnone ⟨party, hguards.holder hplace,
    names_of_holding hplace (hguards.kept party claim hplace)⟩

/-- A run in the slot is the one the permit is held for. -/
theorem tenant_of_slot (h : machine.Reachable agent) {runId : RunId}
    (hslot : agent.slot = .running runId) :
    ∃ party, agent.permits.holder = some party ∧ agent.tenant party = some runId := by
  have hnot : ¬ Keeps .free (view agent) := fun hkeeps ↦
    absurd (hkeeps.1.symm.trans hslot) nofun
  obtain ⟨party, hholder, hnames⟩ := holder_names h hnot
  exact ⟨party, hholder, hnames.slot runId hslot⟩

/-- What an event leaves in the slot. -/
def stores (slot : RunSlot) : Event → RunSlot
  | .held stored => stored
  | _ => slot

/-- What the events so far left in the slot. -/
def lastHeld (trace : List Event) : RunSlot := trace.foldl stores .free

theorem lastHeld_append {trace events : List Event} (h : ∀ event ∈ events, event.Own) :
    lastHeld (trace ++ events) = lastHeld trace := by
  have hfold (slot : RunSlot) : events.foldl stores slot = slot := by
    induction events with
    | nil => rfl
    | cons event rest ih =>
        have hevent : stores slot event = slot := by
          have hown := h event List.mem_cons_self
          cases event <;> first | rfl | exact hown.elim
        rw [List.foldl_cons, hevent]
        exact ih fun other hother ↦ h other (List.mem_cons_of_mem event hother)
  rw [lastHeld, List.foldl_append, hfold]
  rfl

theorem lastHeld_takes {ρ : Type} {party : Party} {turn : Turn ρ}
    (hown : ∀ event ∈ turn.events, event.Own) (h : lastHeld agent.trace = agent.slot) :
    lastHeld (agent.takes party turn).trace = (agent.takes party turn).slot := by
  rw [takes_trace, Turn.added, ← List.append_assoc, lastHeld_append hown]
  cases heffect : turn.effect with
  | holds slot =>
      simp only [takes, heffect, apply]
      exact List.foldl_concat stores .free (.held slot) agent.trace
  | releases =>
      simp only [takes, heffect, apply]
      exact (List.foldl_concat stores .free .released agent.trace).trans h
  | _ =>
      simp only [takes, heffect, apply, Effect.events, List.append_nil]
      exact h

/-- A request is told it is busy by a run that is in the slot at that moment, after it arrived. -/
def Named (before : List Event) : Event → Prop
  | .answered index (.busy runId) => .arrived index ∈ before ∧ lastHeld before = .running runId
  | _ => True

theorem named_of_not_busy {before : List Event} {event : Event}
    (h : ∀ index runId, event ≠ .answered index (.busy runId)) : Named before event := by
  cases event with
  | answered index start =>
      cases start with
      | busy runId => exact absurd rfl (h index runId)
      | _ => trivial
  | _ => trivial

theorem loops_named {before : List Event} {pc : LoopPc} {turn : Turn LoopPc}
    (h : Loops agent pc turn) : ∀ event ∈ turn.added, Named before event := by
  intro event hevent
  apply named_of_not_busy
  intro index runId hbusy
  rw [hbusy] at hevent
  exact loops_events h _ (Turn.mem_events hevent trivial)

/-- A request that is answered busy is told whom the slot held. -/
theorem requests_named {index : ℕ} {pc : RequestPc} {turn : Turn RequestPc}
    (h : Requests agent index pc turn) (harrived : pc ≠ .absent → .arrived index ∈ agent.trace)
    (hslot : lastHeld agent.trace = agent.slot) :
    Justified (fun earlier event ↦ Named (agent.trace ++ earlier) event) turn.added := by
  by_cases hbusy : ∃ other runId, .answered other (.busy runId) ∈ turn.events
  · obtain ⟨other, runId, hevent⟩ := hbusy
    obtain ⟨rfl, hpresent, hanswer⟩ := requests_answered h hevent
    rcases hanswer with ⟨_, hsame, hrunning, hadded⟩ | ⟨_, _, _, hstarted, -⟩ | ⟨_, hrefused, -⟩
    · cases hsame
      rw [hadded]
      apply justified_singleton
      rw [List.append_nil]
      exact ⟨harrived hpresent, hslot.trans hrunning⟩
    · cases hstarted
    · cases hrefused
  · apply justified_of_forall
    intro event hevent before
    apply named_of_not_busy
    intro other runId hsame
    rw [hsame] at hevent
    exact hbusy ⟨other, runId, (Turn.mem_events hevent trivial)⟩

/-- Nobody is served who did not arrive. -/
theorem requests_arrived {index other : ℕ} {turn : Turn RequestPc}
    (h : Requests agent index (agent.requests index) turn)
    (harrived : ∀ index, agent.requests index ≠ .absent → .arrived index ∈ agent.trace)
    (hpresent : Function.update agent.requests index turn.next other ≠ .absent) :
    .arrived other ∈ agent.trace ++ turn.added := by
  by_cases hearlier : agent.requests other = .absent
  · have hsame : other = index := by
      by_contra hne
      rw [Function.update_of_ne hne] at hpresent
      exact hpresent hearlier
    subst hsame
    rw [hearlier] at h
    cases h with
    | arrived request => exact List.mem_append_right _ List.mem_cons_self
    | acquired _ _ hpc | busy _ _ _ hpc => rcases hpc with hpc | hpc <;> cases hpc
  · exact List.mem_append_left _ (harrived other hearlier)

/-- The events agree with the slot and with the requests, and no request is told it is busy without
reason. -/
structure Recorded (agent : Agent) : Prop where
  slot : lastHeld agent.trace = agent.slot
  arrived : ∀ index, agent.requests index ≠ .absent → .arrived index ∈ agent.trace
  named : Justified Named agent.trace

/-- The events record what is in the slot and who arrived. -/
theorem recorded_of_reachable (h : machine.Reachable agent) : Recorded agent := by
  apply h.invariant Recorded
  · intro agent hinit
    obtain ⟨config, tools, rfl⟩ := hinit
    exact ⟨rfl, fun index hpresent ↦ absurd rfl hpresent, justified_nil⟩
  · intro agent action next hrecorded _ hstep
    obtain ⟨hslot, harrived, hnamed⟩ := hrecorded
    cases step_cases hstep with
    | hastened =>
        refine ⟨(lastHeld_append (by simp [Event.Own])).trans hslot, fun index hpresent ↦ ?_,
          hnamed.snoc trivial⟩
        exact List.mem_append_left _ (harrived index hpresent)
    | attached =>
        refine ⟨(lastHeld_append (by simp [Event.Own])).trans hslot, fun index hpresent ↦ ?_,
          hnamed.snoc trivial⟩
        exact List.mem_append_left _ (harrived index hpresent)
    | looped turn hturn =>
        refine ⟨lastHeld_takes (loops_own hturn) hslot, fun index hpresent ↦ ?_, ?_⟩
        · rw [moveLoop_trace]
          rw [moveLoop_requests] at hpresent
          exact List.mem_append_left _ (harrived index hpresent)
        · rw [moveLoop_trace]
          exact hnamed.append
            (justified_of_forall fun event hevent _ ↦ loops_named hturn event hevent)
    | requested index turn hturn =>
        refine ⟨lastHeld_takes (requests_own hturn) hslot, fun other hpresent ↦ ?_, ?_⟩
        · rw [moveRequest_trace]
          rw [moveRequest_requests] at hpresent
          exact requests_arrived hturn harrived hpresent
        · rw [moveRequest_trace]
          exact hnamed.append (requests_named hturn (harrived index) hslot)

/-- At most one run is between its entry and its end; the slot names a run only while the permit is
held for it, is free when the permit is, and names the run to attach to; and a request is told it is
busy only by a run that was in the slot after the request arrived. -/
theorem single_run_slot (h : machine.Reachable agent) :
    (∀ party other run run', agent.InRun party run → agent.InRun other run' →
      party = other ∧ run = run') ∧
    (∀ runId, agent.slot = .running runId →
      ∃ party, agent.permits.holder = some party ∧ agent.tenant party = some runId) ∧
    (agent.slot ≠ .free → agent.permits.holder ≠ none) ∧
    (agent.permits.holder = none → agent.slot = .free ∧ agent.current = none) ∧
    (∀ current, agent.current = some current → agent.slot = .running current.runId) ∧
    ∀ before index runId after, agent.trace = before ++ .answered index (.busy runId) :: after →
      ∃ early late, before = early ++ late ∧ .arrived index ∈ early ∧
        lastHeld early = .running runId := by
  have hguards := slot_guarded h
  have hfree (hholder : agent.permits.holder = none) : Keeps .free (view agent) :=
    hguards.idle_of_free hholder
  refine ⟨?_, fun _ hslot ↦ tenant_of_slot h hslot, ?_, hfree, ?_, ?_⟩
  · intro party other run run' hrun hrun'
    obtain ⟨claim, hclaim⟩ := holding_of_entered hrun.1
    obtain ⟨claim', hclaim'⟩ := holding_of_entered hrun'.1
    have hsame : party = other := hguards.only hclaim hclaim'
    subst hsame
    exact ⟨rfl, Option.some.inj (hrun.1.symm.trans hrun'.1)⟩
  · exact fun hslot hholder ↦ hslot (hfree hholder).1
  · intro current hcurrent
    have hnot : ¬ Keeps .free (view agent) := fun hkeeps ↦
      absurd (hkeeps.2.symm.trans hcurrent) nofun
    obtain ⟨party, -, hnames⟩ := holder_names h hnot
    exact hnames.current current hcurrent
  · intro before index runId after hsplit
    obtain ⟨harrived, hslot⟩ := (recorded_of_reachable h).named before _ after hsplit
    exact ⟨before, [], (List.append_nil before).symm, harrived, hslot⟩

def idleDaemon : Agent := new ⟨['m'], ['f']⟩ ⟨['g'], ['h'], 60⟩

def localRequest : RunRequest := ⟨['c'], ['p'], ⟨['b']⟩, .no, .yes⟩

def localJob : Job where
  runId := ⟨['r']⟩
  identifier := []
  issueUrl := []
  title := ['t']
  planPath := ['p']
  branch := ⟨['b']⟩
  mode := []
  runtime := runtimeName
  ctx := ['c']
  createPr := .no

/-- A local request takes the free slot and starts its run. -/
def startsLocal (index : ℕ) : List Action :=
  [.request index (.arrives localRequest), .request index .tries, .request index .checks,
    .request index .checks, .request index .holds, .request index (.titles none),
    .request index (.opens (.ok localJob)), .request index .checks,
    .request index .holds, .request index (.enters none), .request index .spawns]

/-- A second request finds the first one's run in the slot. -/
def findsBusy : List Action :=
  startsLocal 0 ++ [.request 1 (.arrives localRequest), .request 1 .tries, .request 1 .looks]

theorem reachable_of_exec {actions : List Action}
    (h : machine.exec idleDaemon actions = some agent) : machine.Reachable agent :=
  Machine.Reachable.exec (.init ⟨_, _, rfl⟩) h

theorem single_run_slot_busy : ∃ agent, machine.exec idleDaemon findsBusy = some agent ∧
    ∃ party, agent.permits.holder = some party ∧ agent.tenant party = some ⟨['r']⟩ := by
  have hslot : (machine.exec idleDaemon findsBusy).map (·.slot) = some (.running ⟨['r']⟩) := rfl
  obtain ⟨agent, hexec, hrunning⟩ := Option.map_eq_some_iff.mp hslot
  exact ⟨agent, hexec, (single_run_slot (reachable_of_exec hexec)).2.1 _ hrunning⟩

end RalphexRunner.Agent
