import RalphexRunner.Progress.Effects

/-!
# No request for a snapshot is lost

The invariant is read off what a step does, and so is the progress of a request that is pending: a
rank no step raises, which the posting task or whoever still has to notify it can always lower.
-/

namespace RalphexRunner

namespace Wakeups

variable {watch : PlanWatch} {state next : Wakeups} {action : Action} {party : Option Signal.Party}

/-- The loop runs and will request a snapshot once the plan has been quiet. -/
def Debouncing (state : Wakeups) : Prop :=
  ∃ follower, state.follower = some follower ∧ follower.deadline.isSome

/-- The signal is sound and is waited for by nobody but the posting task, a phase no snapshot was
begun of is being brought to one, and so is a change of the plan as long as the loop runs. -/
structure Inv (state : Wakeups) : Prop where
  sound : state.signal.Sound
  present : state.signal.consumer = .away ↔ state.poster ≠ .requested
  phase : state.phase ≠ state.begun → state.signal.raised = true ∨ state.poster = .taken
  deadline : state.planned = true → state.Debouncing ∨ state.follower = none

theorem inv_start (watches : Option Watches) : (start watches).Inv where
  sound := Signal.sound_new
  present := iff_of_true rfl nofun
  phase hne := absurd rfl hne
  deadline := nofun

/-- Nothing but a step of its own happens to the signal. -/
theorem Effect.signal (h : Effect state next party) :
    next.signal = state.signal ∨ ∃ act, state.signal.step act = some next.signal := by
  cases h with
  | rests hsignal | hands hsignal | begins hsignal => exact .inl hsignal
  | raises hsignal => exact .inr ⟨.raises, congrArg some hsignal.symm⟩
  | signals act _ _ _ hsignal => exact .inr ⟨act, hsignal⟩
  | awaits hsignal => exact .inr ⟨.enters, hsignal⟩
  | takes _ _ hsignal => exact .inr ⟨.checks, hsignal⟩

theorem Effect.sound (h : Effect state next party) (hsound : state.signal.Sound) :
    next.signal.Sound := by
  rcases h.signal with hsame | ⟨act, hstep⟩
  · exact hsame ▸ hsound
  · exact Signal.sound_step hsound hstep

theorem Effect.made_le (h : Effect state next party) : state.signal.made ≤ next.signal.made := by
  rcases h.signal with hsame | ⟨act, hstep⟩
  · exact Nat.le_of_eq (congrArg Signal.made hsame.symm)
  · exact Signal.made_le_step hstep

/-- The consumer is away exactly while the poster is past its wait. -/
theorem Effect.present (h : Effect state next party)
    (hpresent : state.signal.consumer = .away ↔ state.poster ≠ .requested) :
    next.signal.consumer = .away ↔ next.poster ≠ .requested := by
  cases h with
  | rests hsignal hposter => rw [hsignal, hposter, hpresent]
  | raises hsignal hposter => rw [hsignal, hposter, ← hpresent]; rfl
  | signals act hraises henters hchecks hsignal hposter =>
      rw [(Signal.step_frame hraises henters hchecks hsignal).2.2, hposter, hpresent]
  | awaits hsignal _ _ hposter =>
      rw [(Signal.enters_eq_some hsignal).2, hposter]
      simp
  | hands hsignal hhands =>
      obtain ⟨hfrom, -, hto, -⟩ := Posting.hands_eq_some hhands
      rw [hsignal, hpresent, iff_true_intro hfrom, iff_true_intro hto]
  | takes _ hraised hsignal hposter =>
      rw [Signal.checks_raised hraised hsignal, hposter]
      simp
  | begins hsignal hposter hto =>
      rw [hsignal, hpresent, hposter, hto]
      exact iff_of_true nofun nofun

/-- A phase no snapshot was begun of is requested with, and the request turns into a snapshot. -/
theorem Effect.phase (h : Effect state next party)
    (hphase : state.phase ≠ state.begun → state.signal.raised = true ∨ state.poster = .taken)
    (hne : next.phase ≠ next.begun) : next.signal.raised = true ∨ next.poster = .taken := by
  cases h with
  | rests hsignal hposter hsame hbegun =>
      rw [hsame, hbegun] at hne
      rw [hsignal, hposter]
      exact hphase hne
  | raises hsignal => exact .inl (by rw [hsignal]; rfl)
  | signals act hraises henters hchecks hsignal hposter hsame hbegun =>
      rw [hsame, hbegun] at hne
      rw [(Signal.step_frame hraises henters hchecks hsignal).1, hposter]
      exact hphase hne
  | awaits hsignal _ htaken _ hsame hbegun =>
      rw [hsame, hbegun] at hne
      rw [(Signal.enters_eq_some hsignal).2]
      exact .inl ((hphase hne).resolve_right htaken)
  | hands hsignal hhands hsame hbegun =>
      rw [hsame, hbegun] at hne
      rw [hsignal]
      exact .inl ((hphase hne).resolve_right (Posting.hands_eq_some hhands).2.1)
  | takes _ _ _ hposter => exact .inr hposter
  | begins _ _ _ hsame hbegun => exact absurd (hsame.trans hbegun.symm) hne

/-- An event that names the plan leaves a deadline. -/
theorem Followed.deadline (h : Followed state next action)
    (hdeadline : state.planned = true → state.Debouncing ∨ state.follower = none)
    (hplanned : next.planned = true) : next.Debouncing ∨ next.follower = none := by
  cases h with
  | rests hfollower hsame =>
      rw [Debouncing, hfollower]
      exact hdeadline (hsame ▸ hplanned)
  | moves hbefore hafter hsame hplan =>
      rcases hdeadline (hplan ▸ hplanned) with ⟨follower, hfollower, hset⟩ | hnone
      · cases hbefore.symm.trans hfollower
        exact .inl ⟨_, hafter, hsame ▸ hset⟩
      · cases hbefore.symm.trans hnone
  | named hafter hset => exact .inl ⟨_, hafter, hset⟩
  | quiets _ hplan => cases hplan.symm.trans hplanned
  | closes hnone | fails hnone => exact .inr hnone

theorem inv_step (h : state.Inv) (hstep : step watch state action = some next) : next.Inv where
  sound := (step_effect hstep).sound h.sound
  present := (step_effect hstep).present h.present
  phase := (step_effect hstep).phase h.phase
  deadline := (step_followed hstep).deadline h.deadline

theorem inv_reachable (h : (machine watch).Reachable state) : state.Inv := by
  refine h.invariant Inv (fun state hinit ↦ ?_) fun _ _ _ ih _ hstep ↦ inv_step ih hstep
  obtain ⟨watches, rfl⟩ := hinit
  exact inv_start watches

/-- More than the steps to the taking of a request that is pending. -/
def rank (state : Wakeups) : ℕ := state.poster.cost + state.signal.distance

/-- A step takes the request or leaves it pending.  Then it lowers the rank, or it changes neither
the rank nor whom the request waits for and is not by that party. -/
theorem Effect.nears (h : Effect state next party)
    (hraised : state.signal.raised = true) :
    next.signal.taken = state.signal.made ∨ next.signal.raised = true ∧
      (next.rank < state.rank ∨ next.rank = state.rank ∧
        next.signal.helper = state.signal.helper ∧ party ≠ some state.signal.helper) := by
  cases h with
  | rests hsignal hposter =>
      rw [rank, rank, hsignal, hposter]
      exact .inr ⟨hraised, .inr ⟨rfl, rfl, nofun⟩⟩
  | raises hsignal hposter =>
      rw [rank, rank, hsignal, hposter]
      exact .inr ⟨rfl, .inr ⟨rfl, rfl, nofun⟩⟩
  | signals act _ henters _ hsignal hposter =>
      rw [rank, rank, hposter]
      rcases Signal.distance_step hraised henters hsignal with htaken | ⟨hstill, hless | hkept⟩
      · exact .inl htaken
      · exact .inr ⟨hstill, .inl (Nat.add_lt_add_left hless _)⟩
      · exact .inr ⟨hstill, .inr ⟨congrArg _ hkept.1, hkept.2⟩⟩
  | awaits hsignal hrequested htaken hposter =>
      obtain ⟨haway, hafter⟩ := Signal.enters_eq_some hsignal
      have hnext : next.rank = 2 := by
        simp only [rank, hposter, hafter, Posting.cost, Signal.distance]
      refine .inr ⟨by rw [hafter]; exact hraised, .inl ?_⟩
      rw [hnext, rank]
      exact Nat.lt_of_lt_of_le (Posting.le_cost hrequested htaken) (Nat.le_add_right _ _)
  | hands hsignal hhands =>
      rw [rank, rank, hsignal]
      exact .inr ⟨hraised, .inl (Nat.add_lt_add_right (Posting.hands_eq_some hhands).2.2.2 _)⟩
  | takes _ _ hsignal =>
      rw [Signal.checks_raised hraised hsignal]
      exact .inl rfl
  | begins hsignal hposter hto =>
      rw [rank, rank, hsignal, hposter, hto]
      exact .inr ⟨hraised, .inl (Nat.add_lt_add_right (Nat.lt_succ_self 4) _)⟩

/-- Whoever still has to notify can. -/
theorem exists_notifies (howing : 0 < state.signal.owing) :
    ∃ action next, Action.party action = some .producers ∧
      step watch state action = some next := by
  obtain ⟨signal, hsignal⟩ : ∃ signal, state.signal.notifies = some signal :=
    ⟨_, if_neg (Nat.pos_iff_ne_zero.mp howing)⟩
  by_cases hless : state.loopOwes < state.signal.owing
  · refine ⟨.notifies, { state with signal }, rfl, ?_⟩
    rw [step, notifies, if_pos hless, hsignal, Option.map_some]
  · have hloop : state.loopOwes ≠ 0 := fun hzero ↦ hless (hzero ▸ howing)
    unfold loopOwes at hloop
    split at hloop
    · rename_i watches deadline hfollower
      refine ⟨.signals, { state with signal, follower := some ⟨.selecting, watches, deadline⟩ },
        rfl, ?_⟩
      rw [step, signals, hfollower]
      dsimp only
      rw [hsignal, Option.map_some]
    · exact absurd rfl hloop

/-- The posting task is never stuck. -/
theorem exists_posts (h : state.Inv) :
    ∃ action next, Action.party action = some .consumer ∧ step watch state action = some next := by
  have hawaits : state.poster ≠ .requested → ∃ next, state.awaits = some next := by
    intro hposter
    have haway := h.present.mpr hposter
    exact ⟨_, congrArg (Option.map _) (if_pos haway)⟩
  cases hposter : state.poster with
  | opening stage =>
      obtain ⟨next, hnext⟩ := hawaits (by simp [hposter])
      exact ⟨.elapses, next, rfl, by rw [step, elapses, hposter]; exact hnext⟩
  | requested =>
      have hconsumer : state.signal.consumer ≠ .away := fun haway ↦ h.present.mp haway hposter
      rcases Signal.consumer_enabled hconsumer with
        ⟨signal, hsignal⟩ | ⟨signal, hsignal⟩ | ⟨signal, hsignal⟩
      · exact ⟨.prepares, { state with signal }, rfl, by
          rw [step, prepares, if_pos hposter, hsignal, Option.map_some]⟩
      · exact ⟨.checks, _, rfl, by rw [step, checks, if_pos hposter, hsignal, Option.map_some]⟩
      · exact ⟨.polls, { state with signal }, rfl, by
          rw [step, polls, if_pos hposter, hsignal, Option.map_some]⟩
  | taken => exact ⟨.begins, _, rfl, by rw [step, begins, hposter]⟩
  | posting snapshot stage =>
      cases stage with
      | reading => exact ⟨.reads, _, rfl, by rw [step, reads, hposter]; rfl⟩
      | handed =>
          obtain ⟨next, hnext⟩ := hawaits (by simp [hposter])
          exact ⟨.answered, next, rfl, by rw [step, answered, hposter]; exact hnext⟩

/-- A request is pending, and what was made before is among what was. -/
structure Pending (wanted : ℕ) (state : Wakeups) : Prop where
  inv : state.Inv
  raised : state.signal.raised = true
  made : wanted ≤ state.signal.made

theorem exists_helps {wanted : ℕ} (h : Pending wanted state) :
    ∃ action next, Action.party action = some state.signal.helper ∧
      step watch state action = some next := by
  cases hhelper : state.signal.helper with
  | producers => exact exists_notifies (Signal.owing_of_helper h.inv.sound h.raised hhelper)
  | consumer => exact exists_posts h.inv

theorem Pending.nears {wanted : ℕ} (h : Pending wanted state)
    (hstep : step watch state action = some next) :
    Machine.Endless.Nears (fun party action ↦ Action.party action = some party) (Pending wanted)
      (fun state ↦ wanted ≤ state.signal.taken) rank (fun state ↦ state.signal.helper)
      state action next := by
  have heffect := step_effect hstep
  rcases heffect.nears h.raised with htaken | ⟨hraised, hrank⟩
  · exact .inl (Nat.le_trans h.made (Nat.le_of_eq htaken.symm))
  · exact .inr ⟨⟨inv_step h.inv hstep, hraised, Nat.le_trans h.made heffect.made_le⟩, hrank⟩

/-- Every request made is taken once nobody is held up for ever. -/
theorem Inv.served (h : state.Inv) (run : (machine watch).Endless) (hstart : run.state 0 = state)
    (hfair : ∀ party, run.Fair fun action ↦ action.party = some party) :
    ∃ later, state.signal.made ≤ (run.state later).signal.taken := by
  by_cases hraised : state.signal.raised = true
  · have hpending : Pending state.signal.made (run.state 0) :=
      hstart.symm ▸ ⟨h, hraised, Nat.le_refl _⟩
    obtain ⟨later, -, htaken⟩ := Machine.Endless.eventually hfair (fun _ ↦ exists_helps)
      (fun _ _ _ hheld hstep ↦ Pending.nears hheld hstep) hpending
    exact ⟨later, htaken⟩
  · refine ⟨0, hstart.symm ▸ ?_⟩
    exact Nat.le_of_not_lt fun hless ↦ hraised (h.sound.ledger.mpr hless)

/-- Some run holds nobody up: the two parties take turns. -/
theorem exists_fair (state : Wakeups) : ∃ run : (machine watch).Endless, run.state 0 = state ∧
    ∀ party, run.Fair fun action ↦ action.party = some party := by
  let turn (time : ℕ) : Signal.Party := if time % 2 = 0 then .producers else .consumer
  have hturn : ∀ party time, ∃ later ≥ time, turn later = party := by
    intro party time
    cases party with
    | producers => exact ⟨2 * time, by omega, if_pos (by omega)⟩
    | consumer => exact ⟨2 * time + 1, by omega, if_neg (by omega)⟩
  exact Machine.Endless.exists_fair (fun party action ↦ Action.party action = some party) hturn
    (fun state ↦ ⟨.passes 0, _, rfl⟩) state

/-- Nothing asked of the posting task is lost in a state of a watcher that is not stopped. -/
structure Kept (watch : PlanWatch) (state : Wakeups) : Prop where
  /-- A phase that is not the last snapshot's is requested or about to be read. -/
  phase : state.phase ≠ state.begun → state.signal.raised = true ∨ state.poster = .taken
  /-- The posting task does not sleep on a request, unless somebody still has to notify it. -/
  awake : state.signal.raised = true → state.poster = .requested → state.signal.Asleep →
    0 < state.signal.owing
  /-- A request is pending exactly where one of those made was not taken. -/
  ledger : state.signal.raised = true ↔ state.signal.taken < state.signal.made
  /-- Requests only go by being taken, and all that were made are taken together. -/
  takes : ∀ action next, step watch state action = some next →
    next.signal.taken = state.signal.taken ∨ state.poster = .requested ∧
      state.signal.raised = true ∧ next.poster = .taken ∧ next.signal.taken = state.signal.made
  /-- In an endless run that holds nobody up, every request made by now is taken. -/
  served : ∀ run : (machine watch).Endless, run.state 0 = state →
    (∀ party, run.Fair fun action ↦ action.party = some party) →
      ∃ later, state.signal.made ≤ (run.state later).signal.taken
  /-- There is such a run. -/
  fair : ∃ run : (machine watch).Endless, run.state 0 = state ∧
    ∀ party, run.Fair fun action ↦ action.party = some party
  /-- A change of the plan is requested after a quiet time, as long as the loop runs. -/
  deadline : state.planned = true → state.Debouncing ∨ state.follower = none
  /-- The loop ends only where no event can come any more or a try to attach has failed. -/
  ends : ∀ action next, step watch state action = some next → state.follower ≠ none →
    next.follower = none → action = .receives .closed ∨ action = .reattaches none

theorem Followed.ends (h : Followed state next action) (hruns : state.follower ≠ none)
    (hnone : next.follower = none) : action = .receives .closed ∨ action = .reattaches none := by
  cases h with
  | rests hfollower => exact absurd (hfollower.symm.trans hnone) hruns
  | moves _ hafter | named hafter | quiets hafter => cases hafter.symm.trans hnone
  | closes => exact .inl rfl
  | fails => exact .inr rfl

theorem Inv.awake (h : state.Inv) (hraised : state.signal.raised = true)
    (hasleep : state.signal.Asleep) : 0 < state.signal.owing := by
  refine (h.sound.awake hraised hasleep.1).resolve_left fun hready ↦ ?_
  rcases hready with hnotified | ⟨habsent, -⟩
  · cases hasleep.2.symm.trans hnotified
  · cases hasleep.2.symm.trans habsent

theorem Effect.takes_all (h : Effect state next party) :
    next.signal.taken = state.signal.taken ∨ state.poster = .requested ∧
      state.signal.raised = true ∧ next.poster = .taken ∧
      next.signal.taken = state.signal.made := by
  cases h with
  | rests hsignal | hands hsignal | begins hsignal => exact .inl (congrArg Signal.taken hsignal)
  | raises hsignal => exact .inl (by rw [hsignal]; rfl)
  | signals act hraises henters hchecks hsignal =>
      exact .inl (Signal.step_frame hraises henters hchecks hsignal).2.1
  | awaits hsignal => exact .inl (by rw [(Signal.enters_eq_some hsignal).2])
  | takes hposter hraised hsignal hto =>
      exact .inr ⟨hposter, hraised, hto, by rw [Signal.checks_raised hraised hsignal]⟩

/-- In every state of every interleaving: nothing asked of the posting task is lost. -/
theorem nothing_lost (h : (machine watch).Reachable state) : Kept watch state := by
  have hinv := inv_reachable h
  exact {
    phase := hinv.phase
    awake := fun hraised _ hasleep ↦ hinv.awake hraised hasleep
    ledger := hinv.sound.ledger
    takes := fun _ _ hstep ↦ (step_effect hstep).takes_all
    served := hinv.served
    fair := exists_fair state
    deadline := hinv.deadline
    ends := fun _ _ hstep ↦ (step_followed hstep).ends }

/-- The opening snapshot ran out of time and the task fell asleep; then a task iteration began, and
nobody has notified the task yet. -/
theorem nothing_lost_asleep : ∃ state : Wakeups, state.signal.raised = true ∧
    state.signal.Asleep ∧ Kept ⟨Utf8.encode "plan.md".toList, 500⟩ state := by
  have hexec : (machine ⟨Utf8.encode "plan.md".toList, 500⟩).exec
      (start (some ⟨.attached, .attached⟩))
      [.elapses, .prepares, .checks, .polls, .observes "--- task iteration 1 ---".toList] =
        some _ := rfl
  exact ⟨_, rfl, ⟨rfl, rfl⟩, nothing_lost (Machine.Reachable.exec (.init ⟨_, rfl⟩) hexec)⟩

/-- A plan that changed is forgotten where attaching its directory fails. -/
theorem change_forgotten : ¬ ∀ (watch : PlanWatch) (state : Wakeups),
    (machine watch).Reachable state → state.planned = true → state.Debouncing := by
  intro hdebouncing
  have hexec : (machine ⟨Utf8.encode "plan.md".toList, 500⟩).exec
      (start (some ⟨.detached, .detached⟩))
      [.receives (.event ⟨.create, [some (Utf8.encode "plan.md".toList)]⟩), .reattaches none] =
        some _ := rfl
  obtain ⟨follower, hfollower, -⟩ := hdebouncing _ _
    (Machine.Reachable.exec (.init ⟨_, rfl⟩) hexec) rfl
  cases hfollower

end Wakeups

end RalphexRunner
