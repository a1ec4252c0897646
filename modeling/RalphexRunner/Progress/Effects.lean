import Mathlib.Logic.Relation
import RalphexRunner.Progress.Wakeups

/-!
# What a step does between a request and its post

`Effect` says once what a step does to the signal and the posting task, `Followed` what it does to
the loop that follows the events.  Seen without the wait of the posting task, every step is one of
the watcher of a run.
-/

namespace RalphexRunner

/-- More than the steps from the end of the post the task is at to the taking of a request. -/
def Posting.cost : Posting → ℕ
  | .requested => 0
  | .opening .handed | .posting _ .handed => 3
  | .opening .reading | .posting _ .reading => 4
  | .taken => 5

namespace Posting

theorem le_cost {poster : Posting} (hrequested : poster ≠ .requested) (htaken : poster ≠ .taken) :
    3 ≤ poster.cost := by
  cases poster with
  | requested => exact absurd rfl hrequested
  | taken => exact absurd rfl htaken
  | opening stage => cases stage <;> decide
  | posting snapshot stage =>
      cases stage with
      | reading => exact Nat.le_succ 3
      | handed => exact Nat.le_refl 3

/-- Only a post that is being read is handed to the sender, and it is one step further then. -/
theorem hands_eq_some {poster after : Posting} (h : poster.hands = some after) :
    poster ≠ .requested ∧ poster ≠ .taken ∧ after ≠ .requested ∧ after.cost < poster.cost := by
  cases poster with
  | requested | taken => cases h
  | opening stage | posting _ stage =>
      cases stage with
      | handed => cases h
      | reading =>
          cases h
          exact ⟨nofun, nofun, nofun, Nat.lt_succ_self 3⟩

/-- Where the posting task stands for one who does not see how far its wait has got. -/
def shown : Posting → Poster
  | .opening stage => .opening stage
  | .requested => .checking
  | .taken => .taken
  | .posting snapshot stage => .posting snapshot stage

end Posting

namespace Wakeups

variable {watch : PlanWatch} {state next : Wakeups} {action : Action} {party : Option Signal.Party}

/-- What a step does to the phases, the signal and the posting task, and whose it is. -/
inductive Effect (state next : Wakeups) : Option Signal.Party → Prop
  | rests : next.signal = state.signal → next.poster = state.poster →
      next.phase = state.phase → next.begun = state.begun → Effect state next none
  | raises : next.signal = state.signal.raises → next.poster = state.poster →
      next.begun = state.begun →
      next.phase = state.phase ∨ (∃ line, next = state.observes line) → Effect state next none
  | signals (act : Signal.Action) : act ≠ .raises → act ≠ .enters →
      (act = .checks → state.signal.raised = false) →
      state.signal.step act = some next.signal → next.poster = state.poster →
      next.phase = state.phase → next.begun = state.begun → Effect state next act.party
  | awaits : state.signal.enters = some next.signal → state.poster ≠ .requested →
      state.poster ≠ .taken → next.poster = .requested → next.phase = state.phase →
      next.begun = state.begun → Effect state next (some .consumer)
  | hands : next.signal = state.signal → state.poster.hands = some next.poster →
      next.phase = state.phase → next.begun = state.begun → Effect state next (some .consumer)
  | takes : state.poster = .requested → state.signal.raised = true →
      state.signal.checks = some next.signal → next.poster = .taken →
      next.phase = state.phase → next.begun = state.begun → Effect state next (some .consumer)
  | begins : next.signal = state.signal → state.poster = .taken →
      next.poster = .posting ⟨state.phase, .running⟩ .reading → next.phase = state.phase →
      next.begun = state.phase → Effect state next (some .consumer)

theorem observes_effect (line : Text) : Effect state (state.observes line) none := by
  cases hmoved : (marker line).bind (moved state.phase) with
  | none =>
      rw [observes, hmoved]
      exact .rests rfl rfl rfl rfl
  | some phase =>
      have hraises : (state.observes line).signal = state.signal.raises := by rw [observes, hmoved]
      exact .raises hraises (by rw [observes, hmoved]) (by rw [observes, hmoved]) (.inr ⟨line, rfl⟩)

/-- A post is over in one of three ways, and the next request is waited for. -/
theorem awaits_of_step (h : step watch state action = some next)
    (haction : action = .fails ∨ action = .answered ∨ action = .elapses) :
    state.poster ≠ .requested ∧ state.poster ≠ .taken ∧ state.awaits = some next := by
  rcases haction with rfl | rfl | rfl
  · simp only [step, fails] at h
    split at h
    · rename_i hposter
      exact ⟨by rw [hposter]; nofun, by rw [hposter]; nofun, h⟩
    · rename_i hposter
      exact ⟨by rw [hposter]; nofun, by rw [hposter]; nofun, h⟩
    · cases h
  · simp only [step, answered] at h
    split at h
    · rename_i hposter
      exact ⟨by rw [hposter]; nofun, by rw [hposter]; nofun, h⟩
    · rename_i hposter
      exact ⟨by rw [hposter]; nofun, by rw [hposter]; nofun, h⟩
    · cases h
  · simp only [step, elapses] at h
    split at h
    · rename_i hposter
      exact ⟨by rw [hposter]; nofun, by rw [hposter]; nofun, h⟩
    · cases h

/-- The one function of the posting task that moves the flag: a raised flag is taken, and any other
sends the task to sleep. -/
theorem checks_effect (h : state.checks = some next) : Effect state next (some .consumer) := by
  unfold checks at h
  split at h
  · rename_i hrequested
    obtain ⟨signal, hsignal, rfl⟩ := Option.map_eq_some_iff.mp h
    by_cases hraised : state.signal.raised = true
    · exact .takes hrequested hraised hsignal (if_pos hraised) rfl rfl
    · exact .signals .checks nofun nofun (fun _ ↦ Bool.not_eq_true _ |>.mp hraised) hsignal
        ((if_neg hraised).trans hrequested.symm) rfl rfl
  · cases h

theorem quiets_effect (h : state.quiets = some next) : Effect state next none := by
  unfold quiets at h
  split at h
  · split at h
    · cases h
      exact .raises rfl rfl rfl (.inl rfl)
    · cases h
  · cases h

theorem reattaches_effect {tried : Option (Attachment × Attachment)}
    (h : state.reattaches tried = some next) : Effect state next none := by
  unfold reattaches at h
  split at h
  · cases h
    exact .rests rfl rfl rfl rfl
  · split at h
    · cases h
      exact .raises rfl rfl rfl (.inl rfl)
    · cases h
      exact .rests rfl rfl rfl rfl
  · cases h

theorem receives_effect {received : Received} (h : receives watch state received = some next) :
    Effect state next none := by
  unfold receives at h
  split at h
  · split at h
    · cases h
      exact .rests rfl rfl rfl rfl
    · cases h
      exact .rests rfl rfl rfl rfl
    · split at h <;> cases h <;> exact .rests rfl rfl rfl rfl
  · cases h

/-- Every step, one by one. -/
theorem step_effect (h : step watch state action = some next) :
    Effect state next action.party := by
  cases action with
  | observes line =>
      cases h
      exact observes_effect line
  | requests =>
      cases h
      exact .raises rfl rfl rfl (.inl rfl)
  | notifies =>
      simp only [step, notifies] at h
      split at h
      · obtain ⟨signal, hsignal, rfl⟩ := Option.map_eq_some_iff.mp h
        exact .signals .notifies nofun nofun nofun hsignal rfl rfl rfl
      · cases h
  | reads =>
      obtain ⟨poster, hposter, rfl⟩ := Option.map_eq_some_iff.mp h
      exact .hands rfl hposter rfl rfl
  | fails | answered | elapses =>
      obtain ⟨hrequested, htaken, hawaits⟩ := awaits_of_step h (by simp)
      obtain ⟨signal, hsignal, rfl⟩ := Option.map_eq_some_iff.mp hawaits
      exact .awaits hsignal hrequested htaken rfl rfl rfl
  | prepares =>
      simp only [step, prepares] at h
      split at h
      · obtain ⟨signal, hsignal, rfl⟩ := Option.map_eq_some_iff.mp h
        exact .signals .prepares nofun nofun nofun hsignal rfl rfl rfl
      · cases h
  | checks => exact checks_effect h
  | polls =>
      simp only [step, polls] at h
      split at h
      · obtain ⟨signal, hsignal, rfl⟩ := Option.map_eq_some_iff.mp h
        exact .signals .polls nofun nofun nofun hsignal rfl rfl rfl
      · cases h
  | begins =>
      simp only [step, begins] at h
      split at h
      · rename_i hposter
        cases h
        exact .begins rfl hposter rfl rfl rfl
      · cases h
  | receives received => exact receives_effect h
  | quiets => exact quiets_effect h
  | retries =>
      simp only [step, retries] at h
      split at h
      · split at h <;> cases h
        exact .rests rfl rfl rfl rfl
      · cases h
  | reattaches tried => exact reattaches_effect h
  | signals =>
      simp only [step, signals] at h
      split at h
      · obtain ⟨signal, hsignal, rfl⟩ := Option.map_eq_some_iff.mp h
        exact .signals .notifies nofun nofun nofun hsignal rfl rfl rfl
      · cases h
  | passes nanos =>
      cases h
      exact .rests rfl rfl rfl rfl

/-- What a step does to the loop that follows the events, and to what it owes the plan. -/
inductive Followed (state next : Wakeups) : Action → Prop
  | rests {action : Action} : next.follower = state.follower → next.planned = state.planned →
      Followed state next action
  | moves {action : Action} {before after : Follower} : state.follower = some before →
      next.follower = some after → after.deadline = before.deadline →
      next.planned = state.planned → Followed state next action
  | named {action : Action} {after : Follower} : next.follower = some after →
      after.deadline.isSome → Followed state next action
  | quiets {after : Follower} : next.follower = some after → next.planned = false →
      Followed state next .quiets
  | closes : next.follower = none → Followed state next (.receives .closed)
  | fails : next.follower = none → Followed state next (.reattaches none)

/-- Receiving an event sets the deadline if the event names the plan. -/
theorem receives_followed {received : Received} (h : receives watch state received = some next) :
    Followed state next (.receives received) := by
  unfold receives at h
  split at h
  · rename_i hfollower
    split at h
    · cases h
      exact .closes rfl
    · cases h
      exact .moves hfollower rfl rfl rfl
    · split at h
      · cases h
        exact .named rfl rfl
      · cases h
        exact .moves hfollower rfl rfl rfl
  · cases h

theorem reattaches_followed {tried : Option (Attachment × Attachment)}
    (h : state.reattaches tried = some next) : Followed state next (.reattaches tried) := by
  unfold reattaches at h
  split at h
  · cases h
    exact .fails rfl
  · rename_i hfollower
    split at h <;> cases h <;> exact .moves hfollower rfl rfl rfl
  · cases h

/-- A step that is none of the loop's leaves the loop as it is. -/
theorem map_followed {signal : Option Signal} {build : Signal → Wakeups}
    (h : signal.map build = some next)
    (hbuild : ∀ signal, (build signal).follower = state.follower ∧
      (build signal).planned = state.planned) : Followed state next action := by
  obtain ⟨signal, -, rfl⟩ := Option.map_eq_some_iff.mp h
  exact .rests (hbuild signal).1 (hbuild signal).2

/-- Every step, one by one. -/
theorem step_followed (h : step watch state action = some next) :
    Followed state next action := by
  cases action with
  | observes line =>
      cases h
      unfold observes
      split <;> exact .rests rfl rfl
  | requests =>
      cases h
      exact .rests rfl rfl
  | notifies =>
      simp only [step, notifies] at h
      split at h
      · exact map_followed h fun _ ↦ ⟨rfl, rfl⟩
      · cases h
  | reads =>
      obtain ⟨poster, -, rfl⟩ := Option.map_eq_some_iff.mp h
      exact .rests rfl rfl
  | fails | answered | elapses =>
      exact map_followed (awaits_of_step h (by simp)).2.2 fun _ ↦ ⟨rfl, rfl⟩
  | prepares =>
      simp only [step, prepares] at h
      split at h
      · exact map_followed h fun _ ↦ ⟨rfl, rfl⟩
      · cases h
  | checks =>
      simp only [step, checks] at h
      split at h
      · exact map_followed h fun _ ↦ ⟨rfl, rfl⟩
      · cases h
  | polls =>
      simp only [step, polls] at h
      split at h
      · exact map_followed h fun _ ↦ ⟨rfl, rfl⟩
      · cases h
  | begins =>
      simp only [step, begins] at h
      split at h <;> cases h
      exact .rests rfl rfl
  | receives received => exact receives_followed h
  | quiets =>
      simp only [step, quiets] at h
      split at h
      · split at h <;> cases h
        exact .quiets rfl rfl
      · cases h
  | retries =>
      simp only [step, retries] at h
      split at h
      · rename_i hfollower
        split at h <;> cases h
        exact .moves hfollower rfl rfl rfl
      · cases h
  | reattaches tried => exact reattaches_followed h
  | signals =>
      simp only [step, signals] at h
      split at h
      · rename_i hfollower
        obtain ⟨signal, -, rfl⟩ := Option.map_eq_some_iff.mp h
        exact .moves hfollower rfl rfl rfl
      · cases h
  | passes nanos =>
      cases h
      exact .rests rfl rfl

/-- The watcher of a run is in this state, but for how far a wait and a notification have got. -/
structure Shows (state : Wakeups) (watcher : PlanWatcher) : Prop where
  phase : watcher.tracker.phase = state.phase
  freeze : watcher.tracker.freeze = .open
  request : watcher.tracker.request = if state.signal.raised then .pending else .idle
  events : watcher.events = .running ()
  posts : watcher.posts = .running state.poster.shown

/-- What becomes of a watcher while one step is taken: nothing, a line it observes, or a step. -/
inductive Steps (watcher : PlanWatcher) : PlanWatcher → Prop
  | rests : Steps watcher watcher
  | observes (line : Text) :
      Steps watcher { watcher with tracker := watcher.tracker.observe line }
  | acts {after : PlanWatcher} (move : PlanWatcher.Action) (dues : List Due) :
      watcher.step move = some (after, dues) → Steps watcher after

variable {watcher : PlanWatcher}

theorem Shows.congr (h : Shows state watcher) (hraised : next.signal.raised = state.signal.raised)
    (hposter : next.poster.shown = state.poster.shown) (hphase : next.phase = state.phase) :
    Shows next watcher :=
  ⟨h.phase.trans hphase.symm, h.freeze, by rw [hraised]; exact h.request, h.events,
    by rw [hposter]; exact h.posts⟩

/-- Both trackers observe a line alike. -/
theorem Shows.observes (h : Shows state watcher) (line : Text) :
    Shows (state.observes line) { watcher with tracker := watcher.tracker.observe line } := by
  unfold Wakeups.observes PhaseTracker.observe
  rw [h.freeze]
  cases marker line with
  | none => exact h
  | some marker =>
      cases marker with
      | taskIteration => exact ⟨rfl, h.freeze, rfl, h.events, h.posts⟩
      | review =>
          dsimp only [Option.bind_some, moved, PhaseTracker.moves]
          by_cases hreview : state.phase = .review
          · rw [h.phase, if_pos hreview, if_pos hreview]
            exact h
          · rw [h.phase, if_neg hreview, if_neg hreview]
            exact ⟨rfl, h.freeze, rfl, h.events, h.posts⟩

theorem Shows.requests (h : Shows state watcher) (hraised : next.signal.raised = true)
    (hposter : next.poster = state.poster) (hphase : next.phase = state.phase) :
    ∃ after, Shows next after ∧ Steps watcher after := by
  refine ⟨{ watcher with tracker := watcher.tracker.requests },
    ⟨h.phase.trans hphase.symm, h.freeze, ?_, h.events, by rw [hposter]; exact h.posts⟩,
    .acts .changes [] ?_⟩
  · rw [hraised]
    rfl
  · simp only [PlanWatcher.step, h.events]

/-- The posting task goes on and the tracker stays. -/
theorem Shows.goes (h : Shows state watcher) (after : PlanWatcher) (move : PlanWatcher.Action)
    (dues : List Due) (hstep : watcher.step move = some (after, dues))
    (htracker : after.tracker = watcher.tracker) (hevents : after.events = watcher.events)
    (hposts : after.posts = .running next.poster.shown)
    (hraised : next.signal.raised = state.signal.raised) (hphase : next.phase = state.phase) :
    ∃ after, Shows next after ∧ Steps watcher after :=
  ⟨after, ⟨by rw [htracker, hphase]; exact h.phase, by rw [htracker]; exact h.freeze,
    by rw [htracker, hraised]; exact h.request, hevents.trans h.events, hposts⟩,
    .acts move dues hstep⟩

/-- The watcher of a run takes all these steps as its own, but for a plan whose reading failed. -/
theorem Effect.shows (h : Effect state next party) (hshows : Shows state watcher)
    (hread : ∀ snapshot, state.poster = .posting snapshot .reading → next.poster ≠ .requested) :
    ∃ after, Shows next after ∧ Steps watcher after := by
  have hposts := hshows.posts
  cases h with
  | rests hsignal hposter hphase =>
      exact ⟨watcher, hshows.congr (by rw [hsignal]) (by rw [hposter]) hphase, .rests⟩
  | raises hsignal hposter _ hphase =>
      rcases hphase with hsame | ⟨line, rfl⟩
      · exact hshows.requests (by rw [hsignal]; rfl) hposter hsame
      · exact ⟨_, hshows.observes line, .observes line⟩
  | signals act hraises henters hchecks hsignal hposter hphase =>
      have hraised := (Signal.step_frame hraises henters hchecks hsignal).1
      exact ⟨watcher, hshows.congr hraised (by rw [hposter]) hphase, .rests⟩
  | awaits hsignal hrequested htaken hposter hphase =>
      have hraised : next.signal.raised = state.signal.raised := by
        rw [(Signal.enters_eq_some hsignal).2]
      cases hfrom : state.poster with
      | requested => exact absurd hfrom hrequested
      | taken => exact absurd hfrom htaken
      | opening stage =>
          rw [hfrom] at hposts
          cases stage with
          | reading =>
              exact hshows.goes watcher.open_ .elapses [⟨opening, .missed⟩]
                (by simp only [PlanWatcher.step, hposts, Posting.shown]) rfl rfl
                (by rw [hposter]; rfl) hraised hphase
          | handed =>
              exact hshows.goes watcher.open_ .elapses []
                (by simp only [PlanWatcher.step, hposts, Posting.shown]) rfl rfl
                (by rw [hposter]; rfl) hraised hphase
      | posting snapshot stage =>
          rw [hfrom] at hposts
          cases stage with
          | reading => exact absurd hposter (hread snapshot hfrom)
          | handed =>
              exact hshows.goes (watcher.goOn .checking) .answered []
                (by simp only [PlanWatcher.step, hposts, Posting.shown]) rfl rfl
                (by rw [hposter]; rfl) hraised hphase
  | hands hsignal hhands hphase =>
      have hraised : next.signal.raised = state.signal.raised := by rw [hsignal]
      cases hfrom : state.poster with
      | requested | taken =>
          rw [hfrom] at hhands
          cases hhands
      | opening stage =>
          rw [hfrom] at hposts hhands
          cases stage with
          | handed => cases hhands
          | reading =>
              have hto := Option.some_inj.mp hhands
              exact hshows.goes (watcher.goOn next.poster.shown) .reads [⟨opening, .handed⟩]
                (by simp only [PlanWatcher.step, hposts, ← hto, Posting.shown]) rfl rfl rfl
                hraised hphase
      | posting snapshot stage =>
          rw [hfrom] at hposts hhands
          cases stage with
          | handed => cases hhands
          | reading =>
              have hto := Option.some_inj.mp hhands
              exact hshows.goes (watcher.goOn next.poster.shown) .reads [⟨snapshot, .handed⟩]
                (by simp only [PlanWatcher.step, hposts, ← hto, Posting.shown]) rfl rfl rfl
                hraised hphase
  | takes hrequested hraised hsignal hto hphase =>
      have hpending : watcher.tracker.request = .pending :=
        hshows.request.trans (if_pos hraised)
      rw [hrequested] at hposts
      refine ⟨{ watcher with tracker := watcher.tracker.takeRequest.2 }.goOn .taken,
        ⟨hshows.phase.trans hphase.symm, hshows.freeze, ?_, hshows.events, by rw [hto]; rfl⟩,
        .acts .checks [] ?_⟩
      · rw [Signal.checks_raised hraised hsignal]
        rfl
      · simp only [PlanWatcher.step, hposts, Posting.shown, PhaseTracker.takeRequest, hpending]
  | begins hsignal hposter hto hphase =>
      rw [hposter] at hposts
      exact hshows.goes (watcher.goOn next.poster.shown) .begins []
        (by simp only [PlanWatcher.step, hposts, Posting.shown, hto, hshows.phase]) rfl rfl rfl
        (by rw [hsignal]) hphase

/-- The posting task moves in steps of its own. -/
theorem Effect.poster (h : Effect state next party) (hparty : party ≠ some .consumer) :
    next.poster = state.poster := by
  cases h with
  | rests _ hposter | raises _ hposter | signals _ _ _ _ _ hposter => exact hposter
  | awaits | hands | takes | begins => exact absurd rfl hparty

/-- Only a plan that could not be read sends the task from the reading to the next request. -/
theorem action_of_reading {snapshot : Snapshot}
    (hposter : state.poster = .posting snapshot .reading)
    (hstep : step watch state action = some next) (hnext : next.poster = .requested) :
    action = .fails := by
  have hmoves : next.poster ≠ state.poster := by rw [hposter, hnext]; nofun
  cases action with
  | fails => rfl
  | observes | requests | notifies | receives | quiets | retries | reattaches | signals
  | passes =>
      exact absurd ((step_effect hstep).poster (by simp [Action.party])) hmoves
  | reads =>
      obtain ⟨poster, hhands, rfl⟩ := Option.map_eq_some_iff.mp hstep
      exact absurd hnext (Posting.hands_eq_some hhands).2.2.1
  | answered => simp only [step, answered, hposter] at hstep; cases hstep
  | elapses => simp only [step, elapses, hposter] at hstep; cases hstep
  | prepares => simp only [step, prepares, hposter] at hstep; cases hstep
  | checks => simp only [step, checks, hposter] at hstep; cases hstep
  | polls => simp only [step, polls, hposter] at hstep; cases hstep
  | begins => simp only [step, begins, hposter] at hstep; cases hstep

/-- A run in which every plan is read is a run of the watcher. -/
theorem runs_shown (h : (machine watch).ReachableBy (fun _ action ↦ action ≠ .fails) state) :
    ∃ watcher, Relation.ReflTransGen Steps PlanWatcher.start watcher ∧ Shows state watcher := by
  refine h.invariant (fun state ↦ ∃ watcher, Relation.ReflTransGen Steps .start watcher ∧
    Shows state watcher) (fun state hinit ↦ ?_) fun state action next ih hreads hstep ↦ ?_
  · obtain ⟨watches, rfl⟩ := hinit
    exact ⟨.start, .refl, ⟨rfl, rfl, rfl, rfl, rfl⟩⟩
  · obtain ⟨watcher, hsteps, hshows⟩ := ih
    obtain ⟨after, hafter, hlast⟩ := (step_effect hstep).shows hshows
      fun snapshot hposter hnext ↦ hreads (action_of_reading hposter hstep hnext)
    exact ⟨after, hsteps.tail hlast, hafter⟩

end Wakeups

end RalphexRunner
