import RalphexRunner.Agent.Turns

/-!
# What becomes of a local request

A request arrives once, is carried unchanged up to the call that opens its run, and the farm is
asked to open a run for it at most once.
-/

namespace RalphexRunner

namespace Agent

/-- The request a local start has not got beyond asking the farm for. -/
def RequestPc.request? : RequestPc → Option RunRequest
  | .arrived request | .subscribing request | .selecting request | .queued request
  | .granted request | .checked request | .opening request | .titling request
  | .asking request => some request
  | _ => none

/-- The farm may still be asked to open a run. -/
def RequestPc.Unopened : RequestPc → Prop
  | .absent => True
  | .asking _ => False
  | pc => pc.request?.isSome = true

def Event.opening? : Event → Option OpenRunRequest
  | .opening request => some request
  | _ => none

def openings (trace : List Event) : List OpenRunRequest := trace.filterMap Event.opening?

variable {agent next : Agent} {index : ℕ}

/-- What a step of a local start can do for a request. -/
theorem requests_opening {pc : RequestPc} {turn : Turn RequestPc}
    (h : Requests agent index pc turn) :
    turn.next ≠ .absent ∧
      (pc = .absent ∨ turn.next.request? = none ∨ turn.next.request? = pc.request?) ∧
      ((openings turn.added = [] ∧ (turn.next.Unopened → pc.Unopened)) ∨
        ∃ request title, pc = .titling request ∧ turn.next = .asking request ∧
          openings turn.added = [openRunRequest agent.config request title]) := by
  cases h with
  | arrived request => exact ⟨nofun, .inl rfl, .inl ⟨rfl, fun _ ↦ trivial⟩⟩
  | acquired pc request hpc hfree =>
      rcases hpc with rfl | rfl <;>
        exact ⟨nofun, .inr (.inr rfl), .inl ⟨rfl, fun _ ↦ rfl⟩⟩
  | busy pc request runId hpc hslot =>
      rcases hpc with rfl | rfl <;>
        exact ⟨nofun, .inr (.inl rfl), .inl ⟨rfl, fun _ ↦ rfl⟩⟩
  | asked request title =>
      exact ⟨nofun, .inr (.inr rfl), .inr ⟨request, title, rfl, rfl, rfl⟩⟩
  | tends worktree stage turn htends =>
      refine ⟨nofun, .inr (.inl rfl), .inl ⟨?_, nofun⟩⟩
      apply List.filterMap_eq_nil_iff.mpr
      intro event hevent
      rcases Turn.added_cases hevent with ⟨slot, rfl⟩ | rfl | hown
      · rfl
      · rfl
      · have htenancy := tends_events htends event hown
        cases event <;> first | rfl | exact htenancy.elim
  | dropped refusal =>
      refine ⟨nofun, .inr (.inl rfl), .inl ⟨?_, nofun⟩⟩
      cases refusal <;> rfl
  | missed request | looked request | queued request | won request | checked request
  | admitted request | held request =>
      exact ⟨nofun, .inr (.inr rfl), .inl ⟨rfl, fun _ ↦ rfl⟩⟩
  | noticed request | turnedAway request | refused request =>
      exact ⟨nofun, .inr (.inl rfl), .inl ⟨rfl, fun _ ↦ rfl⟩⟩
  | cancelled | handed | failed | reported | entered | spawned | returned | freed =>
      exact ⟨nofun, .inr (.inl rfl), .inl ⟨rfl, nofun⟩⟩

theorem openings_of_loops {pc : LoopPc} {turn : Turn LoopPc} (h : Loops agent pc turn) :
    openings turn.added = [] := by
  apply List.filterMap_eq_nil_iff.mpr
  intro event hevent
  rcases Turn.added_cases hevent with ⟨slot, rfl⟩ | rfl | hown
  · rfl
  · rfl
  · have hloop := loops_events h event hown
    cases event <;> first | rfl | exact hloop.elim

theorem openings_append (trace events : List Event) :
    openings (trace ++ events) = openings trace ++ openings events :=
  List.filterMap_append

@[simp] theorem moveLoop_config (agent : Agent) (turn : Turn LoopPc) :
    (agent.moveLoop turn).config = agent.config := by
  change (agent.takes .loop turn).config = agent.config
  unfold takes
  cases turn.effect <;> rfl

@[simp] theorem moveRequest_config (agent : Agent) (index : ℕ) (turn : Turn RequestPc) :
    (agent.moveRequest index turn).config = agent.config := by
  change (agent.takes (.request index) turn).config = agent.config
  unfold takes
  cases turn.effect <;> rfl

/-- What a step of an agent can do for its requests. -/
structure Passes (agent next : Agent) : Prop where
  config : next.config = agent.config
  trace : agent.trace <+: next.trace
  present : ∀ index, agent.requests index ≠ .absent → next.requests index ≠ .absent
  request : ∀ index request, agent.requests index ≠ .absent →
    (next.requests index).request? = some request →
      (agent.requests index).request? = some request
  opened : (openings next.trace = openings agent.trace ∧
      ∀ index, (next.requests index).Unopened → (agent.requests index).Unopened) ∨
    ∃ index request title, agent.requests index = .titling request ∧
      next.requests = Function.update agent.requests index (.asking request) ∧
        openings next.trace = openings agent.trace ++ [openRunRequest agent.config request title]

theorem Passes.same (hconfig : next.config = agent.config)
    (htrace : ∃ events, next.trace = agent.trace ++ events ∧ openings events = [])
    (hrequests : next.requests = agent.requests) : Passes agent next := by
  obtain ⟨events, hevents, hnone⟩ := htrace
  refine ⟨hconfig, ⟨events, hevents.symm⟩, ?_, ?_, .inl ⟨?_, ?_⟩⟩
  · rw [hrequests]
    exact fun _ ↦ id
  · rw [hrequests]
    exact fun _ _ _ ↦ id
  · rw [hevents, openings_append, hnone, List.append_nil]
  · rw [hrequests]
    exact fun _ ↦ id

/-- Every step opens one run at most, and that as its request asks. -/
theorem passes_of_step {action : Action} (h : step agent action = some next) :
    Passes agent next := by
  cases step_cases h with
  | hastened => exact .same rfl ⟨_, rfl, rfl⟩ rfl
  | attached => exact .same rfl ⟨_, rfl, rfl⟩ rfl
  | looped turn hturn =>
      exact .same (moveLoop_config agent turn)
        ⟨_, moveLoop_trace agent turn, openings_of_loops hturn⟩ (moveLoop_requests agent turn)
  | requested index turn hturn =>
      obtain ⟨hpresent, hrequest, hopening⟩ := requests_opening hturn
      refine ⟨moveRequest_config agent index turn,
        ⟨turn.added, (moveRequest_trace agent index turn).symm⟩, ?_, ?_, ?_⟩
      · intro other hother
        by_cases hsame : other = index
        · rw [hsame, moveRequest_self]
          exact hpresent
        · rwa [moveRequest_of_ne agent index turn hsame]
      · intro other request hother hnext
        by_cases hsame : other = index
        · subst hsame
          rw [moveRequest_self] at hnext
          rcases hrequest.resolve_left hother with hnone | hcarried
          · rw [hnone] at hnext
            cases hnext
          · exact hcarried.symm.trans hnext
        · rwa [moveRequest_of_ne agent index turn hsame] at hnext
      · rw [moveRequest_trace, openings_append]
        rcases hopening with ⟨hnone, hunopened⟩ | ⟨request, title, hpc, hnext, hopens⟩
        · refine .inl ⟨by rw [hnone, List.append_nil], fun other hother ↦ ?_⟩
          by_cases hsame : other = index
          · subst hsame
            rw [moveRequest_self] at hother
            exact hunopened hother
          · rwa [moveRequest_of_ne agent index turn hsame] at hother
        · exact .inr ⟨index, request, title, hpc, by rw [moveRequest_requests, hnext],
            by rw [hopens]⟩

/-- Only its arrival makes a request present. -/
theorem absent_of_step {action : Action} (h : step agent action = some next)
    (haction : ∀ request, action ≠ .request index (.arrives request))
    (habsent : agent.requests index = .absent) : next.requests index = .absent := by
  cases action with
  | hastens | attaches =>
      cases h
      exact habsent
  | loop move =>
      obtain ⟨turn, -, rfl⟩ := Option.map_eq_some_iff.mp h
      rw [moveLoop_requests]
      exact habsent
  | request other move =>
      obtain ⟨turn, hturn, rfl⟩ := Option.map_eq_some_iff.mp h
      by_cases hsame : index = other
      · subst hsame
        rw [habsent] at hturn
        cases move with
        | arrives request => exact absurd rfl (haction request)
        | _ => cases hturn
      · rw [moveRequest_of_ne agent other turn hsame]
        exact habsent

end Agent

end RalphexRunner
