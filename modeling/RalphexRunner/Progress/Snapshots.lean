import RalphexRunner.Progress.Watcher
import RalphexRunner.Semantics.Trace

/-!
# The order of the snapshots

The snapshots of a run that fall due, in order: the opening one, early ones from the posting task,
at most one of the pull request, and at most one failed one at the end.  `PlanWatcher.Live` says how
far the posting task has come, and is kept by each of its steps.
-/

namespace RalphexRunner

/-- An unfailed snapshot of a phase before the pull request. -/
def Snapshot.Early (snapshot : Snapshot) : Prop :=
  snapshot.outcome = .running ∧ snapshot.phase ≠ .pr

/-- The snapshot of the pull request, as long as nothing failed. -/
def pullRequested : Snapshot := ⟨.pr, .running⟩

/-- The opening snapshot, and early ones after it. -/
def Opened (due : List Snapshot) : Prop :=
  ∃ rest, due = opening :: rest ∧ ∀ snapshot ∈ rest, snapshot.Early

/-- The same, with the one of the pull request at the end. -/
def Requested (due : List Snapshot) : Prop :=
  ∃ before, due = before ++ [pullRequested] ∧ Opened before

/-- What may come before a failed snapshot, and the failed one: it is one of the pull request only
where that was asked for, and always past the one that is not failed. -/
def Marked (asked : Prop) (due : List Snapshot) : Prop :=
  ∃ before phase, due = before ++ [⟨phase, .failed⟩] ∧ (phase = .pr → asked) ∧
    (Opened before ∨ phase = .pr ∧ Requested before)

variable {due : List Snapshot} {snapshot : Snapshot}

theorem opening_early : opening.Early := ⟨rfl, nofun⟩

theorem opened_singleton : Opened [opening] := ⟨[], rfl, nofun⟩

theorem Opened.snoc (h : Opened due) (hearly : snapshot.Early) : Opened (due ++ [snapshot]) := by
  obtain ⟨rest, rfl, hrest⟩ := h
  refine ⟨rest ++ [snapshot], rfl, fun other hother ↦ ?_⟩
  rcases List.mem_append.mp hother with hmem | hlast
  · exact hrest other hmem
  · rwa [List.mem_singleton.mp hlast]

theorem Opened.early (h : Opened due) : ∀ snapshot ∈ due, snapshot.Early := by
  obtain ⟨rest, rfl, hrest⟩ := h
  intro snapshot hmem
  rcases List.mem_cons.mp hmem with rfl | hmem
  · exact opening_early
  · exact hrest snapshot hmem

theorem Requested.unfailed (h : Requested due) : ∀ snapshot ∈ due, snapshot.outcome = .running := by
  obtain ⟨before, rfl, hbefore⟩ := h
  intro snapshot hmem
  rcases List.mem_append.mp hmem with hmem | hlast
  · exact (hbefore.early snapshot hmem).1
  · rw [List.mem_singleton.mp hlast]
    rfl

/-- The snapshots of a run that fell due by some moment. -/
def Lawful (asked : Prop) (due : List Snapshot) : Prop :=
  due = [] ∨ Opened due ∨ (asked ∧ Requested due) ∨ Marked asked due

section Lawful

variable {granted : Prop} {before after : List Snapshot}

theorem Opened.not_mem_requested (h : Opened due) : pullRequested ∉ due :=
  fun hmem ↦ (h.early _ hmem).2 rfl

/-- The one of the pull request is the last as long as nothing failed. -/
theorem Requested.split (h : Requested due) (hsplit : due = before ++ pullRequested :: after) :
    Opened before ∧ after = [] := by
  obtain ⟨earlier, rfl, hearlier⟩ := h
  rcases split_snoc hsplit with ⟨rfl, rfl, -⟩ | ⟨inner, -, hsame⟩
  · exact ⟨hearlier, rfl⟩
  · have hmem : pullRequested ∈ earlier := by simp [hsame]
    exact absurd hmem hearlier.not_mem_requested

theorem Requested.first {first : Snapshot} {rest : List Snapshot} (h : Requested due)
    (hsplit : due = first :: rest) : first = opening := by
  obtain ⟨_, rfl, _, rfl, -⟩ := h
  exact (List.cons.inj hsplit).1.symm

theorem Lawful.first {first : Snapshot} {rest : List Snapshot} (h : Lawful granted due)
    (hsplit : due = first :: rest) : first = opening := by
  rcases h with rfl | ⟨_, rfl, -⟩ | ⟨-, hrequested⟩ | ⟨before, phase, rfl, -, hbefore⟩
  · cases hsplit
  · exact (List.cons.inj hsplit).1.symm
  · exact hrequested.first hsplit
  · rcases hbefore with ⟨_, rfl, -⟩ | ⟨-, hrequested⟩
    · exact (List.cons.inj hsplit).1.symm
    · obtain ⟨_, rfl, _, rfl, -⟩ := hrequested
      exact (List.cons.inj hsplit).1.symm

theorem unfailed_of_before {phase : Phase} (h : Opened before ∨ phase = .pr ∧ Requested before) :
    ∀ snapshot ∈ before, snapshot.outcome = .running := by
  rcases h with hopened | ⟨-, hrequested⟩
  · exact fun snapshot hmem ↦ (hopened.early snapshot hmem).1
  · exact hrequested.unfailed

/-- A failed snapshot is the last, and the only failed one. -/
theorem Lawful.failed_last (h : Lawful granted due) (hsplit : due = before ++ snapshot :: after)
    (hfailed : snapshot.outcome = .failed) :
    after = [] ∧ ∀ earlier ∈ before, earlier.outcome = .running := by
  have hmem : snapshot ∈ due := by simp [hsplit]
  have hcontra (hunfailed : ∀ snapshot ∈ due, snapshot.outcome = .running) : False := by
    rw [hunfailed snapshot hmem] at hfailed
    cases hfailed
  rcases h with rfl | hopened | ⟨-, hrequested⟩ | ⟨earlier, phase, rfl, -, hearlier⟩
  · cases hmem
  · exact (hcontra fun snapshot hmem ↦ (hopened.early snapshot hmem).1).elim
  · exact (hcontra hrequested.unfailed).elim
  · have hunfailed := unfailed_of_before hearlier
    rcases split_snoc hsplit with ⟨rfl, rfl, -⟩ | ⟨inner, -, hsame⟩
    · exact ⟨rfl, hunfailed⟩
    · rw [hunfailed snapshot (by simp [hsame])] at hfailed
      cases hfailed

/-- A snapshot of the pull request appears only where one was asked for. -/
theorem Lawful.asked (h : Lawful granted due) (hmem : snapshot ∈ due)
    (hphase : snapshot.phase = .pr) : granted := by
  rcases h with rfl | hopened | ⟨hasked, -⟩ | ⟨before, phase, rfl, hasked, hbefore⟩
  · cases hmem
  · exact absurd hphase (hopened.early snapshot hmem).2
  · exact hasked
  · rcases List.mem_append.mp hmem with hearlier | hlast
    · rcases hbefore with hopened | ⟨hpr, -⟩
      · exact absurd hphase (hopened.early snapshot hearlier).2
      · exact hasked hpr
    · rw [List.mem_singleton.mp hlast] at hphase
      exact hasked hphase

/-- The unfailed one of the pull request appears once, and only its failed one may follow. -/
theorem Lawful.requested_once (h : Lawful granted due)
    (hsplit : due = before ++ pullRequested :: after) :
    Opened before ∧ ∀ later ∈ after, later = ⟨.pr, .failed⟩ := by
  have hmem : pullRequested ∈ due := by simp [hsplit]
  rcases h with rfl | hopened | ⟨-, hrequested⟩ | ⟨earlier, phase, rfl, -, hearlier⟩
  · cases hmem
  · exact absurd hmem hopened.not_mem_requested
  · obtain ⟨hopened, rfl⟩ := hrequested.split hsplit
    exact ⟨hopened, nofun⟩
  · rcases split_snoc hsplit with ⟨-, -, hlast⟩ | ⟨inner, rfl, hsame⟩
    · cases hlast
    · rcases hearlier with hopened | ⟨rfl, hrequested⟩
      · exact absurd (by simp [hsame]) hopened.not_mem_requested
      · obtain ⟨hopened, rfl⟩ := hrequested.split hsame
        exact ⟨hopened, fun later hlater ↦ List.mem_singleton.mp hlater⟩

end Lawful

/-- Where the posting task stands once these snapshots fell due. -/
def Drawn (due : List Snapshot) (opened : Bool) : Task Poster → Prop
  | .running (.opening .reading) => due = [] ∧ opened = false
  | .running (.opening .handed) => due = [opening] ∧ opened = false
  | .running (.posting snapshot _) => Opened due ∧ snapshot.Early
  | .running .checking | .running .asleep | .running .taken | .aborted => Opened due
  | .ended => False

namespace PlanWatcher

variable {watcher next : PlanWatcher} {action : Action} {dues : List Due}

/-- The posting task is at work, or was aborted after the opening snapshot. -/
structure Live (watcher : PlanWatcher) (due : List Snapshot) : Prop where
  phase : watcher.tracker.phase ≠ .pr
  drawn : Drawn due watcher.opened watcher.posts

/-- The posting task was aborted. -/
def Still (watcher : PlanWatcher) : Prop := watcher.posts = .aborted

theorem live_start : start.Live [] := ⟨nofun, rfl, rfl⟩

theorem Live.release (h : watcher.Live due) : watcher.release.Live due := ⟨h.phase, h.drawn⟩

/-- Once the opening snapshot is over it is the first that fell due. -/
theorem Live.opened (h : watcher.Live due) (hopened : watcher.opened = true) : Opened due := by
  obtain ⟨-, hdrawn⟩ := h
  rw [hopened] at hdrawn
  unfold Drawn at hdrawn
  split at hdrawn
  · cases hdrawn.2
  · cases hdrawn.2
  · exact hdrawn.1
  all_goals first | exact hdrawn | exact hdrawn.elim

theorem phase_takeRequest (tracker : PhaseTracker) :
    tracker.takeRequest.2.phase = tracker.phase ∧ tracker.takeRequest.2.freeze = tracker.freeze :=
  ⟨rfl, rfl⟩

theorem phase_wakes {tracker after : PhaseTracker} (h : tracker.wakes = some after) :
    after.phase = tracker.phase ∧ after.freeze = tracker.freeze := by
  unfold PhaseTracker.wakes at h
  split at h <;> cases h
  exact ⟨rfl, rfl⟩

/-- The two tasks never move the phase. -/
theorem step_phase (h : watcher.step action = some (next, dues)) :
    next.tracker.phase = watcher.tracker.phase ∧ next.tracker.freeze = watcher.tracker.freeze := by
  unfold step at h
  split at h
  case h_8 =>
    split at h <;> cases h
    all_goals
      rename_i tracker htaken
      have hsame := phase_takeRequest watcher.tracker
      rw [htaken] at hsame
      exact hsame
  case h_9 =>
    obtain ⟨tracker, hwakes, hnext⟩ := Option.map_eq_some_iff.mp h
    cases hnext
    exact phase_wakes hwakes
  case h_11 => cases h
  all_goals cases h; exact ⟨rfl, rfl⟩

theorem Live.lawful {asked : Prop} (h : watcher.Live due) : Lawful asked due := by
  have hdrawn := h.drawn
  unfold Drawn at hdrawn
  split at hdrawn
  · exact .inl hdrawn.1
  · rw [hdrawn.1]
    exact .inr (.inl opened_singleton)
  · exact .inr (.inl hdrawn.1)
  all_goals first | exact .inr (.inl hdrawn) | exact hdrawn.elim

/-- Every step of the two tasks keeps the order. -/
theorem Live.step (h : watcher.Live due) (hstep : watcher.step action = some (next, dues)) :
    next.Live (due ++ dues.map Due.snapshot) := by
  refine ⟨by rw [(step_phase hstep).1]; exact h.phase, ?_⟩
  have hdrawn := h.drawn
  unfold PlanWatcher.step at hstep
  split at hstep
  case h_1 => cases hstep; simpa using hdrawn
  case h_2 hposts | h_6 hposts =>
    rw [hposts] at hdrawn
    cases hstep
    obtain ⟨rfl, hopened⟩ := hdrawn
    first | exact ⟨rfl, hopened⟩ | exact opened_singleton
  case h_3 snapshot hposts =>
    rw [hposts] at hdrawn
    cases hstep
    exact ⟨hdrawn.1.snoc hdrawn.2, hdrawn.2⟩
  case h_4 hposts | h_7 hposts =>
    rw [hposts] at hdrawn
    cases hstep
    obtain ⟨rfl, -⟩ := hdrawn
    exact opened_singleton
  case h_5 snapshot hposts =>
    rw [hposts] at hdrawn
    cases hstep
    rw [List.map_nil, List.append_nil]
    exact hdrawn.1
  case h_8 hposts =>
    rw [hposts] at hdrawn
    split at hstep <;> cases hstep
    all_goals rw [List.map_nil, List.append_nil]; exact hdrawn
  case h_9 hposts =>
    rw [hposts] at hdrawn
    obtain ⟨tracker, -, hnext⟩ := Option.map_eq_some_iff.mp hstep
    cases hnext
    rw [List.map_nil, List.append_nil]
    exact hdrawn
  case h_10 hposts =>
    rw [hposts] at hdrawn
    cases hstep
    rw [List.map_nil, List.append_nil]
    exact ⟨hdrawn, rfl, h.phase⟩
  case h_11 => cases hstep

/-- An aborted task decides the fate of no snapshot. -/
theorem Still.step (h : watcher.Still) (hstep : watcher.step action = some (next, dues)) :
    next.Still ∧ dues = [] := by
  have hposts : watcher.posts = .aborted := h
  unfold PlanWatcher.step at hstep
  split at hstep
  case h_1 => cases hstep; exact ⟨h, rfl⟩
  case h_11 => cases hstep
  all_goals rename_i hrunning; rw [hposts] at hrunning; cases hrunning

end PlanWatcher

end RalphexRunner
