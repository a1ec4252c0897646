import RalphexRunner.Agent.Timeline
import RalphexRunner.Service.Plist

/-!
# The time a shutdown takes

A run is timed from the moment the shutdown signal is raised, which may be at any point of it.  Time
passes only at an await, and there at most as long as the await is bounded by; everything else takes
none.  The time that has passed never exceeds the exit timeout launchd is told.

The worst path is that of a run whose pull request fails at its last command and which is canceled
while that failure is posted: the failure is then posted twice, in the time the exit timeout sets
aside for stopping the process group.
-/

namespace RalphexRunner

open Program Duration

/-- The longest each kind of await may take, in nanoseconds. -/
structure Bounds where
  validate : ℕ
  watch : ℕ
  drain : ℕ
  stop : ℕ
  post : ℕ
  close : ℕ
  step : ℕ
  report : ℕ
  remove : ℕ

/-- The bounds the daemon's timeouts set: a completion keeps retrying for its budget, then sleeps
and tries once more. -/
def Bounds.ofDrain (drainTimeout : Duration) : Bounds where
  validate := validateTimeout.nanos
  watch := watchStartTimeout.nanos
  drain := drainTimeout.nanos
  stop := stopGrace.nanos
  post := progressPostTimeout.nanos
  close := logCloseTimeout.nanos
  step := prStepTimeout.nanos
  report := completeBudget.nanos + retryMaxDelay.nanos + requestTimeout.nanos
  remove := outputRemoveTimeout.nanos

namespace Run

variable {bounds : Bounds}

/-- The longest an await of `execute` may take: the two sides of a halt wait at once. -/
def patience (bounds : Bounds) : Call → ℕ
  | .halt => max bounds.stop bounds.post
  | .unwatch => bounds.post
  | .drainOutput => bounds.stop
  | .closeLog => bounds.close
  | .post _ => bounds.post
  | .step _ => bounds.step
  | .tail | .freeze _ | .phase | .describe => 0

/-- The longest `serve_run` may stay where it stands. -/
def Pc.patience (bounds : Bounds) : Pc → ℕ
  | .validating => bounds.validate
  | .watching => bounds.watch
  | .waiting => bounds.drain
  | .unwatching _ => bounds.post
  | .performing _ stage (.call request _) =>
      if stage = .ready then 0 else Run.patience bounds request
  | .reported _ _ => bounds.report
  | .removing finished _ => if finished.output.isSome then bounds.remove else 0
  | .entered | .spawning | .performing _ _ (.done _) | .reporting _ | .leaving _ _ | .left _ _ => 0

/-- The await at the head of the program has been begun. -/
def Pc.begun : Pc → Bool
  | .performing _ stage _ => stage ≠ .ready
  | _ => false

instance : DecidablePred Action.OfTask := fun action ↦ by
  cases action <;> unfold Action.OfTask <;> infer_instance

/-- A run, whether the shutdown signal is raised, the time since then, and the part of it spent on
the await under way. -/
structure Clocked where
  run : Run
  signalled : Bool
  elapsed : ℕ
  spent : ℕ

namespace Clocked

inductive Tick where
  | signal
  | passes (nanos : ℕ)
  | acts (action : Action)

/-- Time counts from the signal on. -/
def passes (bounds : Bounds) (clocked : Clocked) (nanos : ℕ) : Option Clocked :=
  if clocked.signalled then
    if clocked.spent + nanos ≤ clocked.run.pc.patience bounds then
      some { clocked with elapsed := clocked.elapsed + nanos, spent := clocked.spent + nanos }
    else none
  else some clocked

/-- An await under way is the same one after a step beside it and after a step of its own. -/
def acts (clocked : Clocked) (action : Action) : Option Clocked :=
  (clocked.run.step action).map fun next ↦
    { clocked with
      run := next
      spent := if action.OfTask ∨ next.pc.begun then clocked.spent else 0 }

def step (bounds : Bounds) (clocked : Clocked) : Tick → Option Clocked
  | .signal => some { clocked with signalled := true }
  | .passes nanos => clocked.passes bounds nanos
  | .acts action => clocked.acts action

def machine (bounds : Bounds) : Machine Clocked Tick where
  init clocked := ∃ setup, clocked = ⟨enter setup, false, 0, 0⟩
  step := step bounds

end Clocked

/-- The log is closed once: a second close finds its handle gone. -/
def closePatience (bounds : Bounds) (logOpen : Bool) : ℕ := if logOpen then bounds.close else 0

@[simp] theorem closePatience_true : closePatience bounds true = bounds.close := rfl

@[simp] theorem closePatience_false : closePatience bounds false = 0 := rfl

/-- What a mode leaves for the terminal that may interrupt it: a close and a failure post. -/
def reserve (bounds : Bounds) : Mode → Bool → ℕ
  | .winding, _ => 0
  | .finishing, logOpen => closePatience bounds logOpen + bounds.post

/-- What the awaits of a program may take while the log is open, or once it is closed. -/
def awaits (bounds : Bounds) (mode : Mode) : Tariff Call Bool where
  price logOpen call :=
    if call = .closeLog then closePatience bounds logOpen else patience bounds call
  after logOpen call := logOpen && call ≠ .closeLog
  reserve := reserve bounds mode

section Programs

variable {mode : Mode} {logOpen : Bool} {budget : ℕ} {α : Type} {ends : Bool × ℕ → α → Prop}

theorem pays_await {call : Call} {resume : call.Answer → RunProgram α} (hcall : call ≠ .closeLog)
    (hpaid : patience bounds call + reserve bounds mode logOpen ≤ budget)
    (hrest : ∀ answer, Follows (paying (awaits bounds mode) ends)
      (logOpen, budget - patience bounds call) (resume answer)) :
    Follows (paying (awaits bounds mode) ends) (logOpen, budget) (.call call resume) := by
  have hprice : (awaits bounds mode).price logOpen call = patience bounds call := if_neg hcall
  have hafter : (awaits bounds mode).after logOpen call = logOpen := by simp [awaits, hcall]
  refine paying_call ?_ ?_
  · rw [hprice, hafter]
    exact hpaid
  · rw [hprice, hafter]
    exact hrest

theorem pays_close {resume : Call.Answer .closeLog → RunProgram α}
    (hpaid : closePatience bounds logOpen + reserve bounds mode false ≤ budget)
    (hrest : Follows (paying (awaits bounds mode) ends)
      (false, budget - closePatience bounds logOpen) (resume ())) :
    Follows (paying (awaits bounds mode) ends) (logOpen, budget) (.call .closeLog resume) := by
  have hprice : (awaits bounds mode).price logOpen .closeLog = closePatience bounds logOpen := by
    simp [awaits]
  have hafter : (awaits bounds mode).after logOpen .closeLog = false := by simp [awaits]
  refine paying_call ?_ fun _ ↦ ?_
  · rw [hprice, hafter]
    exact hpaid
  · rw [hprice, hafter]
    exact hrest

/-- Commands are paid for one by one. -/
theorem commands_pays {program : PrProgram α} {left rest : ℕ} (h : Follows counting left program)
    (hreserve : reserve bounds mode logOpen ≤ rest) (hpaid : left * bounds.step + rest ≤ budget)
    (hends : ∀ budget result, rest ≤ budget → ends (logOpen, budget) result) :
    Follows (paying (awaits bounds mode) ends) (logOpen, budget) (Finish.commands program) :=
  have hprice (command : Command) :
      (awaits bounds mode).price logOpen (.step command) = bounds.step := by
    simp [awaits, patience]
  have hafter (command : Command) :
      (awaits bounds mode).after logOpen (.step command) = logOpen := by
    simp [awaits]
  paying_translate hprice hafter hreserve hpaid hends h

end Programs

/-- Nothing is asked of how much is left in the end. -/
abbrev Pays (bounds : Bounds) (mode : Mode) (logOpen : Bool) (budget : ℕ)
    (program : RunProgram Finished) : Prop :=
  Follows (paying (awaits bounds mode) fun _ _ ↦ True) (logOpen, budget) program

section Paid

variable {mode : Mode} {logOpen : Bool} {budget : ℕ}

/-- The failure post of a program that ends after it. -/
theorem markFailure_pays {completion : Option CompleteRequest} {finished : Finished}
    (h : bounds.post + reserve bounds mode logOpen ≤ budget) :
    Pays bounds mode logOpen budget (Finish.markFailure completion >>= fun _ ↦ .done finished) := by
  rcases Finish.markFailure_cases completion fun _ ↦ .done finished with
    ⟨hnext, -⟩ | ⟨_, -, -, hnext⟩
  · rw [hnext]
    trivial
  · have hphase : patience bounds .phase + reserve bounds mode logOpen ≤ budget :=
      (Nat.zero_add _).trans_le (Nat.le_of_add_left_le h)
    rw [hnext]
    exact pays_await (by nofun) hphase fun phase ↦ pays_await (by nofun) h fun _ ↦ trivial

/-- What a terminal makes of a run, after the run was halted and drained. -/
theorem interrupt_pays {terminal : Terminal} {output : Option Text}
    (h : closePatience bounds logOpen + bounds.post ≤ budget) :
    Pays bounds .winding logOpen budget (Finish.interrupt terminal output) := by
  rw [Finish.interrupt_eq]
  exact pays_close (Nat.le_of_add_right_le h) (markFailure_pays (Nat.le_sub_of_add_le' h))

/-- A run that is stopped before it exits. -/
theorem stop_pays {terminal : Terminal} {output : Option Text}
    (h : patience bounds .halt + (bounds.stop + (closePatience bounds logOpen + bounds.post)) ≤
      budget) : Pays bounds .winding logOpen budget (Finish.stop terminal output) := by
  rw [Finish.stop_eq]
  have hdrain := Nat.le_sub_of_add_le' h
  refine pays_await (by nofun) (Nat.le_of_add_right_le h) fun _ ↦
    pays_await (by nofun) (Nat.le_of_add_right_le hdrain) fun _ ↦
      interrupt_pays (Nat.le_sub_of_add_le' hdrain)

/-- A run that could not be spawned. -/
theorem unspawned_pays {error : JobError} {output : Option Text}
    (h : bounds.post + (closePatience bounds logOpen + bounds.post) ≤ budget) :
    Pays bounds .winding logOpen budget (Finish.unspawned error output) := by
  rw [Finish.unspawned_eq]
  have hclose := Nat.le_sub_of_add_le' h
  exact pays_await (by nofun) (Nat.le_of_add_right_le h) fun _ ↦
    pays_close (Nat.le_of_add_right_le hclose) (markFailure_pays (Nat.le_sub_of_add_le' hclose))

/-- What opening a pull request may take, whatever the run is closed with then. -/
theorem opened_pays {spec : PrSpec} {tools : PrTools}
    {after : Except PrError Text → RunProgram Closed} {next : Closed → RunProgram Finished}
    {rest : ℕ} (hafter : ∀ opened, ∃ closed, after opened = pure closed)
    (hreserve : reserve bounds mode logOpen ≤ rest) (hpaid : 5 * bounds.step + rest ≤ budget)
    (hnext : ∀ closed budget, rest ≤ budget → Pays bounds mode logOpen budget (next closed)) :
    Pays bounds mode logOpen budget
      (Finish.commands (Pr.openPullRequest spec tools) >>= fun opened ↦ after opened >>= next) := by
  apply paying_bind
  refine commands_pays Pr.openPullRequest_counts hreserve hpaid fun budget opened hleft ↦ ?_
  obtain ⟨closed, hclosed⟩ := hafter opened
  rw [hclosed]
  exact hnext closed budget hleft

/-- The same once the branch is known: reading the description takes no patience. -/
theorem branched_pays {pullRequest : PullRequest} {tools : PrTools} {branch : Branch}
    {after : Option Description → Except PrError Text → RunProgram Closed}
    {next : Closed → RunProgram Finished} {rest : ℕ}
    (hafter : ∀ written opened, ∃ closed, after written opened = pure closed)
    (hreserve : reserve bounds mode logOpen ≤ rest) (hpaid : 5 * bounds.step + rest ≤ budget)
    (hnext : ∀ closed budget, rest ≤ budget → Pays bounds mode logOpen budget (next closed)) :
    Pays bounds mode logOpen budget (Finish.written pullRequest >>= fun written ↦
      Finish.commands (Pr.openPullRequest (PrSpec.describe branch pullRequest.origin
        pullRequest.plan pullRequest.runId written) tools) >>= fun opened ↦
          after written opened >>= next) := by
  have hwritten : patience bounds .describe + reserve bounds mode logOpen ≤ budget := by
    rw [patience, Nat.zero_add]
    exact hreserve.trans (Nat.le_of_add_left_le hpaid)
  unfold Finish.written
  split
  · exact opened_pays (hafter none) hreserve hpaid hnext
  · exact pays_await (by simp) hwritten fun read ↦
      opened_pays (hafter read.toOption) hreserve hpaid hnext

/-- The most a pull request may take: a command for the branch and five to open it. -/
theorem request_pays {pullRequest : PullRequest} {tools : PrTools}
    {next : Closed → RunProgram Finished} {rest : ℕ}
    (hreserve : reserve bounds mode logOpen ≤ rest) (hpaid : prSteps * bounds.step + rest ≤ budget)
    (hnext : ∀ closed budget, rest ≤ budget → Pays bounds mode logOpen budget (next closed)) :
    Pays bounds mode logOpen budget (Finish.request pullRequest tools >>= next) := by
  have hbranch : 1 * bounds.step + (5 * bounds.step + rest) ≤ budget := by
    rwa [← Nat.add_assoc, ← Nat.add_mul]
  simp only [Finish.request, bind_assoc]
  unfold Finish.pushedBranch
  split
  · refine branched_pays (fun _ opened ↦ ?_) hreserve (Nat.le_of_add_left_le hbranch) hnext
    cases opened <;> exact ⟨_, rfl⟩
  · rw [bind_assoc]
    apply paying_bind
    refine commands_pays Pr.checkedOut_counts (by omega) hbranch fun budget actual hleft ↦ ?_
    refine branched_pays (fun _ opened ↦ ?_) hreserve hleft hnext
    cases opened <;> exact ⟨_, rfl⟩

/-- What is left of a run after its log is closed. -/
theorem settle_pays {setup : Setup} {exited : Except JobError ExitStatus}
    {next : Closed → RunProgram Finished} (rest : ℕ)
    (hreserve : reserve bounds mode logOpen ≤ rest)
    (hpaid : bounds.post + (prSteps * bounds.step + rest) ≤ budget)
    (hnext : ∀ closed budget, rest ≤ budget → Pays bounds mode logOpen budget (next closed)) :
    Pays bounds mode logOpen budget
      (Finish.settle exited setup.pullRequest setup.tools >>= next) := by
  have hsteps : prSteps * bounds.step + rest ≤ budget - bounds.post := Nat.le_sub_of_add_le' hpaid
  have hrest : rest ≤ budget := by omega
  by_cases hgrants : Grants setup exited
  · rw [settle_of_grants hgrants]
    have hfreeze : patience bounds (.freeze .pr) + reserve bounds mode logOpen ≤ budget := by
      rw [patience, Nat.zero_add]
      exact hreserve.trans hrest
    refine pays_await (by nofun) hfreeze fun _ ↦ pays_await (by nofun) ?_ fun _ ↦ ?_
    · rw [patience, patience]
      omega
    · exact request_pays hreserve hsteps hnext
  · rcases settle_of_not_grants hgrants with ⟨closed, hsettle⟩ | ⟨closed, hsettle⟩
    · rw [hsettle]
      exact hnext closed budget hrest
    · rw [hsettle]
      refine pays_await (by nofun) ?_ fun tail ↦ hnext (closed tail) _ hrest
      rw [patience, Nat.zero_add]
      exact hreserve.trans hrest

/-- The most that is left of a run that exited, once the watcher is stopped. -/
def finishingBudget (bounds : Bounds) : ℕ :=
  bounds.stop + (bounds.close +
    (bounds.post + (prSteps * bounds.step + (bounds.post + bounds.post))))

/-- What is left of a run that exited takes no longer than its budget. -/
theorem finishing_pays {setup : Setup} {exited : Except JobError ExitStatus}
    (h : finishingBudget bounds ≤ budget) :
    Pays bounds .finishing logOpen budget (setup.finishing exited) := by
  have hclosing : closePatience bounds logOpen ≤ bounds.close := by
    unfold closePatience
    split
    · exact Nat.le_refl _
    · exact Nat.zero_le _
  have hclosed : closePatience bounds false = 0 := rfl
  unfold finishingBudget at h
  rw [Setup.finishing_eq]
  refine pays_await (by nofun) ?_ fun _ ↦ pays_close ?_ ?_
  · simp only [patience, reserve]
    omega
  · simp only [patience, reserve, hclosed]
    omega
  · refine settle_pays (bounds.post + bounds.post) ?_ ?_ fun closed budget hleft ↦
      markFailure_pays ?_
    · simp only [reserve, hclosed]
      omega
    · simp only [patience]
      omega
    · simp only [reserve, hclosed]
      omega

end Paid

/-! ## What a run still owes -/

/-- The end of every run: the report and the removal of the output directory. -/
def endBudget (bounds : Bounds) : ℕ := bounds.report + bounds.remove

/-- The most that is left of a run that is stopped. -/
def stoppingBudget (bounds : Bounds) : ℕ :=
  max bounds.stop bounds.post + (bounds.stop + (bounds.close + bounds.post))

/-- The most a run may take once its watcher is started. -/
def spawnedBudget (bounds : Bounds) : ℕ :=
  bounds.drain + (max (bounds.post + finishingBudget bounds) (stoppingBudget bounds) +
    endBudget bounds)

/-- Where the handle of the flusher is that a close takes: a handle that is kept is one the log is
open for, and a close that is begun has taken it. -/
structure LogAt (handle : Handle) (stage : Stage) (program : RunProgram Finished)
    (logOpen : Bool) : Prop where
  kept : handle = .kept → logOpen = true
  begun : stage ≠ .ready → ∀ resume, program = .call .closeLog resume →
    logOpen = true ∧ handle ≠ .kept

/-- The most a run may take from where it stands, the whole of the await under way included. -/
def Owes (bounds : Bounds) (limit : ℕ) (handle : Handle) : Pc → Prop
  | .entered | .validating => bounds.validate + (bounds.watch + spawnedBudget bounds) ≤ limit
  | .watching => bounds.watch + spawnedBudget bounds ≤ limit
  | .spawning | .waiting => spawnedBudget bounds ≤ limit
  | .unwatching _ => bounds.post + finishingBudget bounds + endBudget bounds ≤ limit
  | .performing mode stage program => ∃ logOpen budget, LogAt handle stage program logOpen ∧
      Pays bounds mode logOpen budget program ∧ budget + endBudget bounds ≤ limit
  | .reporting _ | .reported _ _ => endBudget bounds ≤ limit
  | .removing _ _ => bounds.remove ≤ limit
  | .leaving _ _ | .left _ _ => True

section Owed

variable {run next : Run} {mode : Mode} {stage : Stage} {logOpen : Bool} {budget limit : ℕ}
  {handle : Handle}

theorem LogAt.ready {program : RunProgram Finished} (h : handle = .kept → logOpen = true) :
    LogAt handle .ready program logOpen :=
  ⟨h, fun hready ↦ absurd rfl hready⟩

/-- An await that is begun is paid for in full. -/
theorem price_of_begun {call : Call} {resume : call.Answer → RunProgram Finished}
    (hlog : LogAt handle stage (.call call resume) logOpen) (hbegun : stage ≠ .ready) :
    (awaits bounds mode).price logOpen call = patience bounds call := by
  change (if call = .closeLog then closePatience bounds logOpen else patience bounds call) = _
  split
  · rename_i hclose
    subst hclose
    rw [closePatience, (hlog.begun hbegun resume rfl).1]
    rfl
  · rfl

theorem patience_of_begun {call : Call} {resume : call.Answer → RunProgram Finished}
    (hlog : LogAt handle stage (.call call resume) logOpen) (hbegun : stage ≠ .ready)
    (h : Pays bounds mode logOpen budget (.call call resume)) :
    patience bounds call + reserve bounds mode (logOpen && call ≠ .closeLog) ≤ budget := by
  rw [← price_of_begun hlog hbegun]
  exact h.1

/-- The await under way is part of what is owed. -/
theorem patience_le {pc : Pc} (h : Owes bounds limit handle pc) : pc.patience bounds ≤ limit := by
  unfold Owes spawnedBudget endBudget at h
  unfold Pc.patience
  cases pc with
  | performing mode stage program =>
      obtain ⟨logOpen, budget, hlog, hpays, hlimit⟩ := h
      cases program with
      | done finished => exact Nat.zero_le _
      | call request resume =>
          dsimp only
          split
          · exact Nat.zero_le _
          · have hpaid := patience_of_begun hlog ‹_› hpays
            omega
  | removing finished ended =>
      dsimp only at h ⊢
      split
      · exact h
      · exact Nat.zero_le _
  | entered | validating | watching | spawning | waiting | unwatching | reporting | reported
  | leaving | left =>
      dsimp only at h ⊢
      omega

/-- The handle that a close has taken is not kept, and one that it has not found is not either. -/
theorem closeLog_not_kept {poke : Poke} {move : Move .closeLog}
    (h : run.advance .closeLog stage poke = some move) : move.after.log.flusher.handle ≠ .kept := by
  rcases advance_closeLog h with ⟨-, rfl⟩ | ⟨-, log, flusher, hlog, hjoin, rfl⟩
  · unfold closeLog
    split
    · rename_i flusher htake
      change (run.log.flusher.take.getD run.log.flusher).handle ≠ .kept
      rw [htake, Option.getD_some, (Spawned.take_eq_some.mp htake).2]
      exact Handle.noConfusion
    · rename_i htake
      change (run.log.flusher.take.getD run.log.flusher).handle ≠ .kept
      rw [htake, Option.getD_none]
      intro hkept
      rw [Spawned.take, if_pos hkept] at htake
      cases htake
  · subst hlog
    change log.flusher.handle ≠ .kept
    rcases hjoin with hjoin | hexpire
    · rw [(Spawned.join_eq_some.mp hjoin).2.2]
      exact Handle.noConfusion
    · rw [(Spawned.expire_eq_some.mp hexpire).2.2]
      exact Handle.noConfusion

/-- An await that is suspended is begun. -/
theorem begun_of_suspended {call : Call} {poke : Poke} {after : Run} {stage' : Stage}
    (h : run.advance call stage poke = some (.suspended after stage')) : stage' ≠ .ready := by
  unfold advance at h
  split at h
  case h_7 => unfold drainOutput at h; split at h <;> cases h; nofun
  case h_10 => unfold closeLog at h; split at h <;> cases h; nofun
  case h_3 | h_6 | h_8 | h_9 | h_11 | h_12 =>
    obtain ⟨_, -, hmove⟩ := Option.map_eq_some_iff.mp h
    cases hmove <;> nofun
  all_goals first | cases h; nofun | cases h

/-- A close that waits has found the handle kept. -/
theorem kept_of_closeLog {poke : Poke} {after : Run} {stage' : Stage}
    (h : run.advance .closeLog stage poke = some (.suspended after stage')) :
    stage = .ready ∧ run.log.flusher.handle = .kept := by
  rcases advance_closeLog h with ⟨hready, hclose⟩ | ⟨-, _, _, -, -, hanswered⟩
  · refine ⟨hready, ?_⟩
    unfold closeLog at hclose
    split at hclose
    · rename_i htake
      exact (Spawned.take_eq_some.mp htake).1
    · cases hclose
  · cases hanswered

/-- The log is still open for a handle that is kept after an await. -/
theorem kept_after {call : Call} {resume : call.Answer → RunProgram Finished} {poke : Poke}
    {move : Move call} (h : run.advance call stage poke = some move)
    (hlog : LogAt run.log.flusher.handle stage (.call call resume) logOpen)
    (hkept : move.after.log.flusher.handle = .kept) : (logOpen && call ≠ .closeLog) = true := by
  by_cases hclose : call = .closeLog
  · subst hclose
    exact absurd hkept (closeLog_not_kept h)
  · have hsame := (advance_awaited h).log.resolve_left hclose
    rw [hsame] at hkept
    rw [hlog.kept hkept]
    simp [hclose]

/-- An await that is suspended is the one it was. -/
theorem owes_suspended {call : Call} {resume : call.Answer → RunProgram Finished} {poke : Poke}
    {after : Run} {stage' : Stage}
    (hadvance : run.advance call stage poke = some (.suspended after stage'))
    (h : Owes bounds limit run.log.flusher.handle (.performing mode stage (.call call resume))) :
    Owes bounds limit after.log.flusher.handle
      (.performing mode stage' (.call call resume)) := by
  obtain ⟨logOpen, budget, hlog, hpays, hlimit⟩ := h
  have hkept := kept_after hadvance hlog
  refine ⟨logOpen, budget, ⟨fun hhandle ↦ (Bool.and_eq_true _ _ ▸ hkept hhandle).1, ?_⟩, hpays,
    hlimit⟩
  intro _ other hother
  cases hother
  exact ⟨hlog.kept (kept_of_closeLog hadvance).2, closeLog_not_kept hadvance⟩

/-- An await that is over has taken its patience at most. -/
theorem owes_answered {call : Call} {resume : call.Answer → RunProgram Finished} {poke : Poke}
    {after : Run} {answer : call.Answer}
    (hadvance : run.advance call stage poke = some (.answered after answer))
    (h : Owes bounds limit run.log.flusher.handle (.performing mode stage (.call call resume))) :
    Owes bounds (limit - Pc.patience bounds (.performing mode stage (.call call resume)))
      after.log.flusher.handle (.performing mode .ready (resume answer)) := by
  obtain ⟨logOpen, budget, hlog, hpays, hlimit⟩ := h
  refine ⟨_, _, .ready (kept_after hadvance hlog), hpays.answered answer trivial, ?_⟩
  change budget - (awaits bounds mode).price logOpen call + endBudget bounds ≤
    limit - (if stage = .ready then 0 else patience bounds call)
  split
  · omega
  · have hpaid := patience_of_begun hlog ‹_› hpays
    rw [price_of_begun hlog ‹_›]
    omega

theorem owes_beside {action : Action} (haction : action.OfTask)
    (hstep : step run action = some next)
    (h : Owes bounds limit run.log.flusher.handle run.pc) :
    Owes bounds limit next.log.flusher.handle next.pc := by
  rw [(step_beside haction hstep).pc, (step_flusher haction hstep).handle]
  exact h

theorem abandon_not_kept {call : Call} {resume : call.Answer → RunProgram Finished}
    (hlog : LogAt run.log.flusher.handle stage (.call call resume) logOpen)
    (hbegun : stage ≠ .ready) (hkept : (run.abandon call).log.flusher.handle = .kept) :
    (logOpen && call ≠ .closeLog) = true := by
  by_cases hclose : call = .closeLog
  · subst hclose
    change run.log.flusher.detach.handle = .kept at hkept
    unfold Spawned.detach at hkept
    split at hkept
    · cases hkept
    · exact absurd hkept (hlog.begun hbegun resume rfl).2
  · rw [abandon_log run hclose] at hkept
    rw [hlog.kept hkept]
    simp [hclose]

theorem Serves.not_ofTask {action : Action} (h : Serves run action next) : ¬ action.OfTask := by
  cases h <;> exact id

/-- An await that is not begun takes no time. -/
theorem patience_of_not_begun {call : Call} {resume : call.Answer → RunProgram Finished}
    (hpc : run.pc = .performing mode stage (.call call resume)) (h : run.pc.begun = false) :
    run.pc.patience bounds = 0 := by
  rw [hpc] at h ⊢
  exact if_pos (of_not_not (of_decide_eq_false h))

/-- A step of `serve_run` goes on with the await under way, or pays what that may have taken. -/
theorem owes_serves {action : Action} (hserves : Serves run action next)
    (h : Owes bounds limit run.log.flusher.handle run.pc) :
    (next.pc.begun = true ∧ run.pc.patience bounds ≤ next.pc.patience bounds ∧
      Owes bounds limit next.log.flusher.handle next.pc) ∨
    (next.pc.begun = false ∧
      Owes bounds (limit - run.pc.patience bounds) next.log.flusher.handle next.pc) := by
  cases hserves with
  | accepted hpc =>
      rw [hpc] at h ⊢
      exact .inr ⟨rfl, h⟩
  | mismatched hpc =>
      rw [hpc] at h ⊢
      refine .inr ⟨rfl, ?_⟩
      simp only [Owes, spawnedBudget, Pc.patience] at h ⊢
      omega
  | validated hpc =>
      rw [hpc] at h ⊢
      refine .inr ⟨rfl, ?_⟩
      simp only [Owes, Pc.patience] at h ⊢
      omega
  | invalid error hpc =>
      rw [hpc] at h ⊢
      refine .inr ⟨rfl, ?_⟩
      simp only [Owes, spawnedBudget, Pc.patience] at h ⊢
      omega
  | started hpc =>
      rw [hpc] at h ⊢
      refine .inr ⟨rfl, ?_⟩
      simp only [Owes, Pc.patience] at h ⊢
      omega
  | spawned hpc =>
      rw [hpc] at h ⊢
      exact .inr ⟨rfl, h⟩
  | unspawned error hpc =>
      rw [hpc] at h ⊢
      refine .inr ⟨rfl, true, _, .ready fun _ ↦ rfl, unspawned_pays (Nat.le_refl _), ?_⟩
      simp only [Owes, spawnedBudget, finishingBudget, Pc.patience, closePatience_true] at h ⊢
      omega
  | exited result hpc hexit =>
      rw [hpc] at h ⊢
      refine .inr ⟨rfl, ?_⟩
      change bounds.post + finishingBudget bounds + endBudget bounds ≤ limit - bounds.drain
      simp only [Owes, spawnedBudget] at h
      omega
  | unwatched result watcher hpc =>
      rw [hpc] at h ⊢
      refine .inr ⟨rfl, true, _, .ready fun _ ↦ rfl, finishing_pays (Nat.le_refl _), ?_⟩
      simp only [Owes, Pc.patience] at h ⊢
      omega
  | stopped terminal inbox hpc =>
      rw [hpc] at h ⊢
      refine .inr ⟨rfl, true, _, .ready fun _ ↦ rfl, stop_pays (Nat.le_refl _), ?_⟩
      change stoppingBudget bounds + endBudget bounds ≤ limit - bounds.drain
      simp only [Owes, spawnedBudget] at h
      omega
  | ignored inbox stage call resume hpc =>
      rw [taken_pc, taken_log]
      cases hbegun : run.pc.begun with
      | true => exact .inl ⟨rfl, Nat.le_refl _, h⟩
      | false =>
          rw [patience_of_not_begun hpc hbegun]
          exact .inr ⟨rfl, h⟩
  | interrupted terminal inbox stage call resume hterminal hpc hinbox hsuspended =>
      rw [hpc] at h ⊢
      obtain ⟨logOpen, budget, hlog, hpays, hlimit⟩ := h
      have htaken : LogAt (run.taken terminal inbox).log.flusher.handle stage _ logOpen := hlog
      have hkept := abandon_not_kept htaken hsuspended.1
      have hpaid := patience_of_begun hlog hsuspended.1 hpays
      refine .inr ⟨rfl, logOpen && call ≠ .closeLog, _, .ready hkept,
        interrupt_pays (Nat.le_refl _), ?_⟩
      simp only [Pc.patience, hsuspended.1, if_false, reserve] at hpaid ⊢
      omega
  | suspended hpc hadvance =>
      rw [hpc] at h ⊢
      have howes := owes_suspended hadvance h
      have hbegun := begun_of_suspended hadvance
      refine .inl ⟨decide_eq_true hbegun, ?_, howes⟩
      simp only [Pc.patience, hbegun, if_false]
      split
      · exact Nat.zero_le _
      · exact Nat.le_refl _
  | answered hpc hadvance =>
      rw [hpc] at h ⊢
      have howes := owes_answered hadvance h
      exact .inr ⟨rfl, howes⟩
  | concluded finished hpc =>
      rw [hpc] at h ⊢
      obtain ⟨logOpen, budget, hlog, hpays, hlimit⟩ := h
      exact .inr ⟨rfl, Nat.le_of_add_left_le hlimit⟩
  | reported finished completion hpc =>
      rw [hpc] at h ⊢
      exact .inr ⟨rfl, h⟩
  | silent finished hpc =>
      rw [hpc] at h ⊢
      exact .inr ⟨rfl, Nat.le_of_add_left_le h⟩
  | heard finished completion answer hpc =>
      rw [hpc] at h ⊢
      exact .inr ⟨rfl, Nat.le_sub_of_add_le' h⟩
  | removed finished ended hpc => exact .inr ⟨rfl, trivial⟩
  | left finished ended hpc => exact .inr ⟨rfl, trivial⟩

end Owed

/-- The most a run may take from its entry on. -/
def totalBudget (bounds : Bounds) : ℕ := bounds.validate + (bounds.watch + spawnedBudget bounds)

namespace Clocked

variable {clocked next : Clocked}

/-- The time that has passed and what the run still owes are within the budget of a whole run; what
was spent on the await under way is owed with it. -/
def InBudget (bounds : Bounds) (clocked : Clocked) : Prop :=
  ∃ limit, Owes bounds limit clocked.run.log.flusher.handle clocked.run.pc ∧
    clocked.elapsed + limit ≤ totalBudget bounds + clocked.spent ∧
    clocked.spent ≤ clocked.run.pc.patience bounds

/-- An action leaves no more to be paid for than there was. -/
theorem inBudget_acts {action : Action} (h : clocked.InBudget bounds)
    (hstep : clocked.acts action = some next) : next.InBudget bounds := by
  obtain ⟨limit, howes, helapsed, hspent⟩ := h
  obtain ⟨run, hrun, rfl⟩ := Option.map_eq_some_iff.mp hstep
  rcases step_cases hrun with ⟨htask, hbeside⟩ | hserves
  · refine ⟨limit, owes_beside htask hrun howes, ?_, ?_⟩
    · simp only [htask, true_or, if_true]
      exact helapsed
    · simp only [htask, true_or, if_true, hbeside.pc]
      exact hspent
  · have hown := hserves.not_ofTask
    rcases owes_serves hserves howes with ⟨hbegun, hpatience, hlimit⟩ | ⟨hbegun, hlimit⟩
    · refine ⟨limit, hlimit, ?_, ?_⟩
      · simp only [hbegun, or_true, if_true]
        exact helapsed
      · simp only [hbegun, or_true, if_true]
        exact hspent.trans hpatience
    · have hwithin := patience_le howes
      refine ⟨_, hlimit, ?_, ?_⟩
      · simp only [hown, hbegun, Bool.false_eq_true, or_self, if_false]
        omega
      · simp only [hown, hbegun, Bool.false_eq_true, or_self, if_false]
        exact Nat.zero_le _

/-- A run stays within its budget, whether time passes or something is done. -/
theorem inBudget_step {tick : Tick} (h : clocked.InBudget bounds)
    (hstep : step bounds clocked tick = some next) : next.InBudget bounds := by
  cases tick with
  | signal =>
      cases hstep
      exact h
  | passes nanos =>
      obtain ⟨limit, howes, helapsed, hspent⟩ := h
      simp only [step, passes] at hstep
      split at hstep
      · split at hstep <;> cases hstep
        rename_i hwithin
        refine ⟨limit, howes, ?_, hwithin⟩
        dsimp only
        omega
      · cases hstep
        exact ⟨limit, howes, helapsed, hspent⟩
  | acts action => exact inBudget_acts h hstep

/-- A run is within its budget in every state. -/
theorem inBudget_of_reachable (h : (machine bounds).Reachable clocked) :
    clocked.InBudget bounds := by
  apply h.invariant
  · intro state ⟨setup, hstate⟩
    subst hstate
    exact ⟨totalBudget bounds, Nat.le_refl _, (Nat.zero_add _).le, Nat.zero_le _⟩
  · intro state tick after hstate _ hstep
    exact inBudget_step hstate hstep

theorem elapsed_le (h : (machine bounds).Reachable clocked) :
    clocked.elapsed ≤ totalBudget bounds := by
  obtain ⟨limit, howes, helapsed, hspent⟩ := inBudget_of_reachable h
  have hwithin := patience_le howes
  omega

end Clocked

/-- The budget of a run is the exit timeout, to the nanosecond. -/
theorem totalBudget_ofDrain {drainTimeout exit : Duration}
    (h : Service.exitTimeout drainTimeout = some exit) :
    totalBudget (.ofDrain drainTimeout) = exit.nanos := by
  have hvalidate : (Bounds.ofDrain drainTimeout).validate = 30 * nanosPerSec :=
    nanos_fromSecs 30 (by decide)
  have hwatch : (Bounds.ofDrain drainTimeout).watch = 10 * nanosPerSec :=
    nanos_fromSecs 10 (by decide)
  have hdrain : (Bounds.ofDrain drainTimeout).drain = drainTimeout.nanos := rfl
  have hstop : (Bounds.ofDrain drainTimeout).stop = 10 * nanosPerSec :=
    nanos_fromSecs 10 (by decide)
  have hpost : (Bounds.ofDrain drainTimeout).post = 10 * nanosPerSec :=
    nanos_fromSecs 10 (by decide)
  have hclose : (Bounds.ofDrain drainTimeout).close = 30 * nanosPerSec :=
    nanos_fromSecs 30 (by decide)
  have hstep : (Bounds.ofDrain drainTimeout).step = 120 * nanosPerSec :=
    nanos_fromSecs 120 (by decide)
  have hreport : (Bounds.ofDrain drainTimeout).report = 240 * nanosPerSec := by
    change completeBudget.nanos + retryMaxDelay.nanos + requestTimeout.nanos = _
    rw [completeBudget, leaseTtl, retryMaxDelay, requestTimeout, nanos_fromSecs, nanos_fromSecs,
      ← Nat.add_mul, ← Nat.add_mul]
  have hremove : (Bounds.ofDrain drainTimeout).remove = 10 * nanosPerSec :=
    nanos_fromSecs 10 (by decide)
  rw [Service.exitTimeout_eq_some.mp h, Service.exitOverhead]
  unfold totalBudget spawnedBudget stoppingBudget finishingBudget endBudget prSteps
  rw [hvalidate, hwatch, hdrain, hstop, hpost, hclose, hstep, hreport, hremove]
  generalize nanosPerSec = unit
  omega

/-- Once the shutdown signal is raised, whenever that is, a run takes no longer than launchd waits
for the daemon. -/
theorem shutdown_in_time {drainTimeout exit : Duration} {clocked : Clocked}
    (hexit : Service.exitTimeout drainTimeout = some exit)
    (h : (Clocked.machine (.ofDrain drainTimeout)).Reachable clocked) :
    clocked.elapsed ≤ exit.nanos := by
  rw [← totalBudget_ofDrain hexit]
  exact Clocked.elapsed_le h

/-- A run whose checkout is inspected for as long as it may be, the signal raised at its entry. -/
theorem reachable_validating (bounds : Bounds) : (Clocked.machine bounds).Reachable
    ⟨{ enter (native .yes) with pc := .validating }, true, 0 + bounds.validate,
      0 + bounds.validate⟩ := by
  have hentered : (Clocked.machine bounds).Reachable ⟨enter (native .yes), false, 0, 0⟩ :=
    .init ⟨native .yes, rfl⟩
  have hsignal : (Clocked.machine bounds).step ⟨enter (native .yes), false, 0, 0⟩ .signal =
      some ⟨enter (native .yes), true, 0, 0⟩ := rfl
  have hbegins : (Clocked.machine bounds).step ⟨enter (native .yes), true, 0, 0⟩ (.acts .begins) =
      some ⟨{ enter (native .yes) with pc := .validating }, true, 0, 0⟩ := rfl
  have hpasses : (Clocked.machine bounds).step
      ⟨{ enter (native .yes) with pc := .validating }, true, 0, 0⟩ (.passes bounds.validate) =
        some ⟨{ enter (native .yes) with pc := .validating }, true, 0 + bounds.validate,
          0 + bounds.validate⟩ := if_pos (Nat.zero_add _).le
  exact ((hentered.step trivial hsignal).step trivial hbegins).step trivial hpasses

theorem shutdown_in_time_validating : ∃ (clocked : Clocked) (exit : Duration),
    Service.exitTimeout (fromSecs 120 (by decide)) = some exit ∧
      clocked.elapsed = 0 + validateTimeout.nanos ∧ clocked.elapsed ≤ exit.nanos := by
  have hexit := Service.exitTimeout_fromSecs 120 (by decide)
  have hreachable := reachable_validating (.ofDrain (fromSecs 120 (by decide)))
  exact ⟨_, _, hexit, rfl, shutdown_in_time hexit hreachable⟩

end Run

end RalphexRunner
