import RalphexRunner.Agent.Verdict
import RalphexRunner.Ipc.Responses
import RalphexRunner.PullRequest.Endings

/-!
# What the end of a run quotes

How a run ended is told in texts that come from beyond the run: what `git` and `gh` printed, what
went wrong with the job, and what the farm said.  `Run.Modest` asks of each step that brings such a
text in that the text leaves room for the rest of a frame.  A run whose steps are all modest ends
with texts that fit a frame.
-/

namespace RalphexRunner

open Program

/-- What the answers so far hold for the end: where a description that was read is kept, and the URL
of a pull request that was there already. -/
structure Heard where
  kept : Option Text
  url : Option Text

namespace Heard

def nothing : Heard := ⟨none, none⟩

def observe (setup : Setup) (heard : Heard) : (call : Call) → call.Answer → Heard
  | .describe, read => { heard with kept := read.toOption.bind fun _ ↦ setup.prFile }
  | .step command, outcome =>
      { heard with
        url := Pr.remembered heard.url command (Pr.stepResult setup.tools command outcome) }
  | _, _ => heard

end Heard

namespace Finish

/-- The completion of a pull-request sequence. -/
def opened (kept : Option Text) : Except PrError Text → Closed
  | .ok url => removed (done url)
  | .error error => pullRequestFailed error kept

end Finish

/-- Where an answer ends the sequence, what it says leaves room for the rest of a frame. -/
def Quotable (setup : Setup) (heard : Heard) : (call : Call) → call.Answer → Prop
  | .step command, outcome => ∀ result,
      Pr.ending heard.url command (Pr.stepResult setup.tools command outcome) = some result →
        (Finish.opened heard.kept result).completion.Roomy
  | _, _ => True

/-- What the exit of a run says leaves room for the rest of a frame. -/
def ExitRoomy : Except JobError ExitStatus → Prop
  | .error error => (failed error.failReason error.message []).Roomy
  | .ok status => (failed "nonzero_exit".toList (exitMessage status) []).Roomy

/-- What `execute` returned leaves room for the rest of a frame. -/
structure Finished.Roomy (finished : Finished) : Prop where
  completion : ∀ completion, finished.completion = some completion → completion.Roomy
  outcome : (unsent finished.outcome).Roomy

def quoting {α : Type} (setup : Setup) (ends : Heard → α → Prop) :
    Protocol Call Call.Answer α Heard where
  permits _ _ := True
  promises := Quotable setup
  move := Heard.observe setup
  ends := ends

namespace Finish

variable {α : Type} {setup : Setup} {heard : Heard} {exited : Except JobError ExitStatus}

/-- Completions of one text that are always short. -/
theorem roomy_done : (done []).Roomy := by
  unfold CompleteRequest.Roomy
  decide

theorem markFailure_quoting {ends : Heard → Finished → Prop} {finished : Finished}
    (h : ∀ heard, ends heard finished) (completion : Option CompleteRequest) :
    Follows (quoting setup ends) heard (markFailure completion >>= fun _ ↦ .done finished) := by
  rcases markFailure_cases completion fun _ ↦ .done finished with ⟨hnothing, -⟩ |
    ⟨-, -, -, hpost⟩
  · rw [hnothing]
    exact h heard
  · rw [hpost]
    exact ⟨trivial, fun _ _ ↦ ⟨trivial, fun _ _ ↦ h _⟩⟩

/-- The look at the checked-out branch holds nothing for the end. -/
theorem pushedBranch_quoting (pullRequest : PullRequest) :
    Follows (quoting setup fun heard' _ ↦ heard' = heard) heard
      (pushedBranch pullRequest setup.tools) := by
  unfold pushedBranch
  cases pullRequest.worktree with
  | yes => rfl
  | no =>
      refine ⟨trivial, fun outcome _ ↦ ?_⟩
      change Follows _ heard _
      dsimp only [Program.bind, pure_eq]
      split
      · rfl
      · rfl

theorem written_quoting : Follows
    (quoting setup fun heard written ↦
      heard = ⟨written.bind fun _ ↦ setup.pullRequest.prFile, none⟩) .nothing
    (written setup.pullRequest) := by
  unfold written
  cases hfile : setup.pullRequest.prFile with
  | none => rfl
  | some file =>
      exact ⟨trivial, fun read _ ↦
        congrArg (fun file ↦ Heard.mk (read.toOption.bind fun _ ↦ file) none) hfile⟩

/-- The completion of a pull request that was asked for is the one its last step ended with. -/
theorem request_quoting : Follows (quoting setup fun _ closed ↦ closed.completion.Roomy) .nothing
    (request setup.pullRequest setup.tools) := by
  unfold request
  refine Follows.bind ((pushedBranch_quoting setup.pullRequest).imp fun heard branch hheard ↦ ?_)
  subst hheard
  refine Follows.bind (written_quoting.imp fun heard description hheard ↦ ?_)
  subst hheard
  refine Follows.bind ?_
  generalize description.bind (fun _ ↦ setup.pullRequest.prFile) = kept
  have hsequence (spec : PrSpec) : Follows
      (Pr.endingWell setup.tools fun result ↦ (opened kept result).completion.Roomy) none
      (Pr.openPullRequest spec setup.tools) := Pr.openPullRequest_endingWell
  refine Follows.translate (fun url heard ↦ heard = ⟨kept, url⟩) (fun _ _ _ ↦ trivial)
    ?_ ?_ rfl (hsequence _)
  · intro url heard command outcome hheard _ hquotable
    subst hheard
    exact ⟨hquotable, rfl⟩
  · intro url heard result _ hroomy
    cases result with
    | ok url => exact hroomy
    | error error => exact hroomy

theorem settle_quoting (h : ExitRoomy exited) :
    Follows (quoting setup fun _ closed ↦ closed.completion.Roomy) .nothing
      (settle exited setup.pullRequest setup.tools) := by
  unfold settle
  cases exited with
  | error error => exact h
  | ok status =>
      dsimp only
      split
      · cases setup.pullRequest.createPr with
        | no => exact roomy_done
        | yes => exact ⟨trivial, fun _ _ ↦ ⟨trivial, fun _ _ ↦ request_quoting⟩⟩
      · exact ⟨trivial, fun _ _ ↦ h⟩

/-- A run whose exit and whose answers leave room comes to an end that does. -/
theorem finishing_quoting (h : ExitRoomy exited) :
    Follows (quoting setup fun _ finished ↦ finished.Roomy) .nothing (setup.finishing exited) := by
  rw [Setup.finishing_eq]
  refine ⟨trivial, fun _ _ ↦ ⟨trivial, fun _ _ ↦ ?_⟩⟩
  refine Follows.bind ((settle_quoting h).imp fun heard closed hroomy ↦ ?_)
  refine markFailure_quoting (fun _ ↦ ?_) _
  exact ⟨fun completion hsome ↦ Option.some.inj hsome ▸ hroomy, trivial⟩

/-- A terminal that is not told apart by a text is always short. -/
theorem roomy_stopped {terminal : Terminal}
    (h : ∀ message, terminal = .versionMismatch message → (RunEnd.versionMismatch message).Roomy)
    (output : Option Text) : (stopped terminal output).Roomy := by
  have hcanceled : (failed "canceled".toList "the run was canceled".toList []).Roomy := by
    unfold CompleteRequest.Roomy
    decide
  have hdrained : (failed "runner_shutdown".toList
      "the runner shut down while the run was in flight".toList []).Roomy := by
    unfold CompleteRequest.Roomy
    decide
  cases terminal with
  | cancel => exact ⟨fun _ hsome ↦ Option.some.inj hsome ▸ hcanceled, trivial⟩
  | drain => exact ⟨fun _ hsome ↦ Option.some.inj hsome ▸ hdrained, trivial⟩
  | gone => exact ⟨nofun, trivial⟩
  | versionMismatch message => exact ⟨nofun, h message rfl⟩

theorem interrupt_quoting {terminal : Terminal} {output : Option Text}
    (h : (stopped terminal output).Roomy) :
    Follows (quoting setup fun _ finished ↦ finished.Roomy) heard
      (interrupt terminal output) := by
  rw [interrupt_eq]
  exact ⟨trivial, fun _ _ ↦ markFailure_quoting (fun _ ↦ h) _⟩

theorem stop_quoting {terminal : Terminal} {output : Option Text}
    (h : (stopped terminal output).Roomy) :
    Follows (quoting setup fun _ finished ↦ finished.Roomy) heard (stop terminal output) := by
  rw [stop_eq]
  exact ⟨trivial, fun _ _ ↦ ⟨trivial, fun _ _ ↦ interrupt_quoting h⟩⟩

theorem unspawned_quoting {error : JobError} (output : Option Text)
    (h : (failed error.failReason error.message []).Roomy) :
    Follows (quoting setup fun _ finished ↦ finished.Roomy) heard (unspawned error output) := by
  rw [unspawned_eq]
  refine ⟨trivial, fun _ _ ↦ ⟨trivial, fun _ _ ↦ markFailure_quoting (fun _ ↦ ?_) _⟩⟩
  exact ⟨fun _ hsome ↦ Option.some.inj hsome ▸ h, trivial⟩

end Finish

namespace Run

variable {run next : Run}

/-- What an event holds for the end. -/
def noted (setup : Setup) (heard : Heard) : Event → Heard
  | .answered exchange => heard.observe setup exchange.1 exchange.2
  | _ => heard

/-- What the answers of a run hold for its end, as far as it has got. -/
def gathered (setup : Setup) (trace : List Event) : Heard := trace.foldl (noted setup) .nothing

/-- The texts a step brings in leave room for the rest of a frame. -/
def Modest (run : Run) : Action → Prop
  | .begins => run.setup.job.runtime ≠ runtimeName →
      (runtimeMismatch run.setup.job.runtime).Roomy
  | .validates (.error error) | .spawns (.error error) =>
      (failed error.failReason error.message []).Roomy
  | .takesExit => ∀ result, run.exit = some result → ExitRoomy result
  | .consumes => ∀ message inbox, run.inbox = .versionMismatch message :: inbox →
      (RunEnd.versionMismatch message).Roomy
  | .pokes (.ends outcome) => ∀ mode stage command resume,
      run.pc = .performing mode stage (.call (.step command) resume) →
        Quotable run.setup (gathered run.setup run.trace) (.step command) outcome
  | .hears (.error error) => error ≠ .gone → ∀ finished completion,
      run.pc = .reported finished completion → Brief (unreported completion error)
  | _ => True

/-- Where `serve_run` stands it can only end with texts that leave room. -/
def Quotes (setup : Setup) (heard : Heard) : Pc → Prop
  | .entered | .validating | .watching | .spawning | .waiting => heard = .nothing
  | .unwatching result => heard = .nothing ∧ ExitRoomy result
  | .performing _ _ program =>
      Follows (quoting setup fun _ finished ↦ finished.Roomy) heard program
  | .reporting finished => finished.Roomy
  | .reported finished completion => finished.Roomy ∧ finished.completion = some completion
  | .removing _ ended | .leaving _ ended | .left _ ended => ended.Roomy

theorem gathered_append (setup : Setup) (trace : List Event) {events : List Event}
    (h : ∀ event ∈ events, ∀ heard, noted setup heard event = heard) :
    gathered setup (trace ++ events) = gathered setup trace := by
  rw [gathered, List.foldl_append, ← gathered]
  generalize gathered setup trace = heard
  induction events with
  | nil => rfl
  | cons event events ih =>
      rw [List.foldl_cons, h event List.mem_cons_self heard]
      exact ih fun other hother ↦ h other (List.mem_cons_of_mem event hother)

theorem gathered_snoc (setup : Setup) (trace : List Event) (event : Event) :
    gathered setup (trace ++ [event]) = noted setup (gathered setup trace) event := by
  rw [gathered, List.foldl_concat, ← gathered]

theorem Added.unnoted {call : Call} {events : List Event} (h : Added call events) (setup : Setup) :
    ∀ event ∈ events, ∀ heard, noted setup heard event = heard := by
  cases h with
  | nothing => exact nofun
  | due | stepped =>
      intro event hevent heard
      cases List.mem_singleton.mp hevent
      rfl

/-- Only the end of a command answers a step. -/
theorem quotable_of_advance {call : Call} {stage : Stage} {poke : Poke} {after : Run}
    {answer : call.Answer} {heard : Heard}
    (h : run.advance call stage poke = some (.answered after answer))
    (hmodest : ∀ command outcome, call = .step command → poke = .ends outcome →
      Quotable run.setup heard (.step command) outcome) :
    Quotable run.setup heard call answer := by
  cases call with
  | step command =>
      cases stage <;> cases poke <;> try cases h
      exact hmodest command _ rfl rfl
  | _ => trivial

theorem quotes_of_beside (h : Beside run next)
    (hquotes : Quotes run.setup (gathered run.setup run.trace) run.pc) :
    Quotes next.setup (gathered next.setup next.trace) next.pc := by
  obtain ⟨hsetup, hpc, events, htrace, hbackground⟩ := h
  rw [hsetup, hpc, htrace, gathered_append]
  · exact hquotes
  · intro event hevent heard
    have hevent := hbackground event hevent
    cases event <;> first | exact hevent.elim | rfl

/-- A step of a modest run quotes what leaves room for the rest. -/
theorem quotes_of_serves {action : Action} (h : Serves run action next)
    (hmodest : run.Modest action)
    (hquotes : Quotes run.setup (gathered run.setup run.trace) run.pc) :
    Quotes next.setup (gathered next.setup next.trace) next.pc := by
  cases h with
  | accepted hpc | validated hpc | started hpc => rw [hpc] at hquotes; exact hquotes
  | mismatched hpc hruntime =>
      exact ⟨fun _ hsome ↦ Option.some.inj hsome ▸ hmodest hruntime, trivial⟩
  | invalid error hpc => exact ⟨fun _ hsome ↦ Option.some.inj hsome ▸ hmodest, trivial⟩
  | spawned hpc =>
      rw [hpc] at hquotes
      exact (gathered_snoc _ _ _).trans hquotes
  | unspawned error hpc => exact Finish.unspawned_quoting _ hmodest
  | exited result hpc hexit =>
      rw [hpc] at hquotes
      exact ⟨(gathered_snoc _ _ _).trans hquotes, hmodest result hexit⟩
  | unwatched result watcher hpc =>
      rw [hpc] at hquotes
      obtain ⟨hnothing, hroomy⟩ := hquotes
      change Follows _ (gathered run.setup run.trace) _
      rw [hnothing]
      exact Finish.finishing_quoting hroomy
  | stopped terminal inbox hpc hexit hinbox =>
      exact Finish.stop_quoting (Finish.roomy_stopped (fun message hterminal ↦
        hmodest message inbox (hterminal ▸ hinbox)) _)
  | ignored inbox stage call resume hpc =>
      rw [taken_setup, taken_trace, taken_pc, gathered_snoc]
      exact hquotes
  | interrupted terminal inbox stage call resume hterminal hpc hinbox =>
      exact Finish.interrupt_quoting (Finish.roomy_stopped (fun message hversion ↦
        hmodest message inbox (hversion ▸ hinbox)) _)
  | suspended hpc hadvance =>
      rw [hpc] at hquotes
      obtain ⟨hsetup, -, -, -, -, -, events, htrace, hadded⟩ := advance_awaited hadvance
      have hsame := gathered_append run.setup run.trace (hadded.unnoted run.setup)
      rw [← htrace, ← hsetup] at hsame
      rw [← hsetup, ← hsame] at hquotes
      exact hquotes
  | @answered mode stage call resume poke after answer hpc hadvance =>
      rw [hpc] at hquotes
      obtain ⟨hsetup, -, -, -, -, -, events, htrace, hadded⟩ := advance_awaited hadvance
      have hsame := gathered_append run.setup run.trace (hadded.unnoted run.setup)
      have hquotable := quotable_of_advance hadvance fun command outcome hcall hpoke ↦ by
        subst hcall hpoke
        exact hmodest mode stage command resume hpc
      have hanswered := hquotes.answered answer hquotable
      rw [← hsame, ← htrace, ← hsetup] at hanswered
      rw [emit_trace, gathered_snoc]
      exact hanswered
  | concluded finished hpc =>
      rw [hpc] at hquotes
      exact hquotes
  | reported finished completion hpc hcompletion =>
      rw [hpc] at hquotes
      exact ⟨hquotes, hcompletion⟩
  | silent finished hpc =>
      rw [hpc] at hquotes
      exact hquotes.outcome
  | heard finished completion answer hpc =>
      rw [hpc] at hquotes
      obtain ⟨hroomy, hcompletion⟩ := hquotes
      cases answer with
      | ok _ => exact hroomy.completion completion hcompletion
      | error error =>
          cases error with
          | gone => trivial
          | _ => exact hmodest (by simp) finished completion hpc
  | removed finished ended hpc | left finished ended hpc => rw [hpc] at hquotes; exact hquotes

/-- A run whose steps are all modest ends with texts that leave room for the rest of a frame. -/
theorem quotes_of_reachableBy (h : machine.ReachableBy Modest run) :
    Quotes run.setup (gathered run.setup run.trace) run.pc := by
  refine h.invariant (fun run ↦ Quotes run.setup (gathered run.setup run.trace) run.pc) ?_ ?_
  · rintro _ ⟨setup, rfl⟩
    rfl
  · intro run action next hquotes hmodest hstep
    rcases step_cases hstep with ⟨-, hbeside⟩ | hserves
    · exact quotes_of_beside hbeside hquotes
    · exact quotes_of_serves hserves hmodest hquotes

end Run

end RalphexRunner
