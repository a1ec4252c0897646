import RalphexRunner.Protocol.Types
import RalphexRunner.Text.Chars

/-!
# Section markers and the phase of a run

`marker` classifies one plain line of a run's output.  A `PhaseTracker` turns the markers into the
phase the next snapshot carries and into requests for a snapshot; a request stays pending until the
poster takes it, and the stored permit is what wakes the poster.
-/

namespace RalphexRunner

/-- A section marker ralphex prints between the stages of a run. -/
inductive Marker where
  | taskIteration
  | review
  deriving DecidableEq

def markerMaxBytes : ℕ := 256

/-- One or more digits and nothing else. -/
def isNumber (text : Text) : Bool := !text.isEmpty && text.all isDigit

def isTaskIteration (line : Text) : Bool :=
  (enclosed "--- task iteration ".toList " ---".toList line).any isNumber

def isReview (line : Text) : Bool :=
  (enclosed "--- claude review ".toList " ---".toList line).any
      (fun middle ↦ middle.head?.any isDigit && !middle.contains '\n') ||
    line = "--- codex external review ---".toList ||
    (enclosed "--- codex iteration ".toList " ---".toList line).any isNumber ||
    line = "--- claude evaluating codex findings ---".toList

def marker (line : Text) : Option Marker :=
  if markerMaxBytes < Utf8.size line then none
  else if isTaskIteration line then some .taskIteration
  else if isReview line then some .review
  else none

inductive Freeze where
  | open
  | frozen
  deriving DecidableEq

inductive Request where
  | idle
  | pending
  deriving DecidableEq

/-- The phase of one run, the pending request for a snapshot of it, and the stored wake-up. -/
structure PhaseTracker where
  phase : Phase
  freeze : Freeze
  request : Request
  permit : Bool
  deriving DecidableEq

namespace PhaseTracker

def new : PhaseTracker := ⟨.setup, .open, .idle, false⟩

def requests (tracker : PhaseTracker) : PhaseTracker :=
  { tracker with request := .pending, permit := true }

/-- Move the phase on a marker; a task iteration always counts as a change, a review only where the
phase was another. -/
def moves (tracker : PhaseTracker) : Marker → PhaseTracker
  | .taskIteration => { tracker with phase := .tasks }.requests
  | .review =>
      if tracker.phase = .review then tracker else { tracker with phase := .review }.requests

/-- Move the phase on the marker a line is, if it is one, until the phase is fixed. -/
def observe (tracker : PhaseTracker) (line : Text) : PhaseTracker :=
  match marker line, tracker.freeze with
  | none, _ => tracker
  | some _, .frozen => tracker
  | some marker, .open => tracker.moves marker

def fix (tracker : PhaseTracker) (phase : Phase) : PhaseTracker :=
  { tracker with phase, freeze := .frozen }

def takeRequest (tracker : PhaseTracker) : Request × PhaseTracker :=
  (tracker.request, { tracker with request := .idle })

def wakes (tracker : PhaseTracker) : Option PhaseTracker :=
  if tracker.permit then some { tracker with permit := false } else none

theorem moves_phase (tracker : PhaseTracker) (marker : Marker) :
    (tracker.moves marker).phase = tracker.phase ∨ (tracker.moves marker).phase ≠ .pr := by
  cases marker with
  | taskIteration => simp [moves, requests]
  | review =>
      simp only [moves]
      split
      · exact .inl rfl
      · simp [requests]

/-- A printed line never moves the phase into the pull request. -/
theorem observe_phase (tracker : PhaseTracker) (line : Text) :
    (tracker.observe line).phase = tracker.phase ∨ (tracker.observe line).phase ≠ .pr := by
  unfold observe
  split
  · exact .inl rfl
  · exact .inl rfl
  · exact moves_phase tracker _

example : marker "--- task iteration 3 ---".toList = some .taskIteration := by decide

example : marker "--- claude review 1: second pass ---".toList = some .review := by decide

end PhaseTracker

end RalphexRunner
