import RalphexRunner.Ipc.Follow
import RalphexRunner.Ipc.Framing
import RalphexRunner.Text.Json
import RalphexRunner.Text.Search

/-!
# How large a response is

A response is an object with one member, named after its kind.  What a line or an error takes on
the wire is what its text takes and a constant, and what the end of a run takes is what its three
texts take and a constant.

A piece of output decodes to three times its bytes at most, and escaping expands that sixfold at
most, so a line the assembler handed over always fits a frame.  How a run ended fits a frame exactly
where its texts do.
-/

namespace RalphexRunner

open Follow

def CompleteStatus.name : CompleteStatus → Text
  | .done => "done".toList
  | .error => "error".toList

namespace Response

def json : Response → Text
  | .started runId dashboardUrl =>
      Json.object [("Started".toList, Json.object [
        ("run_id".toList, Json.quote runId.value),
        ("dashboard_url".toList, Json.quote dashboardUrl)])]
  | .line text => Json.object [("Line".toList, Json.object [("text".toList, Json.quote text)])]
  | .ended status prUrl failReason message =>
      Json.object [("Ended".toList, Json.object [
        ("status".toList, Json.quote status.name),
        ("pr_url".toList, Json.quote prUrl),
        ("fail_reason".toList, Json.quote failReason),
        ("message".toList, Json.quote message)])]
  | .error message =>
      Json.object [("Error".toList, Json.object [("message".toList, Json.quote message)])]

def bytes (response : Response) : List UInt8 := Utf8.encode response.json

def toVec (response : Response) : Except Text (List UInt8) := .ok response.bytes

def Fits (response : Response) : Prop := response.bytes.length ≤ maxMessageBytes

end Response

def lineFrame : ℕ := 20

def errorFrame : ℕ := 24

/-- What the end of a run takes beside its texts. -/
def endedFrame : CompleteStatus → ℕ
  | .done => 69
  | .error => 70

/-- A message leaves room for the rest of an error. -/
def Brief (message : Text) : Prop := errorFrame + Json.width message ≤ maxMessageBytes

/-- The URL, the reason and the message leave room for the rest of the end of a run. -/
def CompleteRequest.Roomy (completion : CompleteRequest) : Prop :=
  endedFrame completion.status + Json.width completion.prUrl + Json.width completion.failReason +
    Json.width completion.message ≤ maxMessageBytes

/-- What is on record of a run leaves room for the rest of its response. -/
def RunEnd.Roomy : RunEnd → Prop
  | .reported completion => completion.Roomy
  | .unreported message => Brief message
  | .versionMismatch message =>
      Brief ("the farm speaks another protocol version: ".toList ++ message)
  | .forgotten | .dropped => True

/-- A line the assembler can hand over. -/
def Piece (text : Text) : Prop := Utf8.size text ≤ 3 * maxLogChunk

namespace Response

variable {response : Response}

theorem length_line (text : Text) :
    (Response.line text).bytes.length = lineFrame + Json.width text := by
  have hkind : Json.width "Line".toList = 4 := by decide
  have hfield : Json.width "text".toList = 4 := by decide
  simp only [bytes, json, Utf8.length_encode, Json.size_object, Json.size_members_singleton,
    Json.size_quote, hkind, hfield, lineFrame]
  omega

theorem length_error (message : Text) :
    (Response.error message).bytes.length = errorFrame + Json.width message := by
  have hkind : Json.width "Error".toList = 5 := by decide
  have hfield : Json.width "message".toList = 7 := by decide
  simp only [bytes, json, Utf8.length_encode, Json.size_object, Json.size_members_singleton,
    Json.size_quote, hkind, hfield, errorFrame]
  omega

theorem length_ended (status : CompleteStatus) (prUrl failReason message : Text) :
    (Response.ended status prUrl failReason message).bytes.length =
      endedFrame status + Json.width prUrl + Json.width failReason + Json.width message := by
  have hkind : Json.width "Ended".toList = 5 := by decide
  have hstatus : Json.width "status".toList = 6 := by decide
  have hurl : Json.width "pr_url".toList = 6 := by decide
  have hreason : Json.width "fail_reason".toList = 11 := by decide
  have hmessage : Json.width "message".toList = 7 := by decide
  have hname : 65 + Json.width status.name = endedFrame status := by
    cases status <;> decide
  simp only [bytes, json, Utf8.length_encode, Json.size_object, Json.size_members_singleton,
    Json.size_members_cons, Json.size_quote, hkind, hstatus, hurl, hreason, hmessage]
  omega

theorem fits_error_iff (message : Text) : (Response.error message).Fits ↔ Brief message := by
  rw [Fits, length_error, Brief]

/-- The last response of a follower fits exactly where the texts of the end do. -/
theorem fits_terminal_iff (ended : RunEnd) : (terminal ended).Fits ↔ ended.Roomy := by
  have hforgotten : Brief "the farm no longer knows this run".toList := by
    unfold Brief
    decide
  cases ended with
  | reported completion => rw [terminal, Fits, length_ended, RunEnd.Roomy, CompleteRequest.Roomy]
  | unreported message => exact fits_error_iff message
  | versionMismatch message => exact fits_error_iff _
  | forgotten => exact ⟨fun _ ↦ trivial, fun _ ↦ (fits_error_iff _).mpr hforgotten⟩
  | dropped => exact ⟨fun _ ↦ trivial, fun _ ↦ (fits_error_iff _).mpr hforgotten⟩

/-- Escaping and the frame leave room for any piece of output. -/
theorem fits_of_piece {text : Text} (h : Piece text) : (Response.line text).Fits := by
  have hroom : lineFrame + 6 * (3 * maxLogChunk) ≤ maxMessageBytes := by decide
  have hwidth := Json.width_le text
  have hpiece : 6 * Utf8.size text ≤ 6 * (3 * maxLogChunk) := Nat.mul_le_mul_left 6 h
  rw [Fits, length_line]
  omega

/-- A note of lines lost to lag is a piece of output in size. -/
theorem piece_skipped {missed : ℕ} (h : missed < 2 ^ 64) : Piece (skipped missed) := by
  have hnumeral := size_numeral_le h
  have hopening : Utf8.size "... ".toList = 4 := by decide
  have hclosing : Utf8.size " lines skipped".toList = 14 := by decide
  have hroom : 4 + 20 + 14 ≤ 3 * maxLogChunk := by decide
  rw [Piece, skipped, Utf8.size_append, Utf8.size_append, hopening, hclosing]
  omega

theorem encodes (h : response.Fits) : Ipc.Encodes toVec response response.bytes := ⟨rfl, h⟩

/-- A response that fits is never too large to send. -/
theorem send_of_fits (h : response.Fits) (writer : Writer) (size : ℕ) :
    (Ipc.send toVec writer response).1 ≠ .error (.tooLarge size) := by
  have hword : maxMessageBytes < 2 ^ 32 := by decide
  have hfits : response.bytes.length ≤ maxMessageBytes := h
  simp only [Ipc.send, toVec, if_neg (Nat.not_lt.mpr hfits),
    if_neg (show ¬ 2 ^ 32 ≤ response.bytes.length by omega)]
  split
  · simp
  · split
    · simp
    · split <;> simp

/-- A response that does not fit is never sent, whatever the stream. -/
theorem send_of_not_fits (h : ¬ response.Fits) (writer : Writer) :
    Ipc.send toVec writer response = (.error (.tooLarge response.bytes.length), writer) :=
  Ipc.send_tooLarge rfl (Nat.lt_of_not_le h) writer

/-- Responses that fit are refused for their size by no stream. -/
theorem sendAll_of_fits {responses : List Response} (h : ∀ response ∈ responses, response.Fits)
    (writer : Writer) (size : ℕ) :
    (Ipc.sendAll toVec writer responses).1 ≠ .error (.tooLarge size) := by
  induction responses generalizing writer with
  | nil => nofun
  | cons response rest ih =>
      have hfirst := send_of_fits (h response List.mem_cons_self) writer size
      rw [Ipc.sendAll]
      cases hsend : Ipc.send toVec writer response with
      | mk result after =>
      rw [hsend] at hfirst
      cases result with
      | error error => exact hfirst
      | ok done => exact ih (fun other hother ↦ h other (List.mem_cons_of_mem _ hother)) after

/-- A stream that takes everything takes the frames of responses that fit. -/
theorem sendAll_frames {responses : List Response} (h : ∀ response ∈ responses, response.Fits)
    (written : List UInt8) :
    Ipc.sendAll toVec { Writer.empty with written } responses =
      (.ok (), { Writer.empty with
        written := written ++ responses.flatMap fun response ↦ Ipc.frame response.bytes }) := by
  have hencoded : Ipc.EncodesAll toVec responses (responses.map bytes) :=
    List.forall₂_map_right_iff.mpr
      (List.forall₂_same.mpr fun response hresponse ↦ encodes (h response hresponse))
  rw [Ipc.sendAll_frames hencoded, List.flatMap_map]

end Response

end RalphexRunner
