import Mathlib.Data.List.Induction
import RalphexRunner.Protocol.Retry
import RalphexRunner.Semantics.Transition

/-!
# The body of a response

`read_body` asks for one chunk after the other and stops at the end of the body, at an error, or as
soon as it holds `maxBodyBytes` bytes.  The room left for a chunk is a difference of two sizes, and
the part of the last chunk that is kept is a slice of it; both panic out of range, and `panicked` is
the state they lead to.
-/

namespace RalphexRunner

/-- The number of bytes of a body that are kept. -/
def maxBodyBytes : ℕ := 65536

namespace Body

/-- What a request for the next chunk is answered. -/
inductive Answer where
  | chunk (bytes : List UInt8)
  | finished
  | failed (message : Text)
  deriving DecidableEq

/-- A body being read: before the next chunk is requested, or past the loop. -/
inductive Reader where
  | reading (collected : List UInt8)
  | read (body : Text)
  | failed (error : FarmError)
  | panicked
  deriving DecidableEq

/-- A difference of sizes, in a build that checks them. -/
def room (collected : List UInt8) : Option ℕ :=
  if collected.length ≤ maxBodyBytes then some (maxBodyBytes - collected.length) else none

/-- The first bytes of a chunk, if it has that many. -/
def slice (bytes : List UInt8) (count : ℕ) : Option (List UInt8) :=
  if count ≤ bytes.length then some (bytes.take count) else none

/-- One iteration of the loop. -/
def receive (collected : List UInt8) : Answer → Reader
  | .finished => .read (Utf8.lossy collected)
  | .failed message => .failed (.transport message)
  | .chunk bytes =>
      match room collected with
      | none => .panicked
      | some room =>
          if room ≤ bytes.length then
            match slice bytes room with
            | none => .panicked
            | some kept => .read (Utf8.lossy (collected ++ kept))
          else .reading (collected ++ bytes)

/-- Only inside the loop is a chunk requested. -/
def machine : Machine Reader Answer where
  init reader := reader = .reading []
  step reader answer :=
    match reader with
    | .reading collected => some (receive collected answer)
    | .read _ | .failed _ | .panicked => none

/-- Answer the requests from a response, and what of the response is never requested. -/
def drive : Reader → List Answer → Reader × List Answer
  | .reading collected, answer :: response => drive (receive collected answer) response
  | reader, response => (reader, response)

def readBody (response : List Answer) : Reader := (drive (.reading []) response).1

def Answer.bytes : Answer → List UInt8
  | .chunk bytes => bytes
  | .finished | .failed _ => []

def received (answers : List Answer) : List UInt8 := answers.flatMap Answer.bytes

variable {collected bytes : List UInt8} {answers : List Answer} {reader : Reader}

/-- Below the bound there is room for a byte, and what does not fit is cut. -/
theorem receive_chunk (h : collected.length < maxBodyBytes) (bytes : List UInt8) :
    receive collected (.chunk bytes) =
      if (collected ++ bytes).length < maxBodyBytes then .reading (collected ++ bytes)
      else .read (Utf8.lossy ((collected ++ bytes).take maxBodyBytes)) := by
  have hroom : room collected = some (maxBodyBytes - collected.length) := if_pos (Nat.le_of_lt h)
  rw [receive, hroom, List.length_append]
  by_cases hfull : maxBodyBytes - collected.length ≤ bytes.length
  · have hslice : slice bytes (maxBodyBytes - collected.length) =
        some (bytes.take (maxBodyBytes - collected.length)) := if_pos hfull
    have hcut : (collected ++ bytes).take maxBodyBytes =
        collected ++ bytes.take (maxBodyBytes - collected.length) := by
      rw [List.take_append, List.take_of_length_le (Nat.le_of_lt h)]
    dsimp only
    rw [if_pos hfull, if_neg (by omega), hslice, hcut]
  · dsimp only
    rw [if_neg hfull, if_pos (by omega)]

/-- Where a reader stands after the answers it was given. -/
def Holds (answers : List Answer) : Reader → Prop
  | .reading collected => collected = received answers ∧ collected.length < maxBodyBytes
  | .read body => body = Utf8.lossy ((received answers).take maxBodyBytes)
  | .failed error => ∃ message, error = .transport message ∧ .failed message ∈ answers
  | .panicked => False

/-- One more answer leaves the reader with what arrived, up to its bound. -/
theorem Holds.receive (h : Holds answers (.reading collected)) (answer : Answer) :
    Holds (answers ++ [answer]) (receive collected answer) := by
  obtain ⟨rfl, hlength⟩ := h
  have hreceived : received (answers ++ [answer]) = received answers ++ answer.bytes := by
    simp [received]
  cases answer with
  | finished =>
      change Utf8.lossy (received answers) = _
      rw [hreceived, Answer.bytes, List.append_nil, List.take_of_length_le (Nat.le_of_lt hlength)]
  | failed message => exact ⟨message, rfl, by simp⟩
  | chunk bytes =>
      rw [receive_chunk hlength]
      split
      · rename_i hfits
        exact ⟨hreceived.symm, hfits⟩
      · exact congrArg (fun bytes ↦ Utf8.lossy (bytes.take maxBodyBytes)) hreceived.symm

/-- A run of the loop has looked at its answers, and at nothing else. -/
theorem holds_of_exec (hexec : machine.exec (.reading []) answers = some reader) :
    Holds answers reader := by
  induction answers using List.reverseRecOn generalizing reader with
  | nil =>
      cases hexec
      exact ⟨rfl, by decide⟩
  | append_singleton answers answer ih =>
      rw [Machine.exec_append, Option.bind_eq_some_iff] at hexec
      obtain ⟨middle, hmiddle, hlast⟩ := hexec
      cases middle with
      | reading collected =>
          cases hlast
          exact (ih hmiddle).receive answer
      | read body => cases hlast
      | failed error => cases hlast
      | panicked => cases hlast

theorem exec_of_reachable (h : machine.Reachable reader) :
    ∃ answers, machine.exec (.reading []) answers = some reader := by
  induction h with
  | init hinit => exact ⟨[], by rw [hinit, Machine.exec_nil]⟩
  | @step _ _ answer _ _ hstep ih =>
      obtain ⟨answers, hexec⟩ := ih
      refine ⟨answers ++ [answer], ?_⟩
      rw [Machine.exec_append, hexec, Option.bind_some, Machine.exec_cons, hstep]
      rfl

/-- A response drives the loop through a run on the answers it is asked for. -/
theorem exec_drive (reader : Reader) (response : List Answer) :
    ∃ asked, response = asked ++ (drive reader response).2 ∧
      machine.exec reader asked = some (drive reader response).1 := by
  fun_induction drive reader response with
  | case1 collected answer response ih =>
      obtain ⟨asked, hsplit, hexec⟩ := ih
      exact ⟨answer :: asked, congrArg (answer :: ·) hsplit, hexec⟩
  | case2 reader response => exact ⟨[], rfl, rfl⟩

theorem drive_read (body : Text) (response : List Answer) :
    drive (.read body) response = (.read body, response) := by
  cases response <;> rfl

theorem drive_failed (error : FarmError) (response : List Answer) :
    drive (.failed error) response = (.failed error, response) := by
  cases response <;> rfl

/-- The chunks of a response are read up to the bound, however they are cut. -/
theorem drive_chunks (chunks : List (List UInt8)) (ending : List Answer)
    (h : collected.length < maxBodyBytes) :
    (drive (.reading collected) (chunks.map .chunk ++ ending)).1 =
      if (collected ++ chunks.flatten).length < maxBodyBytes then
        (drive (.reading (collected ++ chunks.flatten)) ending).1
      else .read (Utf8.lossy ((collected ++ chunks.flatten).take maxBodyBytes)) := by
  induction chunks generalizing collected with
  | nil => simp [h]
  | cons bytes chunks ih =>
      rw [List.flatten_cons, ← List.append_assoc]
      change (drive (receive collected (.chunk bytes)) (chunks.map .chunk ++ ending)).1 = _
      rw [receive_chunk h]
      by_cases hfits : (collected ++ bytes).length < maxBodyBytes
      · rw [if_pos hfits]
        exact ih hfits
      · rw [if_neg hfits, if_neg (by rw [List.length_append]; omega),
          List.take_append_of_le_length (Nat.le_of_not_lt hfits), drive_read]

/-- Before every request fewer bytes are held than are kept at most, so that neither the room nor
the slice is out of range; the answers so far brought fewer as well, and once they brought as many,
nothing is requested; and of a response the first bytes are read, however it was cut into chunks. -/
theorem readBody_bounded :
    (∀ collected, machine.Reachable (.reading collected) → collected.length < maxBodyBytes) ∧
    ¬ machine.Reachable .panicked ∧
    (∀ asked answer later reader,
      machine.exec (.reading []) (asked ++ answer :: later) = some reader →
        (received asked).length < maxBodyBytes) ∧
    (∀ (chunks : List (List UInt8)) unread,
      readBody (chunks.map .chunk ++ .finished :: unread) =
        .read (Utf8.lossy (chunks.flatten.take maxBodyBytes))) ∧
    ∀ (chunks : List (List UInt8)) message unread,
      readBody (chunks.map .chunk ++ .failed message :: unread) =
        if chunks.flatten.length < maxBodyBytes then .failed (.transport message)
        else .read (Utf8.lossy (chunks.flatten.take maxBodyBytes)) := by
  have hempty : ([] : List UInt8).length < maxBodyBytes := by decide
  refine ⟨?_, ?_, ?_, ?_, ?_⟩
  · intro collected hreach
    obtain ⟨answers, hexec⟩ := exec_of_reachable hreach
    exact (holds_of_exec hexec).2
  · intro hreach
    obtain ⟨answers, hexec⟩ := exec_of_reachable hreach
    exact holds_of_exec hexec
  · intro asked answer later reader hexec
    rw [Machine.exec_append, Option.bind_eq_some_iff] at hexec
    obtain ⟨middle, hmiddle, hrest⟩ := hexec
    have hholds := holds_of_exec hmiddle
    cases middle with
    | reading collected => exact hholds.1 ▸ hholds.2
    | read body => cases hrest
    | failed error => cases hrest
    | panicked => cases hrest
  · intro chunks unread
    rw [readBody, drive_chunks chunks _ hempty, List.nil_append]
    split
    · rename_i hshort
      change (drive (.read (Utf8.lossy chunks.flatten)) unread).1 = _
      rw [drive_read, List.take_of_length_le (Nat.le_of_lt hshort)]
    · rfl
  · intro chunks message unread
    rw [readBody, drive_chunks chunks _ hempty, List.nil_append]
    change (if _ then (drive (.failed (.transport message)) unread).1 else _) = _
    rw [drive_failed]

/-- A body that has been read, with the status it came with.  `errorField` reads the text of the
field `error` out of a JSON object. -/
def accept (errorField : Text → Option Text) (status : ℕ) (body : Text) :
    Except FarmError (ℕ × Text) :=
  if 200 ≤ status ∧ status < 300 then .ok (status, body)
  else if status = 409 then .error (.versionMismatch ((errorField body).getD body))
  else if status = 410 then .error .gone
  else if status = 400 then .error (.badRequest body)
  else .error (.rejected status body)

/-- What a call comes to: its body, or why there is none. -/
def respond (errorField : Text → Option Text) (status : ℕ) (response : List Answer) :
    Option (Except FarmError (ℕ × Text)) :=
  match readBody response with
  | .read body => some (accept errorField status body)
  | .failed error => some (.error error)
  | .reading _ | .panicked => none

theorem isRetryable_of_accept {errorField : Text → Option Text} {status : ℕ} {body : Text}
    {error : FarmError} (h : accept errorField status body = .error error) :
    error.isRetryable = true ↔ (∃ message, error = .transport message) ∨ 500 ≤ status := by
  unfold accept at h
  split_ifs at h with hok hmismatch hgone hbad
  · cases h
    simp [FarmError.isRetryable, hmismatch]
  · cases h
    simp [FarmError.isRetryable, hgone]
  · cases h
    simp [FarmError.isRetryable, hbad]
  · cases h
    simp [FarmError.isRetryable]

/-- A call is repeated where its body was lost on the way, or the server is at fault. -/
theorem isRetryable_of_respond {errorField : Text → Option Text} {status : ℕ}
    {error : FarmError} (h : respond errorField status answers = some (.error error)) :
    error.isRetryable = true ↔ (∃ message, error = .transport message) ∨ 500 ≤ status := by
  obtain ⟨asked, hsplit, hexec⟩ := exec_drive (.reading []) answers
  have hholds := holds_of_exec hexec
  unfold respond readBody at h
  cases hread : (drive (.reading []) answers).1 with
  | read body =>
      rw [hread] at h
      exact isRetryable_of_accept (Option.some.inj h)
  | failed failure =>
      rw [hread] at h hholds
      obtain ⟨message, rfl, -⟩ := hholds
      cases h
      exact ⟨fun _ ↦ .inl ⟨message, rfl⟩, fun _ ↦ rfl⟩
  | reading collected => rw [hread] at h; cases h
  | panicked => rw [hread] at h; cases h

end Body

end RalphexRunner
