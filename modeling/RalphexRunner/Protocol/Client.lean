import RalphexRunner.Protocol.Bodies
import RalphexRunner.Protocol.Body
import RalphexRunner.Protocol.Endpoints

/-!
# The farm client and its calls

Every call of the client is a request that is sent once, or again and again by the retry loop, and
what becomes of the last answer.  A run's tasks have calls under way side by side, and a call can be
dropped anywhere; the runs whose progress the farm no longer wants are all they share.

No two calls look alike to the farm.  Whatever the order in which they go on, each is sent as often
as its policy allows and returns what its last answer says, and once a run is known to be gone no
call asks to post its progress but those that looked before.
-/

namespace RalphexRunner

open Json (Codec Record Value under)

namespace Farm

/-- What the runner asks the farm for. -/
inductive Call where
  | claim (request : ClaimRequest)
  | openRun (request : OpenRunRequest)
  | appendLog (runId : RunId) (seq : Seq) (bytes : List UInt8)
  | heartbeat (runId : RunId) (request : HeartbeatRequest)
  | complete (runId : RunId) (request : CompleteRequest)
  | postProgress (runId : RunId) (request : ProgressRequest)

/-- What a call that succeeds brings. -/
inductive Result where
  | claimed (job : Option Job)
  | opened (job : Job)
  | appended
  | beaten (action : HeartbeatAction)
  | completed
  | posted

inductive ContentType where
  | json
  | octetStream

/-- A `POST` as it leaves the client. -/
structure HttpRequest where
  url : Text
  token : Text
  timeout : Duration
  contentType : ContentType
  body : List UInt8

/-- What a request is answered: a status, and a body as it arrives. -/
structure HttpResponse where
  status : ℕ
  body : List Body.Answer

namespace Call

def url (client : FarmClient) : Call → Text
  | .claim _ => client.endpoint "api/runner/claim".toList
  | .openRun _ => client.endpoint "api/runner/runs".toList
  | .appendLog runId seq _ => client.url runId (.log seq)
  | .heartbeat runId _ => client.url runId .heartbeat
  | .complete runId _ => client.url runId .complete
  | .postProgress runId _ => client.url runId .progress

def timeout : Call → Duration
  | .claim _ => claimTimeout
  | _ => requestTimeout

def contentType : Call → ContentType
  | .appendLog _ _ _ => .octetStream
  | _ => .json

def body : Call → List UInt8
  | .claim request => claimRecord.object.bytes request
  | .openRun request => openRunRecord.object.bytes request
  | .appendLog _ _ bytes => bytes
  | .heartbeat _ request => heartbeatRecord.object.bytes request
  | .complete _ request => completeRecord.object.bytes request
  | .postProgress _ request => progressRecord.object.bytes request

def request (client : FarmClient) (token : Text) (call : Call) : HttpRequest where
  url := call.url client
  token := token
  timeout := call.timeout
  contentType := call.contentType
  body := call.body

/-- How a call is retried, if it is. -/
def policy : Call → Option RetryPolicy
  | .claim _ => none
  | .openRun _ => none
  | .appendLog _ _ _ => some (.attempts retryMaxAttempts)
  | .heartbeat _ _ => some (.attempts retryMaxAttempts)
  | .complete _ _ => some (.budget completeBudget)
  | .postProgress _ _ => none

def progressOf : Call → Option RunId
  | .postProgress runId _ => some runId
  | _ => none

/-- What is made of the body of an answer; `complaint` is what is said of one that is not read. -/
def finish (complaint : Text → Text) (call : Call) (accepted : ℕ × Text) :
    Except FarmError Result :=
  let (status, body) := accepted
  match call with
  | .claim _ =>
      let body := trim body
      if status = 204 ∨ body = [] then .ok (.claimed none)
      else
        match readJob (Utf8.encode body) with
        | some job => .ok (.claimed (some job))
        | none => .error (.decode (complaint body))
  | .openRun _ =>
      match readJob (Utf8.encode body) with
      | some job => .ok (.opened job)
      | none => .error (.decode (complaint body))
  | .appendLog _ _ _ => .ok .appended
  | .heartbeat _ _ =>
      match responseRecord.object.read (Utf8.encode body) with
      | some action => .ok (.beaten action)
      | none => .error (.decode (complaint body))
  | .complete _ _ => .ok .completed
  | .postProgress _ _ => .ok .posted

/-- The requests a call makes at most, where its policy counts them. -/
def limit (call : Call) : Option ℕ :=
  match call.policy with
  | none => some 1
  | some (.attempts limit) => some limit
  | some (.budget _) => none

end Call

/-- The text of the member `error` of an object, all of which is read. -/
def errorField (body : Text) : Option Text :=
  ((Json.readBytes (Utf8.encode body)).filter Json.sound).bind fun
    | .object fields => (under "error".toList fields).getLast?.bind Value.text?
    | _ => none

example : errorField "\x7b\x22error\x22:\x22x\x22,\x22n\x22:1.7e308\x7d".toList =
    some ['x'] := by decide +kernel

example : errorField "\x7b\x22error\x22:\x22x\x22,\x22n\x22:1.8e308\x7d".toList = none := by
  decide +kernel

/-- What one request comes to, once its answer is there. -/
def outcome : Except Text HttpResponse → Option (Except FarmError (ℕ × Text))
  | .error message => some (.error (.transport message))
  | .ok response => Body.respond errorField response.status response.body

/-! ## A call under way -/

/-- Where a call stands. -/
inductive Stage where
  | begun
  | allowed
  | sending (started : ℕ) (loop : Retry.State)
  | sleeping (started : ℕ) (loop : Retry.State)
  | recording
  | returned (result : Except FarmError Result)
  | dropped

/-- A call under way: how often it was sent, and what came of the answers. -/
structure Ongoing where
  call : Call
  stage : Stage
  sends : ℕ
  answers : List (Except FarmError (ℕ × Text))

/-- What a call does next, or what happens to it. -/
inductive Move where
  | checks
  | sends
  | answered (response : Except Text HttpResponse)
  | records
  | dropped

namespace Ongoing

/-- The call returns what its last answer came to; that a run is gone is recorded before. -/
def concludes (complaint : Text → Text) (call : Call) (result : Except FarmError (ℕ × Text)) :
    Stage :=
  match call.progressOf, result with
  | some _, .error .gone => .recording
  | _, result => .returned (result.bind (call.finish complaint))

/-- An answer is there: the retry loop, where there is one, decides how to go on. -/
def hears (complaint : Text → Text) (call : Call) (now started : ℕ) (loop : Retry.State)
    (result : Except FarmError (ℕ × Text)) : Stage :=
  match call.policy with
  | none => concludes complaint call result
  | some policy =>
      match Retry.turn policy started ⟨result, now - loop.now⟩ loop with
      | .inl outcome => concludes complaint call outcome.result
      | .inr next => .sleeping started next

def move (complaint : Text → Text) (now : ℕ) (gone : List RunId) (ongoing : Ongoing)
    (move : Move) : Option Ongoing :=
  match ongoing.stage, move with
  | .begun, .checks =>
      some { ongoing with
        stage := if ongoing.call.progressOf.any (· ∈ gone) then .returned (.error .gone)
          else .allowed }
  | .allowed, .sends =>
      some { ongoing with
        stage := .sending now (Retry.start now), sends := ongoing.sends + 1 }
  | .sleeping started loop, .sends =>
      if loop.now ≤ now then
        some { ongoing with
          stage := .sending started { loop with now }, sends := ongoing.sends + 1 }
      else none
  | .sending started loop, .answered response =>
      (outcome response).map fun result ↦
        { ongoing with
          stage := hears complaint ongoing.call now started loop result
          answers := ongoing.answers ++ [result] }
  | .recording, .records => some { ongoing with stage := .returned (.error .gone) }
  | .returned _, .dropped => none
  | .dropped, .dropped => none
  | _, .dropped => some { ongoing with stage := .dropped }
  | _, _ => none

end Ongoing

/-- The client: its clock, the runs known to be gone, the calls in the order they were made in,
and what it asked for on behalf of which. -/
structure Client where
  now : ℕ
  gone : List RunId
  calls : List Ongoing
  sent : List (ℕ × Call)

namespace Client

inductive Action where
  | passes (nanos : ℕ)
  | begins (call : Call)
  | moves (index : ℕ) (move : Move)

/-- What a move of a call leaves behind for the others. -/
def leaves (client : Client) (index : ℕ) (call : Call) : Move → Client
  | .sends => { client with sent := client.sent ++ [(index, call)] }
  | .records => { client with gone := call.progressOf.toList ++ client.gone }
  | _ => client

def step (complaint : Text → Text) (client : Client) : Action → Option Client
  | .passes nanos => some { client with now := client.now + nanos }
  | .begins call => some { client with calls := client.calls ++ [⟨call, .begun, 0, []⟩] }
  | .moves index move =>
      client.calls[index]?.bind fun ongoing ↦
        (ongoing.move complaint client.now client.gone move).map fun next ↦
          { client.leaves index ongoing.call move with calls := client.calls.set index next }

/-- A client starts with nothing asked for. -/
def machine (complaint : Text → Text) : Machine Client Action where
  init client := client.gone = [] ∧ client.calls = [] ∧ client.sent = []
  step := step complaint

def asked (client : Client) (index : ℕ) : List Call :=
  (client.sent.filter (·.1 = index)).map Prod.snd

/-- The requests that post the progress of a run. -/
def posted (client : Client) (runId : RunId) : ℕ :=
  client.sent.countP fun sent ↦ sent.2.progressOf = some runId

/-- The calls that have found the run not to be gone, and are about to post its progress. -/
def posting (client : Client) (runId : RunId) : ℕ :=
  client.calls.countP fun ongoing ↦
    ongoing.call.progressOf = some runId ∧ ongoing.stage matches .allowed

end Client

section Requests

variable {client : FarmClient} {token : Text}

theorem encodeSegment_injective {first second : Text}
    (h : encodeSegment first = encodeSegment second) : first = second := by
  apply encode_injective
  rw [← decode_encodeSegment first, h, decode_encodeSegment]

/-- The segment of a run id ends where the next one starts. -/
theorem takeWhile_encodeSegment (value rest : Text) :
    (encodeSegment value ++ '/' :: rest).takeWhile (· ≠ '/') = encodeSegment value := by
  have hplain : ∀ character ∈ encodeSegment value, (decide (character ≠ '/')) = true := by
    intro character hmem
    apply decide_eq_true
    rintro rfl
    exact absurd (isPlain_encodeSegment value '/' hmem) (by decide)
  rw [List.takeWhile_append_of_pos hplain, List.takeWhile_cons_of_neg (by simp), List.append_nil]

theorem endpoint_injective {first second : Text}
    (h : client.endpoint first = client.endpoint second) : first = second :=
  (List.cons.inj (List.append_cancel_left h)).2

theorem jobEndpoint_injective {runId other : RunId} {first second : Text}
    (h : client.jobEndpoint runId first = client.jobEndpoint other second) :
    runId = other ∧ first = second := by
  have hpath := List.append_cancel_left (endpoint_injective h)
  have hsegment := congrArg (List.takeWhile (· ≠ '/')) hpath
  rw [takeWhile_encodeSegment, takeWhile_encodeSegment] at hsegment
  rw [hsegment] at hpath
  exact ⟨congrArg RunId.mk (encodeSegment_injective hsegment),
    (List.cons.inj (List.append_cancel_left hpath)).2⟩

theorem numeral_injective {first second : ℕ} (h : numeral first = numeral second) :
    first = second := by
  rw [numeral_eq, numeral_eq] at h
  rw [← decimal_toDigits first, h, decimal_toDigits]

/-- Two calls for a run with one address are the same. -/
theorem jobUrl_injective {runId other : RunId} {first second : JobCall}
    (h : client.url runId first = client.url other second) : runId = other ∧ first = second := by
  cases first with
  | log seq =>
      cases second with
      | log later =>
          obtain ⟨hrun, hverb⟩ := jobEndpoint_injective h
          have hseq := numeral_injective (List.append_cancel_left hverb)
          exact ⟨hrun, congrArg (JobCall.log ⟨·⟩) hseq⟩
      | _ => exact absurd (jobEndpoint_injective h).2 (by simp)
  | heartbeat =>
      cases second with
      | heartbeat => exact ⟨(jobEndpoint_injective h).1, rfl⟩
      | _ => exact absurd (jobEndpoint_injective h).2 (by simp)
  | complete =>
      cases second with
      | complete => exact ⟨(jobEndpoint_injective h).1, rfl⟩
      | _ => exact absurd (jobEndpoint_injective h).2 (by simp)
  | progress =>
      cases second with
      | progress => exact ⟨(jobEndpoint_injective h).1, rfl⟩
      | _ => exact absurd (jobEndpoint_injective h).2 (by simp)

/-- No call about a run goes where a job is asked for or a run is opened. -/
theorem jobUrl_apart (runId : RunId) (call : JobCall) :
    client.url runId call ≠ client.endpoint "api/runner/claim".toList ∧
      client.url runId call ≠ client.endpoint "api/runner/runs".toList := by
  have hjob : ∃ rest, client.url runId call =
      client.endpoint ("api/runner/jobs/".toList ++ rest) := by
    cases call <;> exact ⟨_, rfl⟩
  obtain ⟨rest, hrest⟩ := hjob
  rw [hrest]
  constructor
  · intro h
    have hstart := congrArg (List.take 12) (endpoint_injective h)
    simp at hstart
  · intro h
    have hstart := congrArg (List.take 12) (endpoint_injective h)
    simp at hstart

/-- The run a call names in its address, and the call it makes about it. -/
def Call.job : Call → Option (RunId × JobCall)
  | .claim _ | .openRun _ => none
  | .appendLog runId seq _ => some (runId, .log seq)
  | .heartbeat runId _ => some (runId, .heartbeat)
  | .complete runId _ => some (runId, .complete)
  | .postProgress runId _ => some (runId, .progress)

theorem Call.url_of_job {call : Call} {runId : RunId} {verb : JobCall}
    (h : call.job = some (runId, verb)) : call.url client = client.url runId verb := by
  cases call <;> cases h <;> rfl

/-- The address of a call says which job it is about. -/
theorem Call.job_of_url {first second : Call} (h : first.url client = second.url client) :
    first.job = second.job := by
  cases hfirst : first.job with
  | none =>
      cases hsecond : second.job with
      | none => rfl
      | some job =>
          obtain ⟨runId, verb⟩ := job
          rw [url_of_job hsecond] at h
          cases first with
          | claim request => exact absurd h.symm (jobUrl_apart runId verb).1
          | openRun request => exact absurd h.symm (jobUrl_apart runId verb).2
          | _ => cases hfirst
  | some job =>
      obtain ⟨runId, verb⟩ := job
      rw [url_of_job hfirst] at h
      cases hsecond : second.job with
      | none =>
          cases second with
          | claim request => exact absurd h (jobUrl_apart runId verb).1
          | openRun request => exact absurd h (jobUrl_apart runId verb).2
          | _ => cases hsecond
      | some other =>
          obtain ⟨otherId, otherVerb⟩ := other
          rw [url_of_job hsecond] at h
          obtain ⟨rfl, rfl⟩ := jobUrl_injective h
          rfl

/-- **No two calls look alike to the farm.** -/
theorem request_injective : Function.Injective (Call.request client token) := by
  intro first second h
  have hurl : first.url client = second.url client := congrArg HttpRequest.url h
  have hbody : first.body = second.body := congrArg HttpRequest.body h
  have hjob := Call.job_of_url hurl
  cases first with
  | claim request =>
      cases second with
      | claim other => exact congrArg Call.claim (Codec.bytes_injective _ hbody)
      | openRun other =>
          have hstart := congrArg (List.take 12) (endpoint_injective hurl)
          simp at hstart
      | _ => cases hjob
  | openRun request =>
      cases second with
      | openRun other => exact congrArg Call.openRun (Codec.bytes_injective _ hbody)
      | claim other =>
          have hstart := congrArg (List.take 12) (endpoint_injective hurl)
          simp at hstart
      | _ => cases hjob
  | appendLog runId seq bytes =>
      cases second with
      | appendLog other later sent =>
          cases hjob
          exact congrArg (Call.appendLog runId seq) hbody
      | _ => cases hjob
  | heartbeat runId request =>
      cases second with
      | heartbeat other sent =>
          cases hjob
          exact congrArg (Call.heartbeat runId) (Codec.bytes_injective _ hbody)
      | _ => cases hjob
  | complete runId request =>
      cases second with
      | complete other sent =>
          cases hjob
          exact congrArg (Call.complete runId) (Codec.bytes_injective _ hbody)
      | _ => cases hjob
  | postProgress runId request =>
      cases second with
      | postProgress other sent =>
          cases hjob
          exact congrArg (Call.postProgress runId) (Codec.bytes_injective _ hbody)
      | _ => cases hjob

end Requests

variable {complaint : Text → Text} {call : Call} {ongoing next : Ongoing}
  {answers : List (Except FarmError (ℕ × Text))} {result : Except FarmError (ℕ × Text)}
  {runId : RunId}

/-- An answer after which the retry loop tries again. -/
def Retryable (result : Except FarmError (ℕ × Text)) : Prop :=
  ∃ error, result = .error error ∧ error.isRetryable = true

theorem final_eq_false {took : ℕ} : Attempt.final ⟨result, took⟩ = false ↔ Retryable result := by
  unfold Attempt.final Retryable
  cases result with
  | ok value => exact ⟨nofun, nofun⟩
  | error error => simp

/-- What a call returned: that the run is gone, where that was known, or what the last answer came
to.  It gives up on one that asks for another attempt only once its attempts are used up. -/
def Ended (complaint : Text → Text) (ongoing : Ongoing) (returned : Except FarmError Result) :
    Prop :=
  ongoing.answers = [] ∧ ongoing.call.progressOf.isSome = true ∧ returned = .error .gone ∨
    ∃ last, ongoing.answers.getLast? = some last ∧
      returned = last.bind (ongoing.call.finish complaint) ∧
      ∀ limit, ongoing.call.limit = some limit → Retryable last → ongoing.sends = limit

/-- What the stage of a call says of its requests and their answers. -/
def Stands (complaint : Text → Text) (ongoing : Ongoing) : Prop :=
  match ongoing.stage with
  | .begun | .allowed => ongoing.sends = 0
  | .sending _ loop => ongoing.sends = ongoing.answers.length + 1 ∧
      loop.attempts = ongoing.answers.length ∧ ∀ result ∈ ongoing.answers, Retryable result
  | .sleeping _ loop => ongoing.sends = ongoing.answers.length ∧
      loop.attempts = ongoing.answers.length ∧ (∀ result ∈ ongoing.answers, Retryable result) ∧
      (∀ limit, ongoing.call.limit = some limit → ongoing.sends < limit) ∧
      ongoing.call.progressOf = none
  | .recording => ongoing.answers.getLast? = some (.error .gone) ∧
      ongoing.call.progressOf.isSome = true
  | .returned result => Ended complaint ongoing result
  | .dropped => True

/-- What is true of a call at every moment. -/
structure Lawful (complaint : Text → Text) (ongoing : Ongoing) : Prop where
  answered : ongoing.answers.length ≤ ongoing.sends ∧ ongoing.sends ≤ ongoing.answers.length + 1
  bounded : ∀ limit, ongoing.call.limit = some limit → ongoing.sends ≤ limit
  retried : ∀ result ∈ ongoing.answers.take (ongoing.sends - 1), Retryable result
  stands : Stands complaint ongoing

theorem limit_pos {limit : ℕ} (h : call.limit = some limit) : 0 < limit := by
  cases call <;> cases h <;> decide

theorem progressOf_of_policy {policy : RetryPolicy} (h : call.policy = some policy) :
    call.progressOf = none := by
  cases call <;> first | rfl | cases h

theorem begun_lawful : Lawful complaint ⟨call, .begun, 0, []⟩ :=
  ⟨⟨Nat.le_refl 0, Nat.zero_le 1⟩, fun _ _ ↦ Nat.zero_le _, by simp, rfl⟩

theorem concludes_cases (complaint : Text → Text) (call : Call)
    (result : Except FarmError (ℕ × Text)) :
    (Ongoing.concludes complaint call result = .recording ∧ call.progressOf.isSome = true ∧
        result = .error .gone) ∨
      Ongoing.concludes complaint call result =
        .returned (result.bind (call.finish complaint)) := by
  unfold Ongoing.concludes
  split
  · rename_i hprogress
    exact .inl ⟨rfl, by rw [hprogress]; rfl, rfl⟩
  · exact .inr rfl

/-- A call concludes with an answer that is final, or that uses its attempts up. -/
theorem lawful_concludes {stage : Stage}
    (h : Lawful complaint ⟨call, stage, answers.length + 1, answers⟩)
    (hretried : ∀ result ∈ answers, Retryable result)
    (hlast : ∀ limit, call.limit = some limit → Retryable result → answers.length + 1 = limit) :
    Lawful complaint ⟨call, Ongoing.concludes complaint call result, answers.length + 1,
      answers ++ [result]⟩ := by
  refine ⟨?_, h.bounded, ?_, ?_⟩
  · dsimp only
    rw [List.length_append, List.length_singleton]
    omega
  · dsimp only
    rwa [Nat.add_sub_cancel, List.take_left]
  · unfold Stands
    rcases concludes_cases complaint call result with ⟨hstage, hprogress, rfl⟩ | hstage
    · rw [hstage]
      exact ⟨List.getLast?_concat, hprogress⟩
    · rw [hstage]
      exact .inr ⟨result, List.getLast?_concat, rfl, hlast⟩

/-- An answer keeps to it, whatever the retry loop makes of it. -/
theorem lawful_hears {now started sends : ℕ} {loop : Retry.State}
    (h : Lawful complaint ⟨call, .sending started loop, sends, answers⟩) :
    Lawful complaint ⟨call, Ongoing.hears complaint call now started loop result, sends,
      answers ++ [result]⟩ := by
  obtain ⟨hsends, hattempts, hretried⟩ := h.stands
  dsimp only at hsends hattempts hretried
  subst hsends
  unfold Ongoing.hears
  split
  · rename_i hpolicy
    apply lawful_concludes h hretried
    intro limit hlimit _
    have hbounded := h.bounded limit hlimit
    rw [Call.limit, hpolicy, Option.some.injEq] at hlimit
    dsimp only at hbounded
    omega
  · rename_i policy hpolicy
    have hturned := Retry.turn_turned policy started ⟨result, now - loop.now⟩ loop
    split
    · rename_i outcome hturn
      rw [hturn] at hturned
      cases hturned with
      | returned hended =>
          apply lawful_concludes h hretried
          intro limit hlimit hretryable
          rcases hended with hfinal | hexhausted
          · rw [final_eq_false.mpr hretryable] at hfinal
            cases hfinal
          · have hbounded := h.bounded limit hlimit
            rw [Call.limit, hpolicy] at hlimit
            cases policy with
            | budget budget => cases hlimit
            | attempts limit =>
                cases hlimit
                rw [hattempts, Retry.exhausted, decide_eq_true_eq] at hexhausted
                exact Nat.le_antisymm hbounded hexhausted
    · rename_i later hturn
      rw [hturn] at hturned
      cases hturned with
      | slept hfinal hexhausted =>
          have hall : ∀ other ∈ answers ++ [result], Retryable other := by
            intro other hother
            rcases List.mem_append.mp hother with hearlier | hlast
            · exact hretried other hearlier
            · rw [List.mem_singleton.mp hlast]
              exact final_eq_false.mp hfinal
          have hlength : (answers ++ [result]).length = answers.length + 1 := by simp
          refine ⟨?_, h.bounded, ?_, ?_⟩
          · dsimp only
            omega
          · exact fun other hother ↦ hall other (List.mem_of_mem_take hother)
          · refine ⟨hlength.symm, ?_, hall, ?_, progressOf_of_policy hpolicy⟩
            · rw [hlength, ← hattempts]
            · intro limit hlimit
              rw [Call.limit, hpolicy] at hlimit
              cases policy with
              | budget budget => cases hlimit
              | attempts limit =>
                  cases hlimit
                  rw [hattempts, Retry.exhausted, decide_eq_false_iff_not] at hexhausted
                  exact Nat.lt_of_not_le hexhausted

/-- Every move of a call keeps to it. -/
theorem Lawful.move {now : ℕ} {gone : List RunId} {move : Move} (h : Lawful complaint ongoing)
    (hmove : ongoing.move complaint now gone move = some next) : Lawful complaint next := by
  obtain ⟨call, stage, sends, answers⟩ := ongoing
  unfold Ongoing.move at hmove
  dsimp only at hmove
  split at hmove
  · -- The latch is looked at.
    have hsends : sends = 0 := h.stands
    have hanswered := h.answered.1
    dsimp only at hanswered
    have hnone : answers = [] := List.eq_nil_of_length_eq_zero (by omega)
    cases hmove
    refine ⟨h.answered, h.bounded, h.retried, ?_⟩
    unfold Stands
    split_ifs with hgone
    · refine .inl ⟨hnone, ?_, rfl⟩
      cases hprogress : call.progressOf with
      | none =>
          rw [hprogress] at hgone
          cases hgone
      | some runId => rfl
    · exact hsends
  · -- The first request is sent.
    have hsends : sends = 0 := h.stands
    have hanswered := h.answered.1
    dsimp only at hanswered
    have hnone : answers = [] := List.eq_nil_of_length_eq_zero (by omega)
    cases hmove
    subst hsends hnone
    exact ⟨⟨Nat.zero_le 1, Nat.le_refl 1⟩, fun _ ↦ limit_pos, by simp, rfl, rfl, by simp⟩
  · -- It is sent again.
    split at hmove
    · cases hmove
      obtain ⟨hsends, hattempts, hretried, hbelow, -⟩ := h.stands
      dsimp only at hsends
      subst hsends
      exact ⟨⟨Nat.le_succ _, Nat.le_refl _⟩, fun limit hlimit ↦ hbelow limit hlimit,
        fun other hother ↦ hretried other (List.mem_of_mem_take hother), rfl, hattempts, hretried⟩
    · cases hmove
  · -- It is answered.
    obtain ⟨result, -, rfl⟩ := Option.map_eq_some_iff.mp hmove
    exact lawful_hears h
  · -- The run is known to be gone.
    cases hmove
    exact ⟨h.answered, h.bounded, h.retried,
      .inr ⟨_, h.stands.1, rfl, fun _ _ ⟨error, herror, hretryable⟩ ↦ by
        cases herror
        cases hretryable⟩⟩
  · cases hmove
  · cases hmove
  · cases hmove
    exact ⟨h.answered, h.bounded, h.retried, trivial⟩
  · cases hmove

/-- What a move leaves as it is, and what it adds. -/
theorem move_keeps {now : ℕ} {gone : List RunId} {move : Move}
    (hmove : ongoing.move complaint now gone move = some next) :
    next.call = ongoing.call ∧ ongoing.answers <+: next.answers ∧
      next.sends = ongoing.sends + if move matches .sends then 1 else 0 := by
  unfold Ongoing.move at hmove
  split at hmove
  · cases hmove
    exact ⟨rfl, List.prefix_refl _, rfl⟩
  · cases hmove
    exact ⟨rfl, List.prefix_refl _, rfl⟩
  · split at hmove
    · cases hmove
      exact ⟨rfl, List.prefix_refl _, rfl⟩
    · cases hmove
  · obtain ⟨result, -, rfl⟩ := Option.map_eq_some_iff.mp hmove
    exact ⟨rfl, List.prefix_append _ _, rfl⟩
  · cases hmove
    exact ⟨rfl, List.prefix_refl _, rfl⟩
  · cases hmove
  · cases hmove
  · cases hmove
    exact ⟨rfl, List.prefix_refl _, rfl⟩
  · cases hmove

/-- What is recorded is that the last answer said so. -/
theorem Lawful.answered_gone {now : ℕ} {gone : List RunId} (h : Lawful complaint ongoing)
    (hmove : ongoing.move complaint now gone .records = some next) :
    ongoing.answers.getLast? = some (.error .gone) := by
  have hstands := h.stands
  unfold Stands at hstands
  unfold Ongoing.move at hmove
  cases hstage : ongoing.stage with
  | recording =>
      rw [hstage] at hstands
      exact hstands.1
  | _ =>
      rw [hstage] at hmove
      cases hmove

/-- No answer makes a call one that is about to send. -/
theorem hears_not_allowed {now started : ℕ} {loop : Retry.State} :
    Ongoing.hears complaint call now started loop result ≠ .allowed := by
  have hconcludes (result : Except FarmError (ℕ × Text)) :
      Ongoing.concludes complaint call result ≠ .allowed := by
    rcases concludes_cases complaint call result with ⟨hstage, -⟩ | hstage
    · rw [hstage]
      nofun
    · rw [hstage]
      nofun
  unfold Ongoing.hears
  split
  · exact hconcludes result
  · split
    · exact hconcludes _
    · nofun

/-- No call comes to be allowed to post the progress of a run that is known to be gone. -/
theorem not_allowed_of_gone {now : ℕ} {gone : List RunId} {move : Move} (hgone : runId ∈ gone)
    (hmove : ongoing.move complaint now gone move = some next) :
    ¬ (next.call.progressOf = some runId ∧ next.stage matches .allowed) := by
  rintro ⟨hprogress, hallowed⟩
  rw [(move_keeps hmove).1] at hprogress
  unfold Ongoing.move at hmove
  split at hmove
  · cases hmove
    rw [hprogress, Option.any_some, decide_eq_true hgone] at hallowed
    cases hallowed
  · cases hmove
    cases hallowed
  · split at hmove
    · cases hmove
      cases hallowed
    · cases hmove
  · obtain ⟨result, -, rfl⟩ := Option.map_eq_some_iff.mp hmove
    apply @hears_not_allowed complaint ongoing.call result
    split at hallowed
    · assumption
    · cases hallowed
  · cases hmove
    cases hallowed
  · cases hmove
  · cases hmove
  · cases hmove
    cases hallowed
  · cases hmove

/-- A call that posts the progress of a run was allowed to. -/
theorem Lawful.allowed_of_sends {now : ℕ} {gone : List RunId} (h : Lawful complaint ongoing)
    (hprogress : ongoing.call.progressOf = some runId)
    (hmove : ongoing.move complaint now gone .sends = some next) :
    (ongoing.stage matches .allowed) = true := by
  have hstands := h.stands
  unfold Stands at hstands
  unfold Ongoing.move at hmove
  cases hstage : ongoing.stage with
  | allowed => rfl
  | sleeping started loop =>
      rw [hstage] at hstands
      rw [hstands.2.2.2.2] at hprogress
      cases hprogress
  | _ =>
      rw [hstage] at hmove
      cases hmove

/-! ## What becomes of the client -/

/-- What is true of a client at every moment. -/
structure Client.Inv (complaint : Text → Text) (client : Client) : Prop where
  lawful : ∀ (index : ℕ) ongoing, client.calls[index]? = some ongoing → Lawful complaint ongoing
  asked : ∀ (index : ℕ) ongoing, client.calls[index]? = some ongoing →
    client.asked index = List.replicate ongoing.sends ongoing.call
  named : ∀ sent ∈ client.sent, sent.1 < client.calls.length
  gone : ∀ runId ∈ client.gone, ∃ ongoing ∈ client.calls,
    ongoing.call.progressOf = some runId ∧ .error .gone ∈ ongoing.answers

namespace Client

variable {client after : Client} {index : ℕ} {action : Action}

theorem asked_append {sent : ℕ × Call} :
    ({ client with sent := client.sent ++ [sent] } : Client).asked index =
      client.asked index ++ if sent.1 = index then [sent.2] else [] := by
  unfold asked
  rw [List.filter_append, List.map_append]
  split_ifs with h
  · simp [h]
  · simp [h]

theorem asked_leaves {other : ℕ} {move : Move} {calls : List Ongoing} :
    ({ client.leaves index call move with calls } : Client).asked other =
      client.asked other ++ if index = other ∧ move matches .sends then [call] else [] := by
  cases move with
  | sends =>
      refine asked_append.trans ?_
      simp
  | _ => exact (by simp [asked, leaves])

/-- A call that is only begun has asked for nothing. -/
theorem Inv.asked_new (h : client.Inv complaint) : client.asked client.calls.length = [] := by
  unfold Client.asked
  rw [List.filter_eq_nil_iff.mpr, List.map_nil]
  intro sent hsent hindex
  exact Nat.ne_of_lt (h.named sent hsent) (of_decide_eq_true hindex)

/-- Every step of the client keeps it. -/
theorem Inv.step (h : client.Inv complaint) (hstep : client.step complaint action = some after) :
    after.Inv complaint := by
  cases action with
  | passes nanos =>
      cases hstep
      exact ⟨h.lawful, h.asked, h.named, h.gone⟩
  | begins call =>
      cases hstep
      have hcases {index : ℕ} {ongoing : Ongoing}
          (hget : (client.calls ++ [⟨call, .begun, 0, []⟩])[index]? = some ongoing) :
          client.calls[index]? = some ongoing ∨
            index = client.calls.length ∧ ongoing = ⟨call, .begun, 0, []⟩ := by
        rcases Nat.lt_trichotomy index client.calls.length with hlt | rfl | hgt
        · rw [List.getElem?_append_left hlt] at hget
          exact .inl hget
        · simp at hget
          exact .inr ⟨rfl, hget.symm⟩
        · rw [List.getElem?_eq_none (by simp; omega)] at hget
          cases hget
      refine ⟨?_, ?_, ?_, ?_⟩
      · intro index ongoing hget
        rcases hcases hget with hold | ⟨-, rfl⟩
        · exact h.lawful index ongoing hold
        · exact begun_lawful
      · intro index ongoing hget
        rcases hcases hget with hold | ⟨rfl, rfl⟩
        · exact h.asked index ongoing hold
        · exact h.asked_new
      · intro sent hsent
        rw [List.length_append]
        exact Nat.lt_add_right _ (h.named sent hsent)
      · intro runId hgone
        obtain ⟨ongoing, hongoing, hrest⟩ := h.gone runId hgone
        exact ⟨ongoing, List.mem_append_left _ hongoing, hrest⟩
  | moves index move =>
      obtain ⟨ongoing, hongoing, hmap⟩ := Option.bind_eq_some_iff.mp hstep
      obtain ⟨next, hmove, rfl⟩ := Option.map_eq_some_iff.mp hmap
      obtain ⟨hcall, hanswers, hsends⟩ := move_keeps hmove
      have hlt : index < client.calls.length := (List.getElem?_eq_some_iff.mp hongoing).1
      have hcases {other : ℕ} {found : Ongoing}
          (hget : (client.calls.set index next)[other]? = some found) :
          index = other ∧ found = next ∨ index ≠ other ∧ client.calls[other]? = some found := by
        by_cases hsame : index = other
        · subst hsame
          rw [List.getElem?_set_self hlt] at hget
          exact .inl ⟨rfl, (Option.some.inj hget).symm⟩
        · rw [List.getElem?_set_ne hsame] at hget
          exact .inr ⟨hsame, hget⟩
      refine ⟨?_, ?_, ?_, ?_⟩
      · intro other found hget
        rcases hcases hget with ⟨rfl, rfl⟩ | ⟨-, hold⟩
        · exact (h.lawful index ongoing hongoing).move hmove
        · exact h.lawful other found hold
      · intro other found hget
        rw [asked_leaves]
        rcases hcases hget with ⟨rfl, rfl⟩ | ⟨hne, hold⟩
        · rw [h.asked index ongoing hongoing, hsends, hcall]
          cases move with
          | sends => simp [List.replicate_succ']
          | _ => simp
        · rw [h.asked other found hold, if_neg fun hboth ↦ hne hboth.1, List.append_nil]
      · intro sent hsent
        rw [List.length_set]
        cases move with
        | sends =>
            rcases List.mem_append.mp hsent with hold | hnew
            · exact h.named sent hold
            · rw [List.mem_singleton.mp hnew]
              exact hlt
        | _ => exact h.named sent hsent
      · intro runId hgone
        have hnext : next ∈ client.calls.set index next := List.mem_set hlt next
        have hold (hbefore : runId ∈ client.gone) : ∃ found ∈ client.calls.set index next,
            found.call.progressOf = some runId ∧ .error .gone ∈ found.answers := by
          obtain ⟨found, hfound, hprogress, hanswer⟩ := h.gone runId hbefore
          obtain ⟨other, hother⟩ := List.mem_iff_getElem?.mp hfound
          by_cases hsame : index = other
          · subst hsame
            rw [hongoing] at hother
            cases hother
            exact ⟨next, hnext, hcall ▸ hprogress, hanswers.subset hanswer⟩
          · refine ⟨found, List.mem_iff_getElem?.mpr ⟨other, ?_⟩, hprogress, hanswer⟩
            rw [List.getElem?_set_ne hsame, hother]
        cases move with
        | records =>
            rcases List.mem_append.mp hgone with hnew | hbefore
            · have hprogress := Option.mem_toList.mp hnew
              refine ⟨next, hnext, hcall ▸ hprogress, hanswers.subset ?_⟩
              exact List.mem_of_getLast? ((h.lawful index ongoing hongoing).answered_gone hmove)
            · exact hold hbefore
        | _ => exact hold hgone

theorem inv_reachable (h : (machine complaint).Reachable client) : client.Inv complaint := by
  refine h.invariant _ (fun start hstart ↦ ?_) fun _ _ _ hinv _ hstep ↦ hinv.step hstep
  obtain ⟨hgone, hcalls, hsent⟩ := hstart
  refine ⟨?_, ?_, ?_, ?_⟩
  · intro index ongoing hget
    rw [hcalls] at hget
    cases hget
  · intro index ongoing hget
    rw [hcalls] at hget
    cases hget
  · rw [hsent]
    exact fun _ hmem ↦ absurd hmem List.not_mem_nil
  · rw [hgone]
    exact fun _ hmem ↦ absurd hmem List.not_mem_nil

/-- Once a run is known to be gone, every post of its progress uses up a call that was allowed
before. -/
theorem Inv.latched (h : client.Inv complaint) (hgone : runId ∈ client.gone)
    (hstep : client.step complaint action = some after) :
    runId ∈ after.gone ∧ after.posted runId + after.posting runId ≤
      client.posted runId + client.posting runId := by
  cases action with
  | passes nanos =>
      cases hstep
      exact ⟨hgone, Nat.le_refl _⟩
  | begins call =>
      cases hstep
      refine ⟨hgone, ?_⟩
      unfold posting posted
      rw [List.countP_append]
      simp
  | moves index move =>
      obtain ⟨ongoing, hongoing, hmap⟩ := Option.bind_eq_some_iff.mp hstep
      obtain ⟨next, hmove, rfl⟩ := Option.map_eq_some_iff.mp hmap
      have hlt : index < client.calls.length := (List.getElem?_eq_some_iff.mp hongoing).1
      have hget : client.calls[index] = ongoing := (List.getElem?_eq_some_iff.mp hongoing).2
      have hnext := not_allowed_of_gone hgone hmove
      have hposting : ({ client.leaves index ongoing.call move with
            calls := client.calls.set index next } : Client).posting runId =
          client.posting runId -
            if ongoing.call.progressOf = some runId ∧ ongoing.stage matches .allowed then 1
            else 0 := by
        unfold posting
        rw [List.countP_set hlt, hget]
        simp [hnext]
      refine ⟨?_, ?_⟩
      · cases move with
        | records => exact List.mem_append_right _ hgone
        | _ => exact hgone
      · rw [hposting]
        cases move with
        | sends =>
            have hposted : (client.leaves index ongoing.call .sends).posted runId =
                client.posted runId +
                  if ongoing.call.progressOf = some runId then 1 else 0 := by
              unfold posted leaves
              rw [List.countP_append]
              simp
            refine Nat.le_trans (Nat.le_of_eq (congrArg (· + _) hposted)) ?_
            by_cases hprogress : ongoing.call.progressOf = some runId
            · have hallowed := (h.lawful index ongoing hongoing).allowed_of_sends hprogress hmove
              have hpos : 0 < client.posting runId := by
                apply List.countP_pos_iff.mpr
                exact ⟨ongoing, List.mem_of_getElem? hongoing, by simp [hprogress, hallowed]⟩
              rw [if_pos hprogress, if_pos ⟨hprogress, hallowed⟩]
              omega
            · rw [if_neg hprogress]
              omega
        | _ => exact Nat.add_le_add_left (Nat.sub_le _ _) _

theorem posted_le {later : Client} {actions : List Action}
    (h : (machine complaint).Reachable client) (hgone : runId ∈ client.gone)
    (hexec : (machine complaint).exec client actions = some later) :
    later.posted runId ≤ client.posted runId + client.posting runId := by
  have hlater := h.exec_invariant
    (fun after ↦ runId ∈ after.gone ∧ after.posted runId + after.posting runId ≤
      client.posted runId + client.posting runId)
    (fun before action after hreach hbefore hstep ↦ by
      have hnext := (inv_reachable hreach).latched hbefore.1 hstep
      exact ⟨hnext.1, Nat.le_trans hnext.2 hbefore.2⟩)
    ⟨hgone, Nat.le_refl _⟩ hexec
  exact Nat.le_trans (Nat.le_add_right _ _) hlater.2

end Client

/-- What is kept of a call that was asked for with some requests: an answer that another request
followed asked for it. -/
structure Kept (complaint : Text → Text) (ongoing : Ongoing) (asked : List Call) : Prop where
  own : ∀ call ∈ asked, call = ongoing.call
  sends : asked.length = ongoing.sends
  answered : ongoing.answers.length ≤ asked.length ∧ asked.length ≤ ongoing.answers.length + 1
  bounded : ∀ limit, ongoing.call.limit = some limit → asked.length ≤ limit
  retried : ∀ result ∈ ongoing.answers.take (asked.length - 1), Retryable result
  returned : ∀ result, ongoing.stage = .returned result → Ended complaint ongoing result

theorem Lawful.kept (h : Lawful complaint ongoing) :
    Kept complaint ongoing (List.replicate ongoing.sends ongoing.call) := by
  have hlength : (List.replicate ongoing.sends ongoing.call).length = ongoing.sends :=
    List.length_replicate
  refine ⟨fun call hmem ↦ List.eq_of_mem_replicate hmem, hlength, ?_, ?_, ?_, ?_⟩
  · rw [hlength]
    exact h.answered
  · rw [hlength]
    exact h.bounded
  · rw [hlength]
    exact h.retried
  · intro result hstage
    have hstands := h.stands
    rwa [Stands, hstage] at hstands

/-- **Every call asks the farm for its own thing, as often as it may, and returns what the last
answer says.**  No two calls look alike to the farm.  A call that is not retried asks once, so a run
is opened once at most for each call, and one that is retried asks again only after an answer that
calls for it.  A run is taken to be gone only where the farm said so of its progress, and from then
on no call posts its progress but those that had looked before. -/
theorem calls_kept (farm : FarmClient) (token : Text) (complaint : Text → Text) :
    Function.Injective (Call.request farm token) ∧
    ∀ client, (Client.machine complaint).Reachable client →
      (∀ (index : ℕ) ongoing, client.calls[index]? = some ongoing →
        Kept complaint ongoing (client.asked index)) ∧
      (∀ runId ∈ client.gone, ∃ ongoing ∈ client.calls,
        ongoing.call.progressOf = some runId ∧ .error .gone ∈ ongoing.answers) ∧
      ∀ runId ∈ client.gone, ∀ actions later,
        (Client.machine complaint).exec client actions = some later →
          later.posted runId ≤ client.posted runId + client.posting runId := by
  refine ⟨request_injective, fun client hreach ↦ ?_⟩
  have hinv := Client.inv_reachable hreach
  refine ⟨fun index ongoing hget ↦ ?_, hinv.gone, fun runId hgone actions later hexec ↦ ?_⟩
  · rw [hinv.asked index ongoing hget]
    exact (hinv.lawful index ongoing hget).kept
  · exact Client.posted_le hreach hgone hexec

end Farm

end RalphexRunner
