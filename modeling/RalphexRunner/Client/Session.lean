import RalphexRunner.Ipc.Codec
import RalphexRunner.Ipc.Frames
import RalphexRunner.Semantics.Fairness
import RalphexRunner.Text.Ansi

/-!
# A client session

What `rxd` does once its command is sent: it waits for the first reply, says once that the daemon
holds it back, and then prints every reply until one of them, the end of the connection or Ctrl-C
lets it exit.  The bytes of the replies arrive in any pieces, and the connection ends anywhere.

Behind the session stand a run and the follower that serves it.  However the three are interleaved
with the wire between them, what is printed is a front of what the follower answers.
-/

namespace RalphexRunner

namespace Ipc

variable {M : Type*} {toVec : M → Except Text (List UInt8)}
  {fromSlice : List UInt8 → Except Text M} {ending : Option Ending}

/-- A stream of which some bytes have arrived, and how it ends behind them. -/
def arrived (bytes : List UInt8) (ending : Ending) : Reader where
  chunks := if h : bytes = [] then [] else [⟨bytes, h⟩]
  ending := ending

/-- What has arrived is enough to tell what is received. -/
abbrev Settled (bytes : List UInt8) : Prop :=
  headerBytes ≤ bytes.length ∧ (maxMessageBytes < leNumber (bytes.take headerBytes) ∨
    headerBytes + leNumber (bytes.take headerBytes) ≤ bytes.length)

/-- Receive from what has arrived, once that is enough or the stream is over: what is received, and
the bytes behind it. -/
def receiveArrived (fromSlice : List UInt8 → Except Text M) (bytes : List UInt8)
    (ending : Option Ending) : Option (Except IpcError M × List UInt8) :=
  if Settled bytes ∨ ending.isSome then
    some ((receive fromSlice (arrived bytes (ending.getD .eof))).map id Reader.bytes)
  else none

@[simp] theorem bytes_arrived (bytes : List UInt8) (ending : Ending) :
    (arrived bytes ending).bytes = bytes := by
  unfold arrived Reader.bytes
  split
  · rename_i hempty
    rw [hempty]
    rfl
  · exact List.flatMap_singleton ..

/-- A whole frame is received whether or not the stream is over. -/
theorem receiveArrived_holding {message : M} {bytes : List UInt8}
    (hcap : bytes.length ≤ maxMessageBytes) (hholds : fromSlice bytes = .ok message)
    (rest : List UInt8) :
    receiveArrived fromSlice (frame bytes ++ rest) ending = some (.ok message, rest) := by
  have hheader : (frame bytes ++ rest).take headerBytes = leBytes headerBytes bytes.length := by
    rw [frame, List.append_assoc]
    exact List.take_left' (length_leBytes _ _)
  have hsettled : Settled (frame bytes ++ rest) := by
    have hlength : (frame bytes ++ rest).length = headerBytes + bytes.length + rest.length := by
      rw [List.length_append, length_frame]
    rw [Settled, hheader, leNumber_header hcap, hlength]
    omega
  obtain ⟨after, hreceive, hafter, -⟩ :=
    receive_holding hcap hholds (bytes_arrived (frame bytes ++ rest) (ending.getD .eof))
  rw [receiveArrived, if_pos (.inl hsettled), hreceive, ← hafter]
  rfl

theorem receiveArrived_frame (hinverts : Inverts toVec fromSlice) {message : M}
    {bytes : List UInt8} (h : Encodes toVec message bytes) (rest : List UInt8) :
    receiveArrived fromSlice (frame bytes ++ rest) ending = some (.ok message, rest) :=
  receiveArrived_holding h.2 (hinverts message bytes h.1) rest

/-- A part of a frame is waited on, until the stream ends. -/
theorem receiveArrived_short {bytes part : List UInt8} (hcap : bytes.length ≤ maxMessageBytes)
    (hstarts : part <+: frame bytes) (hshort : part.length < (frame bytes).length) :
    receiveArrived fromSlice part ending = ending.map fun ending ↦ (.error (ended ending), []) := by
  cases ending with
  | none =>
      have hsettled : ¬ Settled part := by
        rintro ⟨hheader, hrest⟩
        have htake : part.take headerBytes = leBytes headerBytes bytes.length := by
          rw [List.prefix_iff_eq_take.mp hstarts, List.take_take, Nat.min_eq_left hheader, frame]
          exact List.take_left' (length_leBytes _ _)
        rw [htake, leNumber_header hcap] at hrest
        rw [length_frame] at hshort
        omega
      rw [receiveArrived, if_neg (by simp [hsettled])]
      rfl
  | some ending =>
      obtain ⟨after, hreceive, hafter, -⟩ := @receive_short _ fromSlice (arrived part ending) bytes
        hcap (by rwa [bytes_arrived]) (by rwa [bytes_arrived])
      rw [receiveArrived, if_pos (.inr rfl), Option.getD_some, hreceive, ← hafter]
      rfl

end Ipc

def IpcError.message : IpcError → Text
  | .closed => "the connection was closed".toList
  | .tooLarge bytes => "the message is ".toList ++ numeral bytes ++
      " bytes, over the 10 MiB cap".toList
  | .io message => "the connection failed: ".toList ++ message
  | .encode message => "the message could not be encoded: ".toList ++ message
  | .decode message => "the message could not be decoded: ".toList ++ message

/-- A part of what stands in front of something else either holds all of it or is a part of it. -/
theorem prefix_append_cases {α : Type*} {part first rest : List α} (h : part <+: first ++ rest) :
    (∃ more, part = first ++ more ∧ more <+: rest) ∨
      part <+: first ∧ part.length < first.length := by
  by_cases hwhole : first.length ≤ part.length
  · obtain ⟨more, rfl⟩ : first <+: part :=
      List.prefix_of_prefix_length_le (List.prefix_append _ _) h hwhole
    exact .inl ⟨more, rfl, (List.prefix_append_right_inj _).mp h⟩
  · have hshort := Nat.lt_of_not_le hwhole
    exact .inr ⟨List.prefix_of_prefix_length_le h (List.prefix_append _ _) (Nat.le_of_lt hshort),
      hshort⟩

/-! ## The session -/

namespace Rxd

/-- What the client does with the escape sequences of a line. -/
inductive Palette where
  | keep
  | strip

/-- Whether a reply that is held back is announced. -/
inductive Notice where
  | poll
  | quiet

inductive ExitCode where
  | success
  | failure
  deriving DecidableEq

/-- A line on the standard output or on the standard error. -/
inductive Printed where
  | out (line : Text)
  | err (line : Text)

/-- How long the daemon can hold the first reply back, in seconds. -/
def held : ℕ := claimTimeout.asSecs + requestTimeout.asSecs

def announce : Notice → List Printed
  | .poll => [.out ("waiting for the daemon to finish its farm poll (this can take up to ".toList ++
      numeral held ++ " s)".toList)]
  | .quiet => []

/-- What is printed of how a run ended, and the exit code. -/
def report (status : CompleteStatus) (prUrl failReason message : Text) :
    List Printed × ExitCode :=
  let url := if prUrl = [] then [] else [.out prUrl]
  match status with
  | .done => (url ++ [.out "done".toList], .success)
  | .error =>
      (url ++ [.err (if message = [] then "rxd: the run failed: ".toList ++ failReason
        else "rxd: the run failed: ".toList ++ failReason ++ ": ".toList ++ message)], .failure)

/-- What is printed of a reply, and the exit code of one that is the last. -/
def «show» (palette : Palette) : Ipc.Reply → List Printed × Option ExitCode
  | .response (.started runId dashboardUrl) =>
      ([.out ("run ".toList ++ runId.value), .out dashboardUrl], none)
  | .response (.line text) =>
      match palette with
      | .keep => ([.out text], none)
      | .strip => ([.out (Ansi.plain text)], none)
  | .response (.ended status prUrl failReason message) =>
      (report status prUrl failReason message).map id some
  | .response (.error message) => ([.err ("rxd: ".toList ++ message)], some .failure)
  | .busy runId => ([.err ("rxd: the daemon is running ".toList ++ runId.value)], some .failure)
  | .noRun => ([.err "rxd: nothing is running".toList], some .failure)

/-- Where the session stands. -/
inductive Pc where
  | waiting (announced : Bool)
  | following
  | exited (code : ExitCode)
  deriving DecidableEq

end Rxd

open Rxd in
/-- A session: the bytes that have arrived and are not read, how the connection ended if it did, and
what was printed. -/
structure Session where
  palette : Palette
  notice : Notice
  pc : Pc
  buffer : List UInt8
  hangup : Option Ending
  printed : List Printed

namespace Session

open Rxd

def print (session : Session) (lines : List Printed) : Session :=
  { session with printed := session.printed ++ lines }

/-- What is said of a reply that could not be received. -/
def refusal (pc : Pc) (error : IpcError) : Text :=
  match pc, error with
  | .following, .closed => "rxd: the daemon closed the connection".toList
  | _, error => "rxd: ".toList ++ error.message

/-- What is said when Ctrl-C ends the session. -/
def detached : Pc → Text
  | .waiting _ => "detached before the run id arrived; the daemon may still start it ".toList ++
      "- use \x60rxd attach\x60".toList
  | _ => "detached; the run continues".toList

/-- A reply is shown, and either the session exits or it goes on to follow. -/
def takes (session : Session) (received : Except IpcError Ipc.Reply × List UInt8) : Session :=
  match received with
  | (.ok reply, rest) =>
      let shown := «show» session.palette reply
      let after := { session with buffer := rest }.print shown.1
      match shown.2 with
      | some code => { after with pc := .exited code }
      | none => { after with pc := .following }
  | (.error error, rest) =>
      { session with buffer := rest, pc := .exited .failure }.print
        [.err (refusal session.pc error)]

@[simp] theorem takes_hangup (session : Session)
    (received : Except IpcError Ipc.Reply × List UInt8) :
    (session.takes received).hangup = session.hangup := by
  obtain ⟨reply | error, rest⟩ := received
  · rfl
  · unfold takes
    dsimp only
    split <;> rfl

@[simp] theorem takes_buffer (session : Session)
    (received : Except IpcError Ipc.Reply × List UInt8) :
    (session.takes received).buffer = received.2 := by
  obtain ⟨reply | error, rest⟩ := received
  · rfl
  · unfold takes
    dsimp only
    split <;> rfl

/-- What can happen to a session. -/
inductive Action where
  | arrives (chunk : List UInt8)
  | hangsUp (ending : Ending)
  | notices
  | interrupts
  | receives

variable (complaint : List UInt8 → Text)

def step (session : Session) : Action → Option Session
  | .arrives chunk =>
      match session.hangup with
      | none => some { session with buffer := session.buffer ++ chunk }
      | some _ => none
  | .hangsUp ending =>
      match session.hangup with
      | none => some { session with hangup := some ending }
      | some _ => none
  | .notices =>
      match session.pc with
      | .waiting false =>
          some ({ session with pc := .waiting true }.print (announce session.notice))
      | _ => none
  | .interrupts =>
      match session.pc with
      | .exited _ => none
      | pc => some ({ session with pc := .exited .success }.print [.out (detached pc)])
  | .receives =>
      match session.pc with
      | .exited _ => none
      | _ =>
          (Ipc.receiveArrived (Ipc.fromSlice Ipc.Reply.codec complaint) session.buffer
            session.hangup).map session.takes

/-- A session that has not exited takes what it receives. -/
theorem step_receives {complaint : List UInt8 → Text} {session : Session}
    {received : Except IpcError Ipc.Reply × List UInt8} (h : ∀ code, session.pc ≠ .exited code)
    (hreceived : Ipc.receiveArrived (Ipc.fromSlice Ipc.Reply.codec complaint) session.buffer
      session.hangup = some received) :
    session.step complaint .receives = some (session.takes received) := by
  cases hpc : session.pc with
  | waiting | following => simp only [step, hpc, hreceived, Option.map_some]
  | exited code => exact absurd hpc (h code)

end Session

/-! ## A run, its follower and the session they serve -/

/-- A run, the follower that serves a session, and how much of what the follower sends has
arrived. -/
structure Attached where
  followed : Followed
  session : Session
  delivered : ℕ

namespace Attached

open Rxd

instance (response : Response) : Decidable response.Fits :=
  inferInstanceAs (Decidable (response.bytes.length ≤ maxMessageBytes))

/-- What the follower sends: it stops at the first response that does not fit a frame. -/
def sendable (responses : List Response) : List Response :=
  responses.takeWhile fun response ↦ decide response.Fits

/-- Responses as they stand on the wire. -/
def frames (responses : List Response) : List UInt8 :=
  responses.flatMap fun response ↦ Ipc.frame response.bytes

abbrev responses (attached : Attached) : List Response := attached.followed.client.responses

abbrev wire (attached : Attached) : List UInt8 := frames (sendable attached.responses)

/-- What can happen: the run or its follower goes on, bytes arrive, or the session goes on. -/
inductive Action where
  | followed (action : Followed.Action)
  | delivers (count : ℕ)
  | session (action : Session.Action)

variable (complaint : List UInt8 → Text)

def step (attached : Attached) : Action → Option Attached
  | .followed action =>
      (attached.followed.step action).map fun followed ↦ { attached with followed }
  | .delivers count =>
      if attached.delivered + count ≤ attached.wire.length then
        (attached.session.step complaint
          (.arrives ((attached.wire.drop attached.delivered).take count))).map fun session ↦
            { attached with session, delivered := attached.delivered + count }
      else none
  | .session (.arrives _) => none
  | .session action =>
      (attached.session.step complaint action).map fun session ↦ { attached with session }

/-- A run that has just been entered, a follower about to serve it, and a session whose command is
sent. -/
def machine : Machine Attached Action where
  init attached := Followed.machine.init attached.followed ∧ attached.session.pc = .waiting false ∧
    attached.session.buffer = [] ∧ attached.session.hangup = none ∧
    attached.session.printed = [] ∧ attached.delivered = 0
  step := step complaint

variable {complaint : List UInt8 → Text} {attached next : Attached}

theorem fits_of_sent {response : Response} {responses told later : List Response}
    (h : sendable responses = told ++ response :: later) : response.Fits := by
  have hmem : response ∈ sendable responses := by
    rw [h]
    exact List.mem_append_right told List.mem_cons_self
  exact of_decide_eq_true (List.mem_takeWhile_imp hmem :)

/-- What is sent stays sent. -/
theorem sendable_append (responses more : List Response) :
    ∃ later, sendable (responses ++ more) = sendable responses ++ later := by
  unfold sendable
  rw [List.takeWhile_append]
  split
  · rename_i hall
    refine ⟨_, congrArg (· ++ _) ?_⟩
    exact ((List.takeWhile_prefix _).eq_of_length hall).symm
  · exact ⟨[], (List.append_nil _).symm⟩

theorem sendable_eq_self {responses : List Response} (h : ∀ response ∈ responses, response.Fits) :
    sendable responses = responses :=
  List.takeWhile_eq_self_iff.mpr fun response hmem ↦ decide_eq_true (h response hmem)

theorem frames_append (first second : List Response) :
    frames (first ++ second) = frames first ++ frames second := List.flatMap_append ..

/-- A response on the wire is received as what was sent. -/
theorem receiveArrived_response (complaint : List UInt8 → Text) {response : Response}
    (h : response.Fits) (rest : List UInt8) (ending : Option Ending) :
    Ipc.receiveArrived (Ipc.fromSlice Ipc.Reply.codec complaint)
        (Ipc.frame response.bytes ++ rest) ending = some (.ok (.response response), rest) := by
  have hinverts := Ipc.inverts Ipc.Reply.codec complaint
  have hencodes : Ipc.Encodes (Ipc.toVec Ipc.Reply.codec) (.response response) response.bytes :=
    ⟨congrArg Except.ok (Ipc.Reply.bytes_response response), h⟩
  exact Ipc.receiveArrived_frame hinverts hencodes rest

end Attached

namespace Rxd

/-- The exit code of a response that is the last. -/
def exits : Response → Option ExitCode
  | .started _ _ => none
  | .line _ => none
  | .ended .done _ _ _ => some .success
  | .ended .error _ _ _ => some .failure
  | .error _ => some .failure

theorem show_exits (palette : Palette) (response : Response) :
    («show» palette (.response response)).2 = exits response := by
  cases response with
  | started => rfl
  | line => cases palette <;> rfl
  | ended status => cases status <;> rfl
  | error => rfl

/-- The exit code of a client that was told how the run ended. -/
def exitOf : RunEnd → ExitCode
  | .reported completion =>
      match completion.status with
      | .done => .success
      | .error => .failure
  | _ => .failure

theorem exits_terminal (ended : RunEnd) : exits (Follow.terminal ended) = some (exitOf ended) := by
  cases ended with
  | reported completion =>
      rw [Follow.terminal, exitOf]
      cases completion.status <;> rfl
  | _ => rfl

end Rxd

namespace Follow

open Rxd

variable {follow next : Follow}

theorem exits_response (delivery : Broadcast.Delivery Text) : exits (response delivery) = none := by
  cases delivery <;> rfl

theorem going_of_streamed {last : List Response} (h : Streamed follow last) :
    ∃ front, follow.responses = front ++ last ∧ ∀ response ∈ front, exits response = none := by
  obtain ⟨-, -, replay, deliveries, -, -, hresponses⟩ := h
  refine ⟨.started follow.current.runId follow.current.dashboardUrl ::
    (replay.map Response.line ++ deliveries.map response), hresponses, fun response hmem ↦ ?_⟩
  rcases List.mem_cons.mp hmem with rfl | hmem
  · rfl
  rcases List.mem_append.mp hmem with hmem | hmem
  · obtain ⟨text, -, rfl⟩ := List.mem_map.mp hmem
    rfl
  · obtain ⟨delivery, -, rfl⟩ := List.mem_map.mp hmem
    exact exits_response delivery

/-- A follower goes on until it has answered, and its answer is the last it sends. -/
theorem going_or_answered (h : Inv follow) :
    (∀ response ∈ follow.responses, exits response = none) ∨
      ∃ ended front, follow.pc = .answered ended ∧ follow.responses = front ++ [terminal ended] ∧
        ∀ response ∈ front, exits response = none := by
  have htold := h.told
  unfold Told at htold
  cases hpc : follow.pc with
  | arriving =>
      simp only [hpc] at htold
      simp [htold]
  | started =>
      simp only [hpc] at htold
      simp [htold, exits]
  | replaying rest =>
      simp only [hpc] at htold
      obtain ⟨-, -, shown, -, hresponses⟩ := htold
      left
      rw [hresponses]
      simp [exits]
  | streaming =>
      simp only [hpc] at htold
      obtain ⟨front, hfront, hgoing⟩ := going_of_streamed htold
      rw [List.append_nil] at hfront
      exact .inl (hfront ▸ hgoing)
  | draining ended =>
      simp only [hpc] at htold
      obtain ⟨front, hfront, hgoing⟩ := going_of_streamed htold
      rw [List.append_nil] at hfront
      exact .inl (hfront ▸ hgoing)
  | answered ended =>
      simp only [hpc] at htold
      obtain ⟨front, hfront, hgoing⟩ := going_of_streamed htold
      exact .inr ⟨ended, front, rfl, hfront, hgoing⟩

/-- The first response tells which run it is. -/
theorem started_or_tail (h : Inv follow) {response : Response}
    (hmem : response ∈ follow.responses) :
    response = .started follow.current.runId follow.current.dashboardUrl ∨
      response ∈ follow.responses.tail := by
  have htold := h.told
  unfold Told at htold
  have hstreamed {last : List Response} (h : Streamed follow last) :
      response = .started follow.current.runId follow.current.dashboardUrl ∨
        response ∈ follow.responses.tail := by
    obtain ⟨-, -, replay, deliveries, -, -, hresponses⟩ := h
    rw [hresponses] at hmem ⊢
    exact List.mem_cons.mp hmem
  cases hpc : follow.pc with
  | arriving =>
      simp only [hpc] at htold
      rw [htold] at hmem
      cases hmem
  | started =>
      simp only [hpc] at htold
      rw [htold] at hmem
      exact .inl (List.mem_singleton.mp hmem)
  | replaying rest =>
      simp only [hpc] at htold
      obtain ⟨-, -, shown, -, hresponses⟩ := htold
      rw [hresponses] at hmem ⊢
      exact List.mem_cons.mp hmem
  | streaming | draining | answered =>
      simp only [hpc] at htold
      exact hstreamed htold

/-- A step of the follower's own only adds to what it sent. -/
theorem Moves.responses (h : Moves follow next) :
    ∃ more, next.responses = follow.responses ++ more := by
  cases h with
  | starts | replays | receives | answers => exact ⟨_, rfl⟩
  | subscribes | streams | seesEnd => exact ⟨[], (List.append_nil _).symm⟩

end Follow

namespace Followed

variable {followed next : Followed}

theorem responses_of_step {action : Action} (h : step followed action = some next) :
    ∃ more, next.client.responses = followed.client.responses ++ more := by
  rcases step_cases h with ⟨taken, -, -, hclient⟩ | ⟨taken, -, hown, htaken, -⟩
  · rw [hclient]
    exact ⟨[], (List.append_nil _).symm⟩
  · exact (Follow.moves_of_own hown htaken).responses

/-- A follower that has answered told how the run was left. -/
theorem left_of_answered (h : machine.Reachable followed) {ended : RunEnd}
    (hpc : followed.client.pc = .answered ended) :
    ∃ finished, followed.run.pc = .left finished ended := by
  have hjoined := joined_of_reachable h
  have hfinished := (Follow.inv_of_reachable hjoined.client).finished ended (.inr hpc)
  rw [hjoined.state] at hfinished
  cases hleft : followed.run.pc with
  | left finished other =>
      rw [hleft] at hfinished
      cases hfinished
      exact ⟨finished, rfl⟩
  | _ =>
      rw [hleft] at hfinished
      cases hfinished

end Followed

namespace Attached

open Rxd

variable {complaint : List UInt8 → Text} {attached next : Attached}

/-- What is printed of responses. -/
def shown (palette : Palette) (responses : List Response) : List Printed :=
  responses.flatMap fun response ↦ («show» palette (.response response)).1

/-- Where a session that has read `told` stands. -/
def stood (told : List Response) : Pc := if told = [] then .waiting true else .following

/-- The session has read `told` of what has arrived. -/
structure Reads (attached : Attached) (told : List Response) : Prop where
  going : ∀ response ∈ told, exits response = none
  arrived : attached.wire.take attached.delivered = frames told ++ attached.session.buffer
  within : attached.delivered ≤ attached.wire.length

/-- How a session comes to exit: it is detached, the connection is lost, or it is told the last
response. -/
inductive Parts (attached : Attached) (told : List Response) : ExitCode → List Printed → Prop
  | detached : (∀ response ∈ told, exits response = none) →
      Parts attached told .success [.out (Session.detached (stood told))]
  | lost (ending : Ending) : attached.session.hangup = some ending →
      (∀ response ∈ told, exits response = none) →
      Parts attached told .failure [.err (Session.refusal (stood told) (Ipc.ended ending))]
  | told (front : List Response) (last : Response) (code : ExitCode) : told = front ++ [last] →
      (∀ response ∈ front, exits response = none) → exits last = some code →
      Parts attached told code []

/-- What was read and what was said at the end, by where the session stands. -/
def Stands (attached : Attached) (told : List Response) (parting : List Printed) : Prop :=
  match attached.session.pc with
  | .waiting _ => told = [] ∧ parting = [] ∧ Reads attached []
  | .following => told ≠ [] ∧ parting = [] ∧ Reads attached told
  | .exited code => Parts attached told code parting

/-- What was printed is the announcement, what was read and what was said at the end. -/
structure Tells (attached : Attached) (told left : List Response) (noticed parting : List Printed) :
    Prop where
  sent : sendable attached.responses = told ++ left
  announced : noticed = [] ∨ noticed = announce attached.session.notice
  unannounced : attached.session.pc = .waiting false → noticed = []
  printed : attached.session.printed = noticed ++ shown attached.session.palette told ++ parting
  stands : Stands attached told parting

/-- What was printed is accounted for. -/
def Inv (attached : Attached) : Prop :=
  ∃ told left noticed parting, Tells attached told left noticed parting

/-- A session that has not exited has read what came whole and waits for the rest. -/
theorem Tells.reads {told left : List Response} {noticed parting : List Printed}
    (h : Tells attached told left noticed parting)
    (hrunning : ∀ code, attached.session.pc ≠ .exited code) :
    parting = [] ∧ Reads attached told ∧
      Session.detached attached.session.pc = Session.detached (stood told) ∧
      ∀ error, Session.refusal attached.session.pc error = Session.refusal (stood told) error := by
  have hstands := h.stands
  unfold Stands at hstands
  cases hpc : attached.session.pc with
  | waiting announced =>
      simp only [hpc] at hstands
      obtain ⟨rfl, hparting, hreads⟩ := hstands
      exact ⟨hparting, hreads, rfl, fun error ↦ by cases error <;> rfl⟩
  | following =>
      simp only [hpc] at hstands
      obtain ⟨htold, hparting, hreads⟩ := hstands
      have hstood : stood told = .following := if_neg htold
      rw [hstood]
      exact ⟨hparting, hreads, rfl, fun _ ↦ rfl⟩
  | exited code => exact absurd hpc (hrunning code)

/-- What was read is read for good. -/
theorem Stands.imp {told : List Response} {parting : List Printed}
    (h : Stands attached told parting) (hpc : next.session.pc = attached.session.pc)
    (hhangup : ∀ ending, attached.session.hangup = some ending →
      next.session.hangup = some ending)
    (hreads : ∀ told, Reads attached told → Reads next told) : Stands next told parting := by
  unfold Stands at h ⊢
  rw [hpc]
  split at h
  · exact ⟨h.1, h.2.1, hreads _ h.2.2⟩
  · exact ⟨h.1, h.2.1, hreads _ h.2.2⟩
  · cases h with
    | detached hgoing => exact .detached hgoing
    | lost ending hlost hgoing => exact .lost ending (hhangup ending hlost) hgoing
    | told front last _ htold hgoing hlast => exact .told front last _ htold hgoing hlast

/-- What the run and its follower do keeps it. -/
theorem step_followed {action : Followed.Action} {followed : Followed} (h : Inv attached)
    (hstep : attached.followed.step action = some followed) : Inv { attached with followed } := by
  obtain ⟨told, left, noticed, parting, htells⟩ := h
  obtain ⟨more, hmore⟩ := Followed.responses_of_step hstep
  obtain ⟨later, hlater⟩ := sendable_append attached.responses more
  rw [← hmore] at hlater
  have hwire : wire { attached with followed } = attached.wire ++ frames later := by
    rw [wire, hlater, frames_append]
  refine ⟨told, left ++ later, noticed, parting, ?_, htells.announced, htells.unannounced,
    htells.printed, htells.stands.imp rfl (fun _ ↦ id) fun told hreads ↦ ⟨hreads.going, ?_, ?_⟩⟩
  · rw [hlater, htells.sent, List.append_assoc]
  · rw [hwire, List.take_append_of_le_length hreads.within]
    exact hreads.arrived
  · rw [hwire, List.length_append]
    exact Nat.le_add_right_of_le hreads.within

/-- Bytes that arrive stand behind those that have. -/
theorem step_delivers {count : ℕ} {session : Session} (h : Inv attached)
    (hcount : attached.delivered + count ≤ attached.wire.length)
    (hstep : attached.session.step complaint
      (.arrives ((attached.wire.drop attached.delivered).take count)) = some session) :
    Inv { attached with session, delivered := attached.delivered + count } := by
  obtain ⟨told, left, noticed, parting, htells⟩ := h
  simp only [Session.step] at hstep
  split at hstep <;> cases hstep
  refine ⟨told, left, noticed, parting, htells.sent, htells.announced, htells.unannounced,
    htells.printed, htells.stands.imp rfl (fun _ ↦ id) fun told hreads ↦
      ⟨hreads.going, ?_, hcount⟩⟩
  change attached.wire.take (attached.delivered + count) = _
  rw [List.take_add, hreads.arrived, List.append_assoc]

theorem step_hangsUp {ending : Ending} {session : Session} (h : Inv attached)
    (hstep : attached.session.step complaint (.hangsUp ending) = some session) :
    Inv { attached with session } := by
  obtain ⟨told, left, noticed, parting, htells⟩ := h
  simp only [Session.step] at hstep
  split at hstep <;> cases hstep
  rename_i hopen
  refine ⟨told, left, noticed, parting, htells.sent, htells.announced, htells.unannounced,
    htells.printed, htells.stands.imp rfl ?_ fun told hreads ↦
      ⟨hreads.going, hreads.arrived, hreads.within⟩⟩
  intro other hother
  rw [hopen] at hother
  cases hother

/-- An announcement keeps it. -/
theorem step_notices {session : Session} (h : Inv attached)
    (hstep : attached.session.step complaint .notices = some session) :
    Inv { attached with session } := by
  obtain ⟨told, left, noticed, parting, htells⟩ := h
  simp only [Session.step] at hstep
  split at hstep <;> cases hstep
  rename_i hpc
  have hstands := htells.stands
  simp only [Stands, hpc] at hstands
  obtain ⟨rfl, rfl, hreads⟩ := hstands
  have hnoticed := htells.unannounced hpc
  refine ⟨[], left, announce attached.session.notice, [], htells.sent, .inr rfl, nofun, ?_,
    rfl, rfl, hreads.going, hreads.arrived, hreads.within⟩
  change attached.session.printed ++ announce attached.session.notice = _
  rw [htells.printed, hnoticed]
  simp [shown]

theorem step_interrupts {session : Session} (h : Inv attached)
    (hstep : attached.session.step complaint .interrupts = some session) :
    Inv { attached with session } := by
  obtain ⟨told, left, noticed, parting, htells⟩ := h
  simp only [Session.step] at hstep
  split at hstep <;> cases hstep
  rename_i hrunning
  obtain ⟨rfl, hreads, hdetached, -⟩ := htells.reads fun code ↦ hrunning code
  refine ⟨told, left, noticed, _, htells.sent, htells.announced, nofun, ?_,
    .detached hreads.going⟩
  change attached.session.printed ++ [.out (Session.detached attached.session.pc)] = _
  rw [htells.printed, hdetached, List.append_nil]
  rfl

/-- What has arrived and is not read starts what is sent behind what was read. -/
theorem Reads.buffer {told left : List Response} (h : Reads attached told)
    (hsent : sendable attached.responses = told ++ left) :
    attached.session.buffer <+: frames left := by
  have hstarts := List.take_prefix attached.delivered attached.wire
  rw [h.arrived, wire, hsent, frames_append] at hstarts
  exact (List.prefix_append_right_inj _).mp hstarts

/-- What is received is the next response that is sent, or the end of the connection. -/
theorem Reads.received {told left : List Response}
    {received : Except IpcError Ipc.Reply × List UInt8} (h : Reads attached told)
    (hsent : sendable attached.responses = told ++ left)
    (hreceived : Ipc.receiveArrived (Ipc.fromSlice Ipc.Reply.codec complaint)
      attached.session.buffer attached.session.hangup = some received) :
    (∃ response later, left = response :: later ∧ received.1 = .ok (.response response) ∧
        attached.session.buffer = Ipc.frame response.bytes ++ received.2) ∨
      ∃ ending, attached.session.hangup = some ending ∧ received = (.error (Ipc.ended ending), [])
    := by
  have hended {bytes : List UInt8} (hcap : bytes.length ≤ maxMessageBytes)
      (hstarts : attached.session.buffer <+: Ipc.frame bytes)
      (hshort : attached.session.buffer.length < (Ipc.frame bytes).length) :
      ∃ ending, attached.session.hangup = some ending ∧
        received = (.error (Ipc.ended ending), []) := by
    rw [Ipc.receiveArrived_short hcap hstarts hshort, Option.map_eq_some_iff] at hreceived
    obtain ⟨ending, hending, rfl⟩ := hreceived
    exact ⟨ending, hending, rfl⟩
  have hbuffer := h.buffer hsent
  cases left with
  | nil =>
      have hempty : attached.session.buffer = [] := List.prefix_nil.mp hbuffer
      refine .inr (@hended [] (Nat.zero_le _) ?_ ?_)
      · rw [hempty]
        exact List.nil_prefix
      · rw [hempty]
        decide
  | cons response later =>
      have hfits : response.Fits := fits_of_sent hsent
      rcases prefix_append_cases hbuffer with ⟨more, hwhole, -⟩ | ⟨hstarts, hshort⟩
      · rw [hwhole, receiveArrived_response complaint hfits] at hreceived
        cases hreceived
        exact .inl ⟨response, later, rfl, rfl, hwhole⟩
      · exact .inr (hended hfits hstarts hshort)

/-- One more response is read. -/
theorem Tells.takes {told later : List Response} {noticed : List Printed} {response : Response}
    {rest : List UInt8} (h : Tells attached told (response :: later) noticed [])
    (hreads : Reads attached told)
    (hbuffer : attached.session.buffer = Ipc.frame response.bytes ++ rest) :
    Tells { attached with session := attached.session.takes (.ok (.response response), rest) }
      (told ++ [response]) later noticed [] := by
  have hexits := show_exits attached.session.palette response
  have hprinted : attached.session.printed ++
        («show» attached.session.palette (.response response)).1 =
      noticed ++ shown attached.session.palette (told ++ [response]) ++ [] := by
    rw [h.printed, shown, shown, List.flatMap_append, List.flatMap_singleton]
    simp only [List.append_assoc, List.append_nil]
  have hsent : sendable attached.responses = told ++ [response] ++ later := by
    rw [h.sent, List.append_assoc, List.singleton_append]
  cases hcode : exits response with
  | none =>
      rw [hcode] at hexits
      have hafter : attached.session.takes (.ok (.response response), rest) =
          { attached.session with
            buffer := rest
            pc := .following
            printed := attached.session.printed ++
              («show» attached.session.palette (.response response)).1 } := by
        simp only [Session.takes, hexits]
        rfl
      rw [hafter]
      refine ⟨hsent, h.announced, nofun, hprinted, by simp, rfl, ?_, ?_, hreads.within⟩
      · intro other hother
        rcases List.mem_append.mp hother with hother | hother
        · exact hreads.going other hother
        · rwa [List.mem_singleton.mp hother]
      · have harrived := hreads.arrived
        rw [hbuffer, ← List.append_assoc] at harrived
        rw [frames_append]
        simpa only [frames, List.flatMap_singleton] using harrived
  | some code =>
      rw [hcode] at hexits
      have hafter : attached.session.takes (.ok (.response response), rest) =
          { attached.session with
            buffer := rest
            pc := .exited code
            printed := attached.session.printed ++
              («show» attached.session.palette (.response response)).1 } := by
        simp only [Session.takes, hexits]
        rfl
      rw [hafter]
      exact ⟨hsent, h.announced, nofun, hprinted, .told told response code rfl hreads.going hcode⟩

theorem step_receives {session : Session} (h : Inv attached)
    (hstep : attached.session.step complaint .receives = some session) :
    Inv { attached with session } := by
  obtain ⟨told, left, noticed, parting, htells⟩ := h
  simp only [Session.step] at hstep
  split at hstep
  · cases hstep
  · rename_i hrunning
    obtain ⟨received, hreceived, rfl⟩ := Option.map_eq_some_iff.mp hstep
    obtain ⟨rfl, hreads, -, hrefusal⟩ := htells.reads fun code ↦ hrunning code
    rcases hreads.received htells.sent hreceived with
      ⟨response, later, rfl, hresponse, hbuffer⟩ | ⟨ending, hlost, rfl⟩
    · obtain ⟨received, rest⟩ := received
      cases hresponse
      exact ⟨_, later, noticed, [], htells.takes hreads hbuffer⟩
    · refine ⟨told, left, noticed, _, htells.sent, htells.announced, nofun, ?_,
        .lost ending hlost hreads.going⟩
      change attached.session.printed ++
        [.err (Session.refusal attached.session.pc (Ipc.ended ending))] = _
      rw [htells.printed, hrefusal, List.append_nil]
      rfl

/-- A session has printed a front of what the follower sent. -/
theorem inv_of_reachable (h : (machine complaint).Reachable attached) : Inv attached := by
  refine h.invariant Inv ?_ ?_
  · rintro attached ⟨⟨-, hclient, -⟩, hpc, hbuffer, -, hprinted, hdelivered⟩
    have hnone : attached.responses = [] := hclient.2.2.2
    refine ⟨[], [], [], [], ?_, .inl rfl, fun _ ↦ rfl, hprinted, ?_⟩
    · rw [hnone]
      rfl
    · rw [Stands, hpc]
      refine ⟨rfl, rfl, by simp, ?_, ?_⟩
      · rw [hdelivered, hbuffer]
        rfl
      · rw [hdelivered]
        exact Nat.zero_le _
  · intro attached action next hinv _ hstep
    cases action with
    | followed action =>
        obtain ⟨followed, hfollowed, rfl⟩ := Option.map_eq_some_iff.mp hstep
        exact step_followed hinv hfollowed
    | delivers count =>
        simp only [machine, step] at hstep
        split at hstep
        · obtain ⟨session, hsession, rfl⟩ := Option.map_eq_some_iff.mp hstep
          exact step_delivers hinv ‹_› hsession
        · cases hstep
    | session action =>
        cases action with
        | arrives chunk => cases hstep
        | hangsUp ending =>
            obtain ⟨session, hsession, rfl⟩ := Option.map_eq_some_iff.mp hstep
            exact step_hangsUp hinv hsession
        | notices =>
            obtain ⟨session, hsession, rfl⟩ := Option.map_eq_some_iff.mp hstep
            exact step_notices hinv hsession
        | interrupts =>
            obtain ⟨session, hsession, rfl⟩ := Option.map_eq_some_iff.mp hstep
            exact step_interrupts hinv hsession
        | receives =>
            obtain ⟨session, hsession, rfl⟩ := Option.map_eq_some_iff.mp hstep
            exact step_receives hinv hsession

/-- The run and its follower take their own steps, whatever the session does. -/
theorem followed_reachableBy {allowed : Followed → Followed.Action → Prop}
    (h : (machine complaint).ReachableBy (fun attached action ↦
      ∀ taken, action = .followed taken → allowed attached.followed taken) attached) :
    Followed.machine.ReachableBy allowed attached.followed := by
  refine h.invariant (fun attached ↦ Followed.machine.ReachableBy allowed attached.followed) ?_ ?_
  · exact fun attached hinit ↦ .init hinit.1
  · intro attached action next hreach hallowed hstep
    cases action with
    | followed taken =>
        obtain ⟨followed, hfollowed, rfl⟩ := Option.map_eq_some_iff.mp hstep
        exact .step hreach (hallowed taken rfl) hfollowed
    | delivers count =>
        simp only [machine, step] at hstep
        split at hstep
        · obtain ⟨session, -, rfl⟩ := Option.map_eq_some_iff.mp hstep
          exact hreach
        · cases hstep
    | session taken =>
        cases taken with
        | arrives chunk => cases hstep
        | hangsUp | notices | interrupts | receives =>
            obtain ⟨session, -, rfl⟩ := Option.map_eq_some_iff.mp hstep
            exact hreach

theorem followed_reachable (h : (machine complaint).Reachable attached) :
    Followed.machine.Reachable attached.followed :=
  followed_reachableBy (h.mono fun _ _ _ _ _ ↦ trivial)

/-- A session told the last response was told every one of them, and the run is left. -/
theorem told_all (h : Followed.machine.Reachable attached.followed) {front left : List Response}
    {last : Response} {code : ExitCode}
    (hsent : sendable attached.responses = front ++ [last] ++ left)
    (hlast : exits last = some code) :
    front ++ [last] = attached.responses ∧ ∃ finished ended,
      attached.followed.run.pc = .left finished ended ∧ code = exitOf ended := by
  have hstarts : front ++ [last] <+: attached.responses :=
    List.IsPrefix.trans ⟨left, hsent.symm⟩ (List.takeWhile_prefix _)
  have hgoing := Follow.going_or_answered
    (Follow.inv_of_reachable (Followed.joined_of_reachable h).client)
  have hexits {responses : List Response} (hmem : front ++ [last] <+: responses) :
      ¬ ∀ response ∈ responses, exits response = none := by
    intro hnone
    have hother := hnone last (hmem.subset (List.mem_append_right front List.mem_cons_self))
    rw [hlast] at hother
    cases hother
  rcases hgoing with hnone | ⟨ended, answers, hpc, hresponses, hnone⟩
  · exact absurd hnone (hexits hstarts)
  · obtain ⟨finished, hleft⟩ := Followed.left_of_answered h hpc
    change attached.responses = _ at hresponses
    rw [hresponses] at hstarts
    rcases List.prefix_concat_iff.mp hstarts with hall | hfront
    · refine ⟨hall.trans hresponses.symm, finished, ended, hleft, ?_⟩
      have hterminal := List.append_inj_right' hall rfl
      rw [List.singleton_inj.mp hterminal, exits_terminal] at hlast
      exact (Option.some.inj hlast).symm
    · exact absurd hnone (hexits hfront)

/-- The session was told everything, and exits as the run was left. -/
def Told (attached : Attached) (code : ExitCode) : Prop :=
  ∃ noticed finished ended, (noticed = [] ∨ noticed = announce attached.session.notice) ∧
    attached.session.printed = noticed ++ shown attached.session.palette attached.responses ∧
    attached.followed.run.pc = .left finished ended ∧ code = exitOf ended

theorem Tells.toldAll {told left : List Response} {noticed : List Printed} {code : ExitCode}
    (h : Tells attached told left noticed [])
    (hreach : Followed.machine.Reachable attached.followed)
    (hpc : attached.session.pc = .exited code) : Told attached code := by
  have hstands := h.stands
  simp only [Stands, hpc] at hstands
  cases hstands with
  | told front last _ htold hgoing hlast =>
      have hsent := h.sent
      rw [htold] at hsent
      obtain ⟨hall, finished, ended, hleft, hcode⟩ := told_all hreach hsent hlast
      refine ⟨noticed, finished, ended, h.announced, ?_, hleft, hcode⟩
      rw [h.printed, htold, hall, List.append_nil]

/-- The steps of the follower, of the wire and of the session that reads. -/
def Action.Reads : Action → Prop
  | .followed (.client _) => True
  | .delivers _ => True
  | .session .receives => True
  | _ => False

/-- The texts a step of the run brings in leave room for the rest of a frame. -/
def Modest (attached : Attached) (action : Action) : Prop :=
  ∀ taken, action = .followed taken → Followed.Modest attached.followed taken

/-- A session that is still connected to the follower of a run that has been left. -/
structure Winds (complaint : List UInt8 → Text) (run : Run) (attached : Attached) : Prop where
  reachable : (machine complaint).Reachable attached
  modest : Followed.machine.ReachableBy Followed.Modest attached.followed
  run : attached.followed.run = run
  connected : attached.session.hangup = none
  started : (Response.started attached.followed.client.current.runId
    attached.followed.client.current.dashboardUrl).Fits

variable {run : Run} {finished : Finished} {ended : RunEnd}

theorem Winds.sendable (h : Winds complaint run attached)
    (hcount : run.log.lines.length < 2 ^ 64) :
    sendable attached.responses = attached.responses := by
  have hreach := followed_reachable h.reachable
  have hinv := Follow.inv_of_reachable (Followed.joined_of_reachable hreach).client
  have htail := ((Followed.responses_fit hreach (h.run ▸ hcount)).2.1 h.modest).1
  refine sendable_eq_self fun response hmem ↦ ?_
  rcases Follow.started_or_tail hinv hmem with rfl | hmem
  · exact h.started
  · exact htail response hmem

/-- The follower of a run that has been left comes to answer, whatever becomes of the session. -/
theorem Winds.answers (h : Winds complaint run attached) (hleft : run.pc = .left finished ended) :
    ∃ actions next, (∀ action ∈ actions, action.Reads) ∧
      (machine complaint).exec attached actions = some next ∧
      (Winds complaint run next ∧ next.session = attached.session) ∧
      next.followed.client.pc = .answered ended := by
  refine Machine.exec_to
    (fun next ↦ Winds complaint run next ∧ next.session = attached.session)
    (fun attached ↦ attached.followed.client.toDo) ?_ ⟨h, rfl⟩
  rintro middle ⟨h, hsession⟩ hunanswered
  have hjoined := Followed.joined_of_reachable (followed_reachable h.reachable)
  have hinv := Follow.inv_of_reachable hjoined.client
  have hstate : middle.followed.client.current.state = .finished ended := by
    rw [hjoined.state, h.run, hleft]
    rfl
  obtain ⟨action, client, hown, hstep⟩ :=
    (Follow.proceeds hinv hstate).resolve_left hunanswered
  have hfollowed := Followed.step_client hown hstep
  have hattached : (machine complaint).step middle (.followed (.client action)) =
      some { middle with followed := { middle.followed with client } } :=
    Option.map_eq_some_iff.mpr ⟨_, hfollowed, rfl⟩
  obtain ⟨hlower, hcurrent⟩ := (Follow.moves_of_own hown hstep).toDo hinv
  have hmodest : Followed.Modest middle.followed (.client action) := trivial
  refine ⟨.followed (.client action), _, trivial, hattached,
    ⟨⟨.step h.reachable trivial hattached, .step h.modest hmodest hfollowed, h.run, h.connected,
      ?_⟩, hsession⟩, hlower⟩
  dsimp only
  rw [hcurrent]
  exact h.started

/-- A session whose follower has answered comes to exit as it was told. -/
theorem Winds.exits (h : Winds complaint run attached) (hcount : run.log.lines.length < 2 ^ 64)
    (hanswered : attached.followed.client.pc = .answered ended)
    (hrunning : ∀ code, attached.session.pc ≠ .exited code) :
    ∃ actions next, (∀ action ∈ actions, action.Reads) ∧
      (machine complaint).exec attached actions = some next ∧
      (Winds complaint run next ∧ next.followed.client.pc = .answered ended ∧
        ∀ code, next.session.pc = .exited code → Told next code) ∧
      ∃ code, next.session.pc = .exited code := by
  refine Machine.exec_to
    (fun next ↦ Winds complaint run next ∧
      next.followed.client.pc = .answered ended ∧
        ∀ code, next.session.pc = .exited code → Told next code)
    (fun attached ↦ 2 * (attached.wire.length - attached.delivered) +
      attached.session.buffer.length) ?_ ⟨h, hanswered, fun code hpc ↦ absurd hpc (hrunning code)⟩
  rintro middle ⟨h, hanswered, -⟩ hgoing
  have hrunning (code : ExitCode) : middle.session.pc ≠ .exited code := fun hpc ↦ hgoing ⟨code, hpc⟩
  have hreach := followed_reachable h.reachable
  obtain ⟨told, left, noticed, parting, htells⟩ := inv_of_reachable h.reachable
  obtain ⟨rfl, hreads, -, -⟩ := htells.reads hrunning
  by_cases hdelivered : middle.delivered = middle.wire.length
  · -- Everything sent has arrived: the next response is whole, and there is one.
    have harrived := hreads.arrived
    rw [hdelivered, List.take_length, wire, htells.sent, frames_append] at harrived
    have hbuffer := List.append_cancel_left harrived
    obtain ⟨response, later, rfl⟩ : ∃ response later, left = response :: later := by
      refine List.exists_cons_of_ne_nil ?_
      rintro rfl
      have hall : told = middle.responses := by
        rw [← h.sendable hcount, htells.sent, List.append_nil]
      have hinv := Follow.inv_of_reachable (Followed.joined_of_reachable hreach).client
      have hlast := List.mem_of_mem_tail
        (List.mem_of_getLast? (Follow.last_of_answered hinv hanswered))
      change _ ∈ middle.responses at hlast
      rw [← hall] at hlast
      have hnone := hreads.going _ hlast
      rw [exits_terminal] at hnone
      cases hnone
    have hfits : response.Fits := fits_of_sent htells.sent
    have hreceived := receiveArrived_response complaint hfits (frames later) middle.session.hangup
    have hwhole : middle.session.buffer = Ipc.frame response.bytes ++ frames later := hbuffer.symm
    rw [← hwhole] at hreceived
    have hsession := Session.step_receives hrunning hreceived
    have hstep : (machine complaint).step middle (.session .receives) = some _ :=
      Option.map_eq_some_iff.mpr ⟨_, hsession, rfl⟩
    have hnext := htells.takes hreads hbuffer.symm
    refine ⟨.session .receives, _, trivial, hstep, ⟨⟨.step h.reachable trivial hstep, h.modest,
      h.run, (Session.takes_hangup _ _).trans h.connected, h.started⟩, hanswered,
      fun code hpc ↦ hnext.toldAll hreach hpc⟩, ?_⟩
    dsimp only
    rw [Session.takes_buffer]
    have hheader : 0 < headerBytes := by decide
    have hlower : (frames later).length < middle.session.buffer.length := by
      rw [hwhole, List.length_append, Ipc.length_frame]
      omega
    exact Nat.add_lt_add_left hlower _
  · have hmissing : middle.delivered < middle.wire.length :=
      Nat.lt_of_le_of_ne hreads.within hdelivered
    obtain ⟨session, hsession, hbuffer, hconnected, hpc⟩ : ∃ session,
        middle.session.step complaint (.arrives ((middle.wire.drop middle.delivered).take
          (middle.wire.length - middle.delivered))) = some session ∧
        session.buffer = middle.session.buffer ++ (middle.wire.drop middle.delivered).take
          (middle.wire.length - middle.delivered) ∧
        session.hangup = none ∧ session.pc = middle.session.pc := by
      simp only [Session.step, h.connected]
      exact ⟨_, rfl, rfl, rfl, rfl⟩
    have hstep : (machine complaint).step middle
          (.delivers (middle.wire.length - middle.delivered)) =
        some { middle with
          session
          delivered := middle.delivered + (middle.wire.length - middle.delivered) } := by
      simp only [machine, step]
      rw [if_pos (by omega), hsession]
      rfl
    refine ⟨.delivers _, _, trivial, hstep, ⟨⟨.step h.reachable trivial hstep, h.modest, h.run,
      hconnected, h.started⟩, hanswered, fun code hexit ↦ ?_⟩, ?_⟩
    · exact absurd (hpc ▸ hexit) (hrunning code)
    · dsimp only
      change 2 * (middle.wire.length - _) + _ < _
      rw [hbuffer, List.length_append, List.length_take, List.length_drop]
      omega

/-- **A session prints what the daemon tells, and exits as the run was left.**  However a run, its
follower, the wire and the session are interleaved, what is printed is the announcement, a front of
the responses that fit a frame, and what is said where Ctrl-C or the connection ended it.  A session
that exits was detached, lost the connection, or printed every response of the follower and exits
with success exactly where the run was reported done.

From where the run is left and the session is still connected, the follower, the wire and the
session alone come to such an end. -/
theorem session_tells (h : (machine complaint).Reachable attached) :
    (∃ told left noticed parting, Tells attached told left noticed parting) ∧
    (∀ code, attached.session.pc = .exited code →
      (code = .success ∧ ∃ printed pc,
        attached.session.printed = printed ++ [.out (Session.detached pc)]) ∨
      (code = .failure ∧ attached.session.hangup.isSome) ∨ Told attached code) ∧
    ((machine complaint).ReachableBy Modest attached →
      attached.followed.run.log.lines.length < 2 ^ 64 →
      (Response.started attached.followed.client.current.runId
        attached.followed.client.current.dashboardUrl).Fits →
      (∀ code, attached.session.pc ≠ .exited code) → attached.session.hangup = none →
      ∀ finished ended, attached.followed.run.pc = .left finished ended →
        ∃ actions next, (∀ action ∈ actions, action.Reads) ∧
          (machine complaint).exec attached actions = some next ∧
          next.session.pc = .exited (exitOf ended) ∧ Told next (exitOf ended)) := by
  refine ⟨inv_of_reachable h, fun code hpc ↦ ?_, ?_⟩
  · obtain ⟨told, left, noticed, parting, htells⟩ := inv_of_reachable h
    have hstands := htells.stands
    simp only [Stands, hpc] at hstands
    cases hstands with
    | detached hgoing => exact .inl ⟨rfl, _, _, htells.printed⟩
    | lost ending hlost hgoing => exact .inr (.inl ⟨rfl, by rw [hlost]; rfl⟩)
    | told front last _ htold hgoing hlast =>
        exact .inr (.inr (htells.toldAll (followed_reachable h) hpc))
  · intro hmodest hcount hstarted hrunning hconnected finished ended hleft
    have hwinds : Winds complaint attached.followed.run attached :=
      ⟨h, followed_reachableBy hmodest, rfl, hconnected, hstarted⟩
    obtain ⟨actions, middle, hactions, hexec, ⟨hmiddle, hsession⟩, hanswered⟩ :=
      hwinds.answers hleft
    obtain ⟨more, next, hmore, hexec', ⟨hnext, -, htold⟩, code, hpc⟩ :=
      hmiddle.exits hcount hanswered (hsession ▸ hrunning)
    obtain ⟨noticed, stopped, other, -, -, hother, hcode⟩ := htold code hpc
    rw [hnext.run, hleft] at hother
    cases hother
    rw [hcode] at hpc
    refine ⟨actions ++ more, next, ?_, ?_, hpc, htold _ hpc⟩
    · intro action hmem
      exact (List.mem_append.mp hmem).elim (hactions action) (hmore action)
    · rw [Machine.exec_append, hexec]
      exact hexec'

/-- A run that has just been entered, and a session on a pipe that has asked to follow it. -/
def asked (createPr : CreatePr) : Attached where
  followed := Followed.entered createPr
  session := ⟨.strip, .quiet, .waiting false, [], none, []⟩
  delivered := 0

theorem asked_init (createPr : CreatePr) : (machine complaint).init (asked createPr) :=
  ⟨Followed.entered_init createPr, rfl, rfl, rfl, rfl, rfl⟩

theorem modest_followed {actions : List Followed.Action}
    (h : ∀ action ∈ actions, ∀ followed, Followed.Modest followed action) :
    ∀ action ∈ actions.map Action.followed, ∀ attached, Modest attached action := by
  intro action hmem attached taken htaken
  obtain ⟨other, hother, rfl⟩ := List.mem_map.mp hmem
  cases htaken
  exact h _ hother _

theorem session_tells_failure : ∃ attached actions next,
    (machine fun _ ↦ []).exec attached actions = some next ∧
      attached.session = (asked .no).session ∧ next.session.pc = .exited .failure ∧
      Told next .failure := by
  have hbegins : Modest (asked .no) (.followed (.run .begins)) := by
    rintro taken htaken
    cases htaken
    exact fun hother ↦ absurd rfl hother
  have hroomy : (failed "nonzero_exit".toList (exitMessage ⟨some 1⟩) []).Roomy := by
    unfold CompleteRequest.Roomy
    decide
  have hstarted : (Response.started ⟨['r']⟩ []).Fits := by decide
  have hbegun : (machine fun _ ↦ []).ReachableBy Modest _ :=
    .step (.init (asked_init .no)) hbegins rfl
  have hexited := hbegun.exec (modest_followed (Followed.modest_map
    (List.subset_append_left Followed.prints Followed.winds))) rfl
  have htaken := @Machine.ReachableBy.step _ _ (machine fun _ ↦ []) Modest _ _
    (.followed (.run .takesExit)) hexited (by
      rintro taken htaken
      cases htaken
      exact fun result hresult ↦ by cases hresult; exact hroomy) rfl
  have hleft := htaken.exec (modest_followed (Followed.modest_map
    (List.subset_append_right Followed.prints Followed.winds))) rfl
  obtain ⟨actions, next, -, hexec, hpc, htold⟩ := (session_tells hleft.reachable).2.2 hleft
    (by decide) hstarted (fun code hcode ↦ by cases hcode) rfl _ _ rfl
  exact ⟨_, actions, next, hexec, rfl, hpc, htold⟩

end Attached

end RalphexRunner
