import RalphexRunner.Agent.Slot
import RalphexRunner.Ipc.Responses
import RalphexRunner.Text.JsonCodec

/-!
# Commands and replies as JSON

What a client asks for and everything the daemon answers, as both ends write and read it: a variant
without members is its name, every other is an object with one member.  A reply of an older daemon,
which says nothing of what went wrong, is read as one with an empty message.

With these codecs the round trip over the socket needs no assumption.
-/

namespace RalphexRunner

open Json (Codec Record Value write)

namespace Ipc

/-- What a client asks the daemon for: a run, with the environment entries added to the daemon's
own, or the run in progress. -/
inductive Command where
  | run (request : RunRequest) (env : List (Text × Text))
  | attach

/-- Everything the daemon answers a client with. -/
inductive Reply where
  | response (response : Response)
  | busy (runId : RunId)
  | noRun

variable {M : Type}

/-- What a message is sent as. -/
def toVec (codec : Codec M) (message : M) : Except Text (List UInt8) := .ok (codec.bytes message)

/-- The message some bytes are, or what is said of them. -/
def fromSlice (codec : Codec M) (complaint : List UInt8 → Text) (bytes : List UInt8) :
    Except Text M :=
  match codec.read bytes with
  | some message => .ok message
  | none => .error (complaint bytes)

def runIdCodec : Codec RunId := Codec.text.map .mk RunId.value fun _ ↦ rfl

def branchCodec : Codec Branch := Codec.text.map .mk Branch.name fun _ ↦ rfl

def createPrCodec : Codec CreatePr :=
  Codec.bool.map (if · then .yes else .no) (· = .yes) fun createPr ↦ by cases createPr <;> rfl

def Worktree.name : Worktree → Text
  | .yes => "Yes".toList
  | .no => "No".toList

def worktreeCodec : Codec Worktree :=
  Codec.named [("Yes".toList, .yes), ("No".toList, .no)] Worktree.name fun worktree ↦ by
    cases worktree <;> rfl

def statusCodec : Codec CompleteStatus :=
  Codec.named [("done".toList, .done), ("error".toList, .error)] CompleteStatus.name
    fun status ↦ by cases status <;> rfl

def requestRecord : Record (RunRequest × List (Text × Text)) :=
  ((Record.required "ctx".toList Codec.text).both
    ((Record.required "plan".toList Codec.text).both
      ((Record.required "branch".toList branchCodec).both
        ((Record.required "create_pr".toList createPrCodec).both
          ((Record.required "worktree".toList worktreeCodec).both
            (Record.required "env".toList (Codec.list (Codec.pair Codec.text Codec.text)))
            (by decide)) (by decide)) (by decide)) (by decide)) (by decide)).map
    (fun (ctx, plan, branch, createPr, worktree, env) ↦
      (⟨ctx, plan, branch, createPr, worktree⟩, env))
    (fun (request, env) ↦ (request.ctx, request.plan, request.branch, request.createPr,
      request.worktree, env))
    fun _ ↦ rfl

namespace Command

/-- The variant a command is, and what it holds. -/
def decodeVariant (name : Text) (value : Value) : Option Command :=
  if name = "Run".toList then
    (requestRecord.object.decode value).map fun request ↦ .run request.1 request.2
  else if name = "Attach".toList then (value.orNull fun _ ↦ none).map fun _ : Option Unit ↦ .attach
  else none

def codec : Codec Command where
  encode
    | .run request env => .object [("Run".toList, requestRecord.object.encode (request, env))]
    | .attach => .string "Attach".toList
  decode value := value.variant?.bind fun variant ↦ decodeVariant variant.1 variant.2
  decode_encode command := by
    cases command with
    | run request env =>
        change (requestRecord.object.decode (requestRecord.object.encode (request, env))).map _ = _
        rw [requestRecord.object.decode_encode]
        rfl
    | attach => rfl

example : write (codec.encode (.run ⟨"/c".toList, "/c/x.md".toList, ⟨"x".toList⟩, .yes, .no⟩
      [("K".toList, "v".toList)])) =
    ("\x7b\x22Run\x22:\x7b\x22ctx\x22:\x22/c\x22,\x22plan\x22:\x22/c/x.md\x22," ++
      "\x22branch\x22:\x22x\x22,\x22create_pr\x22:true,\x22worktree\x22:\x22No\x22," ++
      "\x22env\x22:[[\x22K\x22,\x22v\x22]]\x7d\x7d").toList := by
  decide +kernel

end Command

namespace Reply

def startedRecord : Record (RunId × Text) :=
  (Record.required "run_id".toList runIdCodec).both
    (Record.required "dashboard_url".toList Codec.text) (by decide)

def lineRecord : Record Text := Record.required "text".toList Codec.text

/-- The end of a run; what went wrong may be left out. -/
def endedFields : Record (CompleteStatus × Text × Text × Option Text) :=
  (Record.required "status".toList statusCodec).both
    ((Record.required "pr_url".toList Codec.text).both
      ((Record.required "fail_reason".toList Codec.text).both
        (Record.optional "message".toList Codec.text) (by decide)) (by decide)) (by decide)

def endedRecord : Record (CompleteStatus × Text × Text × Text) :=
  endedFields.map (fun ended ↦ (ended.1, ended.2.1, ended.2.2.1, ended.2.2.2.getD []))
    (fun ended ↦ (ended.1, ended.2.1, ended.2.2.1, some ended.2.2.2)) fun _ ↦ rfl

def busyRecord : Record RunId := Record.required "run_id".toList runIdCodec

def errorRecord : Record Text := Record.required "message".toList Codec.text

def decodeVariant (name : Text) (value : Value) : Option Reply :=
  if name = "Started".toList then
    (startedRecord.object.decode value).map fun started ↦ .response (.started started.1 started.2)
  else if name = "Line".toList then
    (lineRecord.object.decode value).map fun text ↦ .response (.line text)
  else if name = "Ended".toList then
    (endedRecord.object.decode value).map fun ended ↦
      .response (.ended ended.1 ended.2.1 ended.2.2.1 ended.2.2.2)
  else if name = "Busy".toList then (busyRecord.object.decode value).map .busy
  else if name = "NoRun".toList then (value.orNull fun _ ↦ none).map fun _ : Option Unit ↦ .noRun
  else if name = "Error".toList then
    (errorRecord.object.decode value).map fun message ↦ .response (.error message)
  else none

/-- The name of a variant with members, and the members. -/
def tagged : Reply → Option (Text × List (Text × Value))
  | .response (.started runId dashboardUrl) =>
      some ("Started".toList, startedRecord.encode (runId, dashboardUrl))
  | .response (.line text) => some ("Line".toList, lineRecord.encode text)
  | .response (.ended status prUrl failReason message) =>
      some ("Ended".toList, endedRecord.encode (status, prUrl, failReason, message))
  | .response (.error message) => some ("Error".toList, errorRecord.encode message)
  | .busy runId => some ("Busy".toList, busyRecord.encode runId)
  | .noRun => none

def encode (reply : Reply) : Value :=
  match reply.tagged with
  | some (name, fields) => .object [(name, .object fields)]
  | none => .string "NoRun".toList

def names : Reply → List Text
  | .response (.started _ _) => startedRecord.names
  | .response (.line _) => lineRecord.names
  | .response (.ended _ _ _ _) => endedRecord.names
  | .response (.error _) => errorRecord.names
  | .busy _ => busyRecord.names
  | .noRun => []

/-- Neither the order of the members of a reply nor what else stands among them makes a
difference. -/
theorem decodeVariant_of_perm {reply : Reply} {name : Text}
    {known more fields : List (Text × Value)} (htagged : reply.tagged = some (name, known))
    (hmore : ∀ field ∈ more, field.1 ∉ reply.names)
    (hperm : (known ++ more).Perm fields) : decodeVariant name (.object fields) = some reply := by
  cases reply with
  | response response =>
      cases response with
      | started runId dashboardUrl =>
          cases htagged
          have hread := startedRecord.decode_of_perm hmore hperm
          change (startedRecord.decode fields).map _ = _
          rw [hread]
          rfl
      | line text =>
          cases htagged
          have hread := lineRecord.decode_of_perm hmore hperm
          change (lineRecord.decode fields).map _ = _
          rw [hread]
          rfl
      | ended status prUrl failReason message =>
          cases htagged
          have hread := endedRecord.decode_of_perm hmore hperm
          change (endedRecord.decode fields).map _ = _
          rw [hread]
          rfl
      | error message =>
          cases htagged
          have hread := errorRecord.decode_of_perm hmore hperm
          change (errorRecord.decode fields).map _ = _
          rw [hread]
          rfl
  | busy runId =>
      cases htagged
      have hread := busyRecord.decode_of_perm hmore hperm
      change (busyRecord.decode fields).map _ = _
      rw [hread]
      rfl
  | noRun => cases htagged

def codec : Codec Reply where
  encode := encode
  decode value := value.variant?.bind fun variant ↦ decodeVariant variant.1 variant.2
  decode_encode reply := by
    cases htagged : reply.tagged with
    | none =>
        obtain rfl : reply = .noRun := by
          cases reply with
          | response response => cases response <;> cases htagged
          | busy runId => cases htagged
          | noRun => rfl
        rfl
    | some tagged =>
        have hread := @decodeVariant_of_perm reply _ _ [] tagged.2 htagged (by simp) (by simp)
        simp only [encode, htagged]
        exact hread

/-- A response is written as its size is reckoned. -/
theorem write_response (response : Response) :
    Json.write (codec.encode (.response response)) = response.json := by
  cases response <;> rfl

theorem bytes_response (response : Response) :
    codec.bytes (.response response) = response.bytes := by
  rw [Codec.bytes, write_response]
  rfl

/-- A reply is read from bytes that hold its members among others, in any order. -/
theorem read_of_perm {reply : Reply} {name : Text} {known more fields : List (Text × Value)}
    {bytes : List UInt8} (htagged : reply.tagged = some (name, known))
    (hmore : ∀ field ∈ more, field.1 ∉ reply.names) (hperm : (known ++ more).Perm fields)
    (hbytes : Json.readBytes bytes = some (.object [(name, .object fields)])) :
    codec.read bytes = some reply := by
  rw [Codec.read, hbytes]
  exact decodeVariant_of_perm htagged hmore hperm

/-- The end of a run is read from bytes that say nothing of what went wrong. -/
theorem read_of_older {status : CompleteStatus} {prUrl failReason : Text}
    {more fields : List (Text × Value)} {bytes : List UInt8}
    (hmore : ∀ field ∈ more, field.1 ∉ endedFields.names)
    (hperm : (endedFields.encode (status, prUrl, failReason, none) ++ more).Perm fields)
    (hbytes : Json.readBytes bytes = some (.object [("Ended".toList, .object fields)])) :
    codec.read bytes = some (.response (.ended status prUrl failReason [])) := by
  have hread := endedFields.decode_of_perm hmore hperm
  rw [Codec.read, hbytes]
  change ((endedFields.decode fields).map _).map _ = _
  rw [hread]
  rfl

end Reply

theorem inverts (codec : Codec M) (complaint : List UInt8 → Text) :
    Inverts (toVec codec) (fromSlice codec complaint) := by
  rintro message bytes ⟨⟩
  rw [fromSlice, codec.read_bytes]

/-- Of what arrives of some messages, those that are whole are received, and then the stream reads
as closed. -/
def Survives (codec : Codec M) (complaint : List UInt8 → Text) : Prop :=
  ∀ (messages : List M) (reader : Reader) (more : ℕ),
    (∀ message ∈ messages, (codec.bytes message).length ≤ maxMessageBytes) →
    ended reader.ending = .closed →
    reader.bytes <+: messages.flatMap (fun message ↦ frame (codec.bytes message)) →
    ∃ whole left, messages = whole ++ left ∧
      whole.flatMap (fun message ↦ frame (codec.bytes message)) <+: reader.bytes ∧
      (∀ next later, left = next :: later → reader.bytes.length <
        ((whole ++ [next]).flatMap fun message ↦ frame (codec.bytes message)).length) ∧
      receives (fromSlice codec complaint) (whole.length + more) reader =
        whole.map .ok ++ List.replicate more (.error .closed)

/-- What a codec writes survives the socket. -/
theorem survives (codec : Codec M) (complaint : List UInt8 → Text) :
    Survives codec complaint := by
  intro messages reader more hfits hclosed hstarts
  have hencodes : EncodesAll (toVec codec) messages (messages.map codec.bytes) :=
    List.forall₂_map_right_iff.mpr
      (List.forall₂_same.mpr fun message hmessage ↦ ⟨rfl, hfits message hmessage⟩)
  have hframes (messages : List M) : (messages.map codec.bytes).flatMap frame =
      messages.flatMap fun message ↦ frame (codec.bytes message) := List.flatMap_map ..
  rw [← hframes] at hstarts
  obtain ⟨whole, left, wholeBytes, leftBytes, rfl, hsplit, hlength, hwhole, hnext, hreceives⟩ :=
    received_prefix (inverts codec complaint) hencodes hclosed hstarts more
  rw [List.map_append] at hsplit
  obtain ⟨rfl, rfl⟩ := List.append_inj hsplit (by rw [List.length_map, hlength])
  rw [hframes] at hwhole
  refine ⟨whole, left, rfl, hwhole, ?_, hreceives⟩
  rintro next later rfl
  have hshort := hnext (codec.bytes next) (later.map codec.bytes) rfl
  rwa [← List.map_singleton, ← List.map_append, hframes] at hshort

/-- **Every command and every reply survives the socket**, the JSON of it included.  However the
wire is cut and however its bytes arrive, what was sent whole is received as it was sent, in order,
and nothing else.  A reply may have its members in another order and unknown ones among them, and
the end of a run may come from a daemon that says nothing of what went wrong. -/
theorem messages_survive (complaint : List UInt8 → Text) :
    Survives Command.codec complaint ∧ Survives Reply.codec complaint ∧
    (∀ (reply : Reply) (name : Text) (known more fields : List (Text × Value))
      (bytes : List UInt8), reply.tagged = some (name, known) →
        (∀ field ∈ more, field.1 ∉ reply.names) → (known ++ more).Perm fields →
          Json.readBytes bytes = some (.object [(name, .object fields)]) →
            fromSlice Reply.codec complaint bytes = .ok reply) ∧
    ∀ (status : CompleteStatus) (prUrl failReason : Text) (more fields : List (Text × Value))
      (bytes : List UInt8), (∀ field ∈ more, field.1 ∉ Reply.endedFields.names) →
        (Reply.endedFields.encode (status, prUrl, failReason, none) ++ more).Perm fields →
          Json.readBytes bytes = some (.object [("Ended".toList, .object fields)]) →
            fromSlice Reply.codec complaint bytes =
              .ok (.response (.ended status prUrl failReason [])) := by
  refine ⟨survives Command.codec complaint, survives Reply.codec complaint, ?_, ?_⟩
  · intro reply name known more fields bytes htagged hmore hperm hbytes
    rw [fromSlice, Reply.read_of_perm htagged hmore hperm hbytes]
  · intro status prUrl failReason more fields bytes hmore hperm hbytes
    rw [fromSlice, Reply.read_of_older hmore hperm hbytes]

end Ipc

end RalphexRunner
