import Mathlib.Data.List.Forall2
import RalphexRunner.Semantics.Wire
import RalphexRunner.Text.Utf8

/-!
# Length-prefixed messages on the socket

A message is its length in four little-endian bytes and then its JSON.  `send` and `receive` are
the two ends; the JSON codec is a parameter, of which the round trip needs only that decoding
undoes encoding.

A prefix of what was sent reads as the messages wholly inside it, and then as a closed connection.
-/

namespace RalphexRunner

/-- The largest message either end sends or accepts. -/
def maxMessageBytes : ℕ := 10 * 1024 * 1024

/-- The bytes of the length in front of a message. -/
def headerBytes : ℕ := 4

/-- Why a message could not be exchanged. -/
inductive IpcError where
  | closed
  | tooLarge (bytes : ℕ)
  | io (message : Text)
  | encode (message : Text)
  | decode (message : Text)
  deriving DecidableEq

namespace Ipc

variable {M : Type*}

/-- Write `message` with its length in front. -/
def send (toVec : M → Except Text (List UInt8)) (writer : Writer) (message : M) :
    Except IpcError Unit × Writer :=
  match toVec message with
  | .error error => (.error (.encode error), writer)
  | .ok bytes =>
      if maxMessageBytes < bytes.length then (.error (.tooLarge bytes.length), writer)
      else if 2 ^ 32 ≤ bytes.length then (.error (.tooLarge bytes.length), writer)
      else
        match writer.writeAll (leBytes headerBytes bytes.length) with
        | (.error error, writer) => (.error (.io error), writer)
        | (.ok (), writer) =>
            match writer.writeAll bytes with
            | (.error error, writer) => (.error (.io error), writer)
            | (.ok (), writer) =>
                match writer.flush with
                | .error error => (.error (.io error), writer)
                | .ok () => (.ok (), writer)

/-- What an end of the stream inside a message reads as. -/
def ended : Ending → IpcError
  | .eof => .closed
  | .reset => .closed
  | .failed message => .io message

/-- Read one length-prefixed message. -/
def receive (fromSlice : List UInt8 → Except Text M) (reader : Reader) :
    Except IpcError M × Reader :=
  match reader.readExact headerBytes with
  | (.error ending, reader) => (.error (ended ending), reader)
  | (.ok header, reader) =>
      let length := leNumber header
      if maxMessageBytes < length then (.error (.tooLarge length), reader)
      else
        match reader.readExact length with
        | (.error ending, reader) => (.error (ended ending), reader)
        | (.ok body, reader) =>
            match fromSlice body with
            | .ok message => (.ok message, reader)
            | .error error => (.error (.decode error), reader)

/-- Send messages one after the other, up to the first that cannot be sent. -/
def sendAll (toVec : M → Except Text (List UInt8)) (writer : Writer) :
    List M → Except IpcError Unit × Writer
  | [] => (.ok (), writer)
  | message :: rest =>
      match send toVec writer message with
      | (.error error, writer) => (.error error, writer)
      | (.ok (), writer) => sendAll toVec writer rest

/-- Call `receive` a number of times. -/
def receives (fromSlice : List UInt8 → Except Text M) :
    ℕ → Reader → List (Except IpcError M)
  | 0, _ => []
  | count + 1, reader =>
      let received := receive fromSlice reader
      received.1 :: receives fromSlice count received.2

/-- The bytes of one message on the wire. -/
def frame (bytes : List UInt8) : List UInt8 := leBytes headerBytes bytes.length ++ bytes

/-- A message that can be encoded within the cap, to the given bytes. -/
def Encodes (toVec : M → Except Text (List UInt8)) (message : M) (bytes : List UInt8) : Prop :=
  toVec message = .ok bytes ∧ bytes.length ≤ maxMessageBytes

/-- Decoding undoes encoding. -/
def Inverts (toVec : M → Except Text (List UInt8)) (fromSlice : List UInt8 → Except Text M) :
    Prop :=
  ∀ message bytes, toVec message = .ok bytes → fromSlice bytes = .ok message

variable {toVec : M → Except Text (List UInt8)} {fromSlice : List UInt8 → Except Text M}

theorem length_frame (bytes : List UInt8) : (frame bytes).length = headerBytes + bytes.length := by
  rw [frame, List.length_append, length_leBytes]

theorem leNumber_header {bytes : List UInt8} (h : bytes.length ≤ maxMessageBytes) :
    leNumber (leBytes headerBytes bytes.length) = bytes.length := by
  apply leNumber_leBytes
  calc
    _ ≤ maxMessageBytes := h
    _ < 256 ^ headerBytes := by decide

/-- A stream that takes everything takes the frame of a message. -/
theorem send_frame {message : M} {bytes : List UInt8} (h : Encodes toVec message bytes)
    (written : List UInt8) :
    send toVec { Writer.empty with written } message =
      (.ok (), { Writer.empty with written := written ++ frame bytes }) := by
  have hsmall : ¬ maxMessageBytes < bytes.length := Nat.not_lt.mpr h.2
  have hword : ¬ 2 ^ 32 ≤ bytes.length := by
    have hcap : maxMessageBytes < 2 ^ 32 := by decide
    omega
  simp only [send, h.1, if_neg hsmall, if_neg hword, Writer.writeAll, Writer.empty, frame,
    List.append_assoc]

/-- A message over the cap is refused with nothing written, whatever the stream. -/
theorem send_tooLarge {message : M} {bytes : List UInt8} (hencoded : toVec message = .ok bytes)
    (hover : maxMessageBytes < bytes.length) (writer : Writer) :
    send toVec writer message = (.error (.tooLarge bytes.length), writer) := by
  simp only [send, hencoded, if_pos hover]

/-- The messages of a list and what each is encoded to. -/
def EncodesAll (toVec : M → Except Text (List UInt8)) (messages : List M)
    (encoded : List (List UInt8)) : Prop :=
  List.Forall₂ (Encodes toVec) messages encoded

theorem sendAll_frames {messages : List M} {encoded : List (List UInt8)}
    (h : EncodesAll toVec messages encoded) (written : List UInt8) :
    sendAll toVec { Writer.empty with written } messages =
      (.ok (), { Writer.empty with written := written ++ encoded.flatMap frame }) := by
  induction h generalizing written with
  | nil => rw [sendAll, List.flatMap_nil, List.append_nil]
  | cons hfirst hrest ih =>
      rw [sendAll, send_frame hfirst, List.flatMap_cons, ← List.append_assoc]
      exact ih _

/-! ## Receiving -/

variable {reader : Reader}

/-- Once the header is there, the body decides. -/
theorem receive_of_header {header : List UInt8} {after : Reader}
    (h : reader.readExact headerBytes = (.ok header, after)) :
    receive fromSlice reader =
      if maxMessageBytes < leNumber header then (.error (.tooLarge (leNumber header)), after)
      else
        match after.readExact (leNumber header) with
        | (.error ending, reader) => (.error (ended ending), reader)
        | (.ok body, reader) =>
            match fromSlice body with
            | .ok message => (.ok message, reader)
            | .error error => (.error (.decode error), reader) := by
  rw [receive, h]

/-- A header over the cap is refused once it is read, and nothing behind it is. -/
theorem receive_tooLarge (henough : headerBytes ≤ reader.bytes.length)
    (hover : maxMessageBytes < leNumber (reader.bytes.take headerBytes)) :
    (receive fromSlice reader).1 =
        .error (.tooLarge (leNumber (reader.bytes.take headerBytes))) ∧
      (receive fromSlice reader).2.bytes = reader.bytes.drop headerBytes := by
  obtain ⟨after, hheader, hleft, -⟩ := Reader.readExact_enough henough
  rw [receive_of_header hheader, if_pos hover]
  exact ⟨rfl, hleft⟩

/-- A whole frame is read as what it holds, and nothing behind it is touched. -/
theorem receive_holding {message : M} {bytes rest : List UInt8}
    (hcap : bytes.length ≤ maxMessageBytes) (hholds : fromSlice bytes = .ok message)
    (hreader : reader.bytes = frame bytes ++ rest) :
    ∃ after, receive fromSlice reader = (.ok message, after) ∧ after.bytes = rest ∧
      after.ending = reader.ending := by
  rw [frame, List.append_assoc] at hreader
  have hlength : (leBytes headerBytes bytes.length).length = headerBytes := length_leBytes _ _
  have henough : headerBytes ≤ reader.bytes.length := by
    rw [hreader, List.length_append, hlength]
    exact Nat.le_add_right _ _
  obtain ⟨body, hheader, hbody, hending⟩ := Reader.readExact_enough henough
  rw [hreader, List.take_left' hlength] at hheader
  rw [hreader, List.drop_left' hlength] at hbody
  have hwhole : bytes.length ≤ body.bytes.length := by
    rw [hbody, List.length_append]
    exact Nat.le_add_right _ _
  obtain ⟨after, hread, hafter, hending'⟩ := Reader.readExact_enough hwhole
  rw [hbody, List.take_left] at hread
  rw [hbody, List.drop_left] at hafter
  refine ⟨after, ?_, hafter, hending'.trans hending⟩
  rw [receive_of_header hheader, leNumber_header hcap, if_neg (Nat.not_lt.mpr hcap), hread]
  simp only [hholds]

/-- A message that was sent is received. -/
theorem receive_frame (hinverts : Inverts toVec fromSlice) {message : M} {bytes rest : List UInt8}
    (h : Encodes toVec message bytes) (hreader : reader.bytes = frame bytes ++ rest) :
    ∃ after, receive fromSlice reader = (.ok message, after) ∧ after.bytes = rest ∧
      after.ending = reader.ending :=
  receive_holding h.2 (hinverts message bytes h.1) hreader

/-- What is received is what the first frame holds. -/
theorem receive_ok {message : M} (h : (receive fromSlice reader).1 = .ok message) :
    ∃ body rest, reader.bytes = frame body ++ rest ∧ body.length ≤ maxMessageBytes ∧
      fromSlice body = .ok message := by
  by_cases hheader : headerBytes ≤ reader.bytes.length
  · obtain ⟨after, hread, hafter, -⟩ := Reader.readExact_enough hheader
    rw [receive_of_header hread] at h
    by_cases hcap : maxMessageBytes < leNumber (reader.bytes.take headerBytes)
    · rw [if_pos hcap] at h
      cases h
    · rw [if_neg hcap] at h
      by_cases hbody : leNumber (reader.bytes.take headerBytes) ≤ after.bytes.length
      · obtain ⟨last, hlast, -, -⟩ := Reader.readExact_enough hbody
        have hlength : (after.bytes.take (leNumber (reader.bytes.take headerBytes))).length =
            leNumber (reader.bytes.take headerBytes) := List.length_take_of_le hbody
        rw [hlast] at h
        dsimp only at h
        refine ⟨after.bytes.take (leNumber (reader.bytes.take headerBytes)),
          after.bytes.drop (leNumber (reader.bytes.take headerBytes)), ?_,
          by rw [hlength]; exact Nat.le_of_not_lt hcap, ?_⟩
        · have hbytes := leBytes_leNumber (reader.bytes.take headerBytes)
          rw [List.length_take_of_le hheader] at hbytes
          rw [frame, hlength, hbytes, List.append_assoc, List.take_append_drop, hafter,
            List.take_append_drop]
        · cases hdecode : fromSlice (after.bytes.take (leNumber
              (reader.bytes.take headerBytes))) with
          | error error =>
              rw [hdecode] at h
              cases h
          | ok found =>
              rw [hdecode] at h
              exact congrArg Except.ok (Except.ok.inj h)
      · obtain ⟨last, hlast, -, -⟩ := Reader.readExact_short (Nat.lt_of_not_le hbody)
        rw [hlast] at h
        cases h
  · obtain ⟨after, hread, -, -⟩ := Reader.readExact_short (Nat.lt_of_not_le hheader)
    rw [receive, hread] at h
    cases h

/-- A stream that ends inside a frame, or before it, reads as its end and is used up. -/
theorem receive_short {bytes : List UInt8} (hcap : bytes.length ≤ maxMessageBytes)
    (hstarts : reader.bytes <+: frame bytes)
    (hshort : reader.bytes.length < (frame bytes).length) :
    ∃ after, receive fromSlice reader = (.error (ended reader.ending), after) ∧
      after.bytes = [] ∧ after.ending = reader.ending := by
  rw [length_frame] at hshort
  by_cases hheader : headerBytes ≤ reader.bytes.length
  · obtain ⟨body, hread, hbody, hending⟩ := Reader.readExact_enough hheader
    have htake : reader.bytes.take headerBytes = leBytes headerBytes bytes.length := by
      rw [List.prefix_iff_eq_take.mp hstarts, List.take_take, Nat.min_eq_left hheader, frame]
      exact List.take_left' (length_leBytes _ _)
    have hrest : body.bytes.length < bytes.length := by
      rw [hbody, List.length_drop]
      omega
    obtain ⟨after, hended, hleft, hending'⟩ := Reader.readExact_short hrest
    refine ⟨after, ?_, hleft, hending'.trans hending⟩
    rw [receive_of_header hread, htake, leNumber_header hcap, if_neg (Nat.not_lt.mpr hcap), hended,
      hending]
  · obtain ⟨after, hended, hleft, hending⟩ := Reader.readExact_short (Nat.lt_of_not_le hheader)
    refine ⟨after, ?_, hleft, hending⟩
    rw [receive, hended]

/-- A stream that is closed inside a frame, or before it, reads as closed and is used up. -/
theorem receive_truncated {bytes : List UInt8} (hcap : bytes.length ≤ maxMessageBytes)
    (hclosed : ended reader.ending = .closed) (hstarts : reader.bytes <+: frame bytes)
    (hshort : reader.bytes.length < (frame bytes).length) :
    ∃ after, receive fromSlice reader = (.error .closed, after) ∧ after.bytes = [] ∧
      after.ending = reader.ending := by
  rw [← hclosed]
  exact receive_short hcap hstarts hshort

/-- A stream with no bytes left reads as closed however often it is asked. -/
theorem receives_closed (hclosed : ended reader.ending = .closed) (hempty : reader.bytes = [])
    (count : ℕ) :
    receives fromSlice count reader = List.replicate count (.error .closed) := by
  induction count generalizing reader with
  | zero => rfl
  | succ count ih =>
      have hshort : reader.bytes.length < headerBytes := by
        rw [hempty]
        decide
      obtain ⟨after, hended, hafter, hending⟩ := Reader.readExact_short hshort
      have hreceive : receive fromSlice reader = (.error .closed, after) := by
        rw [receive, hended]
        simp only [hclosed]
      rw [receives, hreceive, ih (by rw [hending]; exact hclosed) hafter]
      rfl

/-- Messages whose frames are all there are received in order, and the rest is read after them. -/
theorem receives_frames (hinverts : Inverts toVec fromSlice) {messages : List M}
    {encoded : List (List UInt8)} (h : EncodesAll toVec messages encoded) {rest : List UInt8}
    (hreader : reader.bytes = encoded.flatMap frame ++ rest) (count : ℕ) :
    ∃ after, receives fromSlice (messages.length + count) reader =
        messages.map .ok ++ receives fromSlice count after ∧
      after.bytes = rest ∧ after.ending = reader.ending := by
  induction h generalizing reader with
  | nil => exact ⟨reader, by rw [List.length_nil, Nat.zero_add]; rfl, hreader, rfl⟩
  | @cons message bytes messages encoded hfirst hrest ih =>
      rw [List.flatMap_cons, List.append_assoc] at hreader
      obtain ⟨middle, hreceive, hmiddle, hending⟩ := receive_frame hinverts hfirst hreader
      obtain ⟨after, hreceives, hafter, hending'⟩ := ih hmiddle
      refine ⟨after, ?_, hafter, hending'.trans hending⟩
      rw [List.length_cons, Nat.add_right_comm, receives, hreceive, hreceives]
      rfl

/-- A prefix of some frames is some of them whole and a part of the next, if there is a next. -/
theorem frames_of_prefix {messages : List M} {encoded : List (List UInt8)}
    (h : EncodesAll toVec messages encoded) {bytes : List UInt8}
    (hstarts : bytes <+: encoded.flatMap frame) :
    ∃ whole left wholeBytes leftBytes part, messages = whole ++ left ∧
      encoded = wholeBytes ++ leftBytes ∧ EncodesAll toVec whole wholeBytes ∧
        EncodesAll toVec left leftBytes ∧ bytes = wholeBytes.flatMap frame ++ part ∧
          ((part = [] ∧ leftBytes = []) ∨ ∃ next later, leftBytes = next :: later ∧
            part <+: frame next ∧ part.length < (frame next).length) := by
  induction h generalizing bytes with
  | nil =>
      obtain rfl := List.prefix_nil.mp hstarts
      exact ⟨[], [], [], [], [], rfl, rfl, .nil, .nil, rfl, .inl ⟨rfl, rfl⟩⟩
  | @cons message first messages encoded hfirst hrest ih =>
      rw [List.flatMap_cons] at hstarts
      by_cases hwhole : (frame first).length ≤ bytes.length
      · obtain ⟨more, rfl⟩ : frame first <+: bytes :=
          List.prefix_of_prefix_length_le (List.prefix_append _ _) hstarts hwhole
        obtain ⟨whole, left, wholeBytes, leftBytes, part, rfl, rfl, hencodes, hleft, rfl, hpart⟩ :=
          ih ((List.prefix_append_right_inj _).mp hstarts)
        exact ⟨message :: whole, left, first :: wholeBytes, leftBytes, part, rfl, rfl,
          .cons hfirst hencodes, hleft, by rw [List.flatMap_cons, List.append_assoc], hpart⟩
      · have hshort := Nat.lt_of_not_le hwhole
        refine ⟨[], message :: messages, [], first :: encoded, bytes, rfl, rfl, .nil,
          .cons hfirst hrest, rfl, .inr ⟨first, encoded, rfl, ?_, hshort⟩⟩
        exact List.prefix_of_prefix_length_le hstarts (List.prefix_append _ _) (Nat.le_of_lt hshort)

/-- Messages written one after the other are received in order, however they arrive, and then the
stream reads as closed. -/
theorem received_whole (hinverts : Inverts toVec fromSlice) {messages : List M}
    {encoded : List (List UInt8)} (h : EncodesAll toVec messages encoded)
    (hclosed : ended reader.ending = .closed) (hreader : reader.bytes = encoded.flatMap frame)
    (more : ℕ) :
    receives fromSlice (messages.length + more) reader =
      messages.map .ok ++ List.replicate more (.error .closed) := by
  rw [← List.append_nil (encoded.flatMap frame)] at hreader
  obtain ⟨after, hreceives, hafter, hending⟩ := receives_frames hinverts h hreader more
  rw [hreceives, receives_closed (by rw [hending]; exact hclosed) hafter]

/-- Of a part of the wire the messages wholly inside it are received, and the stream then reads as
closed: no message is received in part. -/
theorem received_prefix (hinverts : Inverts toVec fromSlice) {messages : List M}
    {encoded : List (List UInt8)} (h : EncodesAll toVec messages encoded)
    (hclosed : ended reader.ending = .closed) (hstarts : reader.bytes <+: encoded.flatMap frame)
    (more : ℕ) :
    ∃ whole left wholeBytes leftBytes, messages = whole ++ left ∧
      encoded = wholeBytes ++ leftBytes ∧ whole.length = wholeBytes.length ∧
        wholeBytes.flatMap frame <+: reader.bytes ∧
        (∀ next later, leftBytes = next :: later →
          reader.bytes.length < ((wholeBytes ++ [next]).flatMap frame).length) ∧
        receives fromSlice (whole.length + more) reader =
          whole.map .ok ++ List.replicate more (.error .closed) := by
  obtain ⟨whole, left, wholeBytes, leftBytes, part, hmessages, hencoded, hwhole, hleft, hreader,
    hpart⟩ := frames_of_prefix h hstarts
  refine ⟨whole, left, wholeBytes, leftBytes, hmessages, hencoded, hwhole.length_eq,
    by rw [hreader]; exact List.prefix_append _ _, fun next later hnext ↦ ?_, ?_⟩
  · rcases hpart with ⟨-, hnone⟩ | ⟨next', later', hnext', -, hshort⟩
    · rw [hnone] at hnext
      cases hnext
    · rw [hnext] at hnext'
      cases hnext'
      rw [hreader, List.flatMap_append, List.length_append, List.length_append,
        List.flatMap_singleton]
      exact Nat.add_lt_add_left hshort _
  · cases more with
    | zero =>
        obtain ⟨after, hreceives, -⟩ := receives_frames hinverts hwhole hreader 0
        exact hreceives
    | succ more =>
        obtain ⟨after, hreceives, hafter, hending⟩ :=
          receives_frames hinverts hwhole hreader (more + 1)
        rw [← hending] at hclosed
        rw [hreceives]
        rcases hpart with ⟨rfl, -⟩ | ⟨next, later, hnext, hinside, hshort⟩
        · rw [receives_closed hclosed hafter]
        · rw [hnext] at hleft
          have hcap : next.length ≤ maxMessageBytes := by
            cases hleft with
            | cons hfirst => exact hfirst.2
          obtain ⟨last, hreceive, hlast, hending'⟩ := receive_truncated hcap hclosed
            (by rw [hafter]; exact hinside) (by rw [hafter]; exact hshort)
          rw [receives, hreceive, receives_closed (by rw [hending']; exact hclosed) hlast]
          rfl

/-- **The framing of the socket.**  For a codec whose decoding undoes its encoding: messages within
the cap are all sent, and what was sent reads as exactly these messages in order and then as
closed, however it arrives; any prefix of it reads as the messages wholly inside and then as closed;
an oversized message is refused with nothing written; and a header over the cap is refused with
nothing read behind it. -/
theorem framing (hinverts : Inverts toVec fromSlice) :
    (∀ messages encoded, EncodesAll toVec messages encoded →
      sendAll toVec .empty messages =
          (.ok (), { Writer.empty with written := encoded.flatMap frame }) ∧
        (∀ reader more, ended reader.ending = .closed → reader.bytes = encoded.flatMap frame →
          receives fromSlice (messages.length + more) reader =
            messages.map .ok ++ List.replicate more (.error .closed)) ∧
        (∀ reader more, ended reader.ending = .closed → reader.bytes <+: encoded.flatMap frame →
          ∃ whole left wholeBytes leftBytes, messages = whole ++ left ∧
            encoded = wholeBytes ++ leftBytes ∧ whole.length = wholeBytes.length ∧
              wholeBytes.flatMap frame <+: reader.bytes ∧
              (∀ next later, leftBytes = next :: later →
                reader.bytes.length < ((wholeBytes ++ [next]).flatMap frame).length) ∧
              receives fromSlice (whole.length + more) reader =
                whole.map .ok ++ List.replicate more (.error .closed))) ∧
    (∀ message bytes writer, toVec message = .ok bytes → maxMessageBytes < bytes.length →
      send toVec writer message = (.error (.tooLarge bytes.length), writer)) ∧
    (∀ reader : Reader, headerBytes ≤ reader.bytes.length →
      maxMessageBytes < leNumber (reader.bytes.take headerBytes) →
        (receive fromSlice reader).1 =
            .error (.tooLarge (leNumber (reader.bytes.take headerBytes))) ∧
          (receive fromSlice reader).2.bytes = reader.bytes.drop headerBytes) := by
  refine ⟨fun messages encoded h ↦ ⟨sendAll_frames h [], fun reader more hclosed hreader ↦ ?_,
    fun reader more hclosed hstarts ↦ ?_⟩, fun message bytes writer hencoded hover ↦ ?_,
    fun reader henough hover ↦ ?_⟩
  · exact received_whole hinverts h hclosed hreader more
  · exact received_prefix hinverts h hclosed hstarts more
  · exact send_tooLarge hencoded hover writer
  · exact receive_tooLarge henough hover

/-- The JSON of a truth value. -/
def boolToVec (value : Bool) : Except Text (List UInt8) :=
  .ok (Utf8.encode (if value then "true".toList else "false".toList))

def boolFromSlice (bytes : List UInt8) : Except Text Bool :=
  if bytes = Utf8.encode "true".toList then .ok true
  else if bytes = Utf8.encode "false".toList then .ok false
  else .error "expected value".toList

theorem framing_bool : receives boolFromSlice 3
    ⟨[⟨[4, 0], by simp⟩, ⟨[0, 0, 116, 114, 117, 101, 5, 0], by simp⟩,
      ⟨[0, 0, 102, 97, 108, 115, 101], by simp⟩], .eof⟩ =
        [.ok true, .ok false, .error .closed] :=
  ((framing (show Inverts boolToVec boolFromSlice from fun message bytes h ↦ by
      cases message <;> cases h <;> rfl)).1 [true, false]
    [Utf8.encode "true".toList, Utf8.encode "false".toList]
    (.cons ⟨rfl, by decide⟩ (.cons ⟨rfl, by decide⟩ .nil))).2.1 _ 1 rfl rfl

end Ipc

end RalphexRunner
