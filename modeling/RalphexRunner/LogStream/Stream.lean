import RalphexRunner.LogStream.Ring
import RalphexRunner.Semantics.Task
import RalphexRunner.Semantics.Transition
import RalphexRunner.Text.Ansi
import RalphexRunner.Text.Chars

/-!
# The log stream of a run

A `LogStream` is the state three writers and the flusher task share: the outgoing buffer, the two
rings, the lines handed to the subscribers, the `gone` latch and the phase.  Each definition below
is what one of them does between two points where another may run, so every interleaving of theirs
is a list of `Action`s.

`appended` and `record` are not in the source.  They keep what a writer ever appended to the
outgoing buffer and what ever left its front, in order: the chunks the flusher handed to
`append_log`, and the bytes dropped past the cap.
-/

namespace RalphexRunner

/-- How the line handed to the log stream ended. -/
inductive Terminator where
  | newline
  | cut
  deriving DecidableEq

namespace LogStream

inductive Latch where
  | open
  | gone
  deriving DecidableEq

inductive Phase where
  | running
  | closing
  deriving DecidableEq

/-- Where the flusher stands: at its select, at the head of the flush loop, or waiting for the
farm's answer to the chunk it sent under `seq`. -/
inductive Flusher where
  | selecting (seq : Seq)
  | flushing (phase : Phase) (seq : Seq)
  | sending (phase : Phase) (seq : Seq)
  deriving DecidableEq

/-- What left the front of the outgoing buffer. -/
inductive Entry where
  | chunk (seq : Seq) (bytes : List UInt8)
  | dropped (bytes : List UInt8)
  deriving DecidableEq

def Entry.bytes : Entry → List UInt8
  | .chunk _ bytes => bytes
  | .dropped bytes => bytes

end LogStream

open LogStream in
/-- The log pipeline of one run. -/
structure LogStream where
  outgoing : List UInt8
  history : Ring
  tail : Ring
  lines : List Text
  gone : Latch
  phase : LogStream.Phase
  filled : Bool
  flusher : Spawned Flusher
  appended : List UInt8
  record : List Entry

namespace LogStream

def newline : UInt8 := 10

/-- A stream whose flusher has just been spawned. -/
def new : LogStream where
  outgoing := []
  history := Ring.new historyLines historyBytes
  tail := Ring.new logTailLines logTailBytes
  lines := []
  gone := .open
  phase := .running
  filled := false
  flusher := Spawned.start (.selecting Seq.first)
  appended := []
  record := []

/-- The bytes past the cap, the oldest of a buffer. -/
def excess (buffer : List UInt8) : List UInt8 :=
  if logBufferBytes < buffer.length then buffer.take (buffer.length - logBufferBytes) else []

/-- A buffer without the bytes past the cap. -/
def capped (buffer : List UInt8) : List UInt8 :=
  if logBufferBytes < buffer.length then buffer.drop (buffer.length - logBufferBytes) else buffer

/-- Append bytes to the outgoing buffer, drop what is past the cap from its front, and wake the
flusher where a whole chunk is waiting. -/
def write (stream : LogStream) (bytes : List UInt8) : LogStream :=
  let extended := stream.outgoing ++ bytes
  { stream with
    outgoing := capped extended
    filled := stream.filled || decide (maxLogChunk ≤ (capped extended).length)
    appended := stream.appended ++ bytes
    record := stream.record ++
      if logBufferBytes < extended.length then [.dropped (excess extended)] else [] }

/-- The text of a line: the bytes decoded, one trailing carriage return removed. -/
def lineText (line : List UInt8) : Text := dropCarriageReturn (Utf8.lossy line)

/-- The bytes a line adds to the outgoing buffer. -/
def lineBytes (line : List UInt8) (terminator : Terminator) : List UInt8 :=
  Utf8.encode (Ansi.plain (lineText line)) ++
    match terminator with
    | .newline => [newline]
    | .cut => []

/-- Record one line in every view of the output. -/
def pushLine (stream : LogStream) (line : List UInt8) (terminator : Terminator) : LogStream :=
  let text := lineText line
  { stream.write (lineBytes line terminator) with
    history := stream.history.push text
    tail := stream.tail.push (Ansi.plain text)
    lines := stream.lines ++ [text] }

/-- Record the newline of a line already emitted at the chunk cap. -/
def pushBreak (stream : LogStream) : LogStream := stream.write [newline]

/-- The task runs on with a new local state, or ends. -/
def resume (stream : LogStream) (task : Task Flusher) : LogStream :=
  { stream with flusher := stream.flusher.run task }

/-- What `flush_loop` does once `flush` has returned the next sequence number. -/
def flushed (phase : Phase) (seq : Seq) : Task Flusher :=
  match phase with
  | .running => .running (.selecting seq)
  | .closing => .ended

/-- The branches of the flusher's select. -/
inductive Wake where
  | tick
  | filled
  | closing
  deriving DecidableEq

/-- One branch of the select is ready and taken. -/
def select (stream : LogStream) (wake : Wake) : Option LogStream :=
  match stream.flusher.task, wake with
  | .running (.selecting seq), .tick => some (stream.resume (.running (.flushing .running seq)))
  | .running (.selecting seq), .filled =>
      if stream.filled then
        some ({ stream with filled := false }.resume (.running (.flushing .running seq)))
      else none
  | .running (.selecting seq), .closing =>
      if stream.phase = .closing then
        some (stream.resume (.running (.flushing .closing seq)))
      else none
  | _, _ => none

def nextChunk (stream : LogStream) : List UInt8 := stream.outgoing.take maxLogChunk

/-- Take a chunk off the buffer and hand it to the farm under `seq`. -/
def send (stream : LogStream) (phase : Phase) (seq : Seq) : LogStream :=
  { stream with
    outgoing := stream.outgoing.drop maxLogChunk
    flusher := stream.flusher.run (.running (.sending phase seq))
    record := stream.record ++ [.chunk seq stream.nextChunk] }

/-- One turn of the flush loop up to its request. -/
def flush (stream : LogStream) : Option LogStream :=
  match stream.flusher.task with
  | .running (.flushing phase seq) =>
      match stream.gone with
      | .gone => some (stream.resume (flushed phase seq))
      | .open =>
          if stream.nextChunk.isEmpty then some (stream.resume (flushed phase seq))
          else some (stream.send phase seq)
  | _ => none

def answer (stream : LogStream) (sent : Except FarmError Unit) : Option LogStream :=
  match stream.flusher.task with
  | .running (.sending phase seq) =>
      match sent with
      | .error .gone =>
          some ({ stream with gone := .gone }.resume (flushed phase seq.increment))
      | .ok () | .error (.versionMismatch _) | .error (.badRequest _) | .error (.rejected _ _)
      | .error (.transport _) | .error (.decode _) =>
          some (stream.resume (.running (.flushing phase seq.increment)))
  | _ => none

/-- The head of `close`: announce the closing phase and take the flusher's handle if it is there. -/
def close (stream : LogStream) : LogStream :=
  { stream with phase := .closing, flusher := stream.flusher.take.getD stream.flusher }

/-- The close sees the flusher ended. -/
def joined (stream : LogStream) : Option LogStream :=
  stream.flusher.join.map fun flusher ↦ { stream with flusher }

/-- The close runs out of its budget and aborts the flusher. -/
def elapsed (stream : LogStream) : Option LogStream :=
  stream.flusher.expire.map fun flusher ↦ { stream with flusher }

/-- The close is dropped while it waits. -/
def interrupted (stream : LogStream) : LogStream :=
  { stream with flusher := stream.flusher.detach }

/-- What the writers, the flusher, the farm and a closing caller can do. -/
inductive Action where
  | write (bytes : List UInt8)
  | pushLine (line : List UInt8) (terminator : Terminator)
  | pushBreak
  | select (wake : Wake)
  | flush
  | answer (sent : Except FarmError Unit)
  | close
  | joined
  | elapsed
  | interrupted

def step (stream : LogStream) : Action → Option LogStream
  | .write bytes => some (stream.write bytes)
  | .pushLine line terminator => some (stream.pushLine line terminator)
  | .pushBreak => some stream.pushBreak
  | .select wake => stream.select wake
  | .flush => stream.flush
  | .answer sent => stream.answer sent
  | .close => some stream.close
  | .joined => stream.joined
  | .elapsed => stream.elapsed
  | .interrupted => some stream.interrupted

def machine : Machine LogStream Action where
  init stream := stream = new
  step := step

/-- The bytes that left the buffer, sent or dropped, in order. -/
def departed (stream : LogStream) : List UInt8 := stream.record.flatMap Entry.bytes

/-- The chunks handed to `append_log`, in order. -/
def chunks (stream : LogStream) : List (Seq × List UInt8) :=
  stream.record.filterMap fun
    | .chunk seq bytes => some (seq, bytes)
    | .dropped _ => none

/-- The bytes handed to `append_log`, in order. -/
def sent (stream : LogStream) : List UInt8 := stream.chunks.flatMap Prod.snd

/-- The bytes dropped as the oldest past the cap, in order. -/
def lost (stream : LogStream) : List (List UInt8) :=
  stream.record.filterMap fun
    | .chunk _ _ => none
    | .dropped bytes => some bytes

end LogStream

end RalphexRunner
