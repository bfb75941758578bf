import LiveIngest.Chunk.Header
import LiveIngest.Message.Packet

/-!
# Putting messages together

An `Assembly` is what the receiver knows about one chunk stream: the header fields that later chunks
build on, and the payload of the message under way. The fields outlive the message. A header of
format 1, 2 or 3 takes from them what it leaves out.
-/

namespace LiveIngest.Chunk

/-- The receiving state of one chunk stream. -/
structure Assembly where
  chunkStream : UInt32
  timestamp : UInt32
  /-- The distance that a message without a header is later than the one before it. -/
  delta : UInt32
  length : Nat
  type : UInt8
  streamId : UInt32
  /-- The payload bytes received, the last one first. -/
  received : List UInt8
  /-- How many payload bytes still fit the announced length. -/
  missing : Nat
  /-- True while a message is under way. -/
  inProgress : Bool
  deriving DecidableEq, Repr

namespace Assembly

/-- A chunk stream that nothing was received on. -/
def fresh (chunkStream : UInt32) : Assembly where
  chunkStream
  timestamp := 0
  delta := 0
  length := 0
  type := 0
  streamId := 0
  received := []
  missing := 0
  inProgress := false

def clear (a : Assembly) : Assembly :=
  { a with received := [], missing := a.length, inProgress := false }

/-- Start a message with the fields at hand. -/
def start (a : Assembly) : Assembly :=
  { a.clear with inProgress := true }

/-- Take over a message header and start its message; a message under way is given up. `timestamp`
is the header's timestamp with the extended one put in. -/
def applyHeader (a : Assembly) (h : MessageHeader) (timestamp : UInt32) : Assembly :=
  match h.format with
  | 0 =>
    -- A message that repeats this one without a header repeats its time as well.
    { a with timestamp, delta := 0, length := h.length, type := h.type,
             streamId := h.streamId }.start
  | 1 =>
    { a with timestamp := a.timestamp + timestamp, delta := timestamp, length := h.length,
             type := h.type }.start
  | _ => { a with timestamp := a.timestamp + timestamp, delta := timestamp }.start

/-- A chunk without a message header: go on with the message under way, or start one that repeats
all fields, a distance later. -/
def continueOrRepeat (a : Assembly) : Assembly :=
  if a.inProgress then a else { a with timestamp := a.timestamp + a.delta }.start

/-- Add payload, never more than is missing. Returns the number of bytes added. -/
def append (a : Assembly) (bytes : List UInt8) : Assembly × Nat :=
  let taken := bytes.take a.missing
  ({ a with received := taken.reverse ++ a.received, missing := a.missing - taken.length },
    taken.length)

/-- True when the message under way has all its bytes. -/
def isComplete (a : Assembly) : Bool :=
  a.inProgress && a.missing = 0

def packet (a : Assembly) : Packet where
  timestamp := a.timestamp
  length := a.length
  type := a.type
  streamId := a.streamId
  chunkStream := a.chunkStream
  payload := a.received.reverse

end Assembly

end LiveIngest.Chunk
