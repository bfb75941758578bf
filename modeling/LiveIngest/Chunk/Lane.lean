import LiveIngest.Chunk.Header
import LiveIngest.Message.Packet

/-!
# Cutting messages into chunks

A `Lane` is the sending side of one chunk stream: messages that wait in order, and the header that
the peer remembers. `Lane.next?` writes the next chunk of the first message. Its first chunk carries
the smallest header from which the peer can rebuild the message's own; later chunks carry none.

`Lane.reset` drops the messages of one message stream. When one of them was cut in the middle, the
peer has to be told to give it up, and nothing may build on its header any more.

Main statement: `Lane.backlog_next?_lt` — every chunk makes the lane's backlog smaller.
-/

namespace LiveIngest.Chunk

/-- A message that waits to be sent. -/
structure Outgoing where
  packet : Packet
  unsent : List UInt8
  started : Bool
  deriving DecidableEq, Repr

/-- The sending side of one chunk stream. -/
structure Lane where
  chunkStream : UInt32
  queue : List Outgoing
  /-- The header of the last message that was sent completely. -/
  previous : Option PacketHeader
  deriving DecidableEq, Repr

/-- A chunk that was written. -/
structure Written where
  lane : Lane
  bytes : List UInt8
  /-- The message, if this was its last chunk. -/
  finished : Option Packet

namespace Lane

/-- A chunk stream that nothing was sent on. -/
def fresh (chunkStream : UInt32) : Lane :=
  ⟨chunkStream, [], none⟩

def enqueue (l : Lane) (p : Packet) : Lane :=
  { l with queue := l.queue ++ [⟨p, p.payload, false⟩] }

def hasData (l : Lane) : Bool :=
  !l.queue.isEmpty

/-- The format of the first chunk of a message and the time it carries. A header can lean on the
previous one within the same message stream as long as time does not run backwards. -/
def firstFormat (previous : Option PacketHeader) (h : PacketHeader) : UInt8 × UInt32 :=
  match previous with
  | some p =>
    if p.streamId = h.streamId ∧ p.timestamp ≤ h.timestamp then
      (if p.length = h.length ∧ p.type = h.type then 2 else 1, h.timestamp - p.timestamp)
    else (0, h.timestamp)
  | none => (0, h.timestamp)

/-- The headers of the next chunk of a message. -/
def headers (l : Lane) (m : Outgoing) : List UInt8 :=
  if m.started then BasicHeader.encode ⟨3, l.chunkStream⟩
  else
    let (format, timestamp) := firstFormat l.previous m.packet.toPacketHeader
    BasicHeader.encode ⟨format, l.chunkStream⟩ ++
      MessageHeader.encode
        { format, timestamp, length := m.packet.length, type := m.packet.type,
          streamId := m.packet.streamId }

/-- Write the next chunk, with at most `size` bytes of payload and at least one if there is any. -/
def next? (l : Lane) (size : Nat) : Option Written :=
  match l.queue with
  | [] => none
  | m :: rest =>
    let size := max size 1
    -- An empty message has one chunk, with headers alone.
    let bytes := l.headers m ++ m.unsent.take size
    let unsent := m.unsent.drop size
    if unsent.isEmpty then
      some {
        lane := { l with queue := rest, previous := some m.packet.toPacketHeader }
        bytes
        finished := some m.packet }
    else
      some {
        lane := { l with queue := { m with unsent, started := true } :: rest }
        bytes
        finished := none }

/-- Drop the messages of a message stream. The answer is true when one of them was cut in the
middle. -/
def reset (l : Lane) (streamId : UInt32) : Lane × Bool :=
  let cut :=
    match l.queue with
    | m :: _ => m.started && m.packet.streamId = streamId
    | [] => false
  ({ l with
      queue := l.queue.filter (·.packet.streamId ≠ streamId)
      -- The peer has seen the header of the cut message, so the one before it is out of date.
      previous := if cut then none else l.previous }, cut)

/-- How much waits: one for each message and one for each byte. -/
def backlog (l : Lane) : Nat :=
  l.queue.foldr (fun m size => m.unsent.length + 1 + size) 0

/-- **Every chunk makes the backlog smaller.** -/
theorem backlog_next?_lt {l : Lane} {size : Nat} {w : Written} (h : l.next? size = some w) :
    w.lane.backlog < l.backlog := by
  unfold next? at h
  split at h
  · simp at h
  · rename_i m rest hq
    simp only [backlog, hq, List.foldr_cons]
    dsimp only at h
    split at h
    · obtain rfl := Option.some.inj h
      simp
    · rename_i hne
      obtain rfl := Option.some.inj h
      have hlt : max size 1 < m.unsent.length := by simpa [List.isEmpty_iff] using hne
      simp only [List.foldr_cons, List.length_drop]
      omega

def drain (l : Lane) (size : Nat) : Lane × List (List UInt8) :=
  match _h : l.next? size with
  | none => (l, [])
  | some w =>
    let (l, chunks) := w.lane.drain size
    (l, w.bytes :: chunks)
termination_by l.backlog
decreasing_by exact backlog_next?_lt _h

end Lane

end LiveIngest.Chunk
