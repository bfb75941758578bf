import LiveIngest.Fault
import LiveIngest.Keyed
import LiveIngest.Chunk.Assembly

/-!
# From bytes to messages

The receiving side of a connection is a machine that can be stopped behind any byte and goes on
where it was. In one turn, `Demux.turn`, it takes as much of a slice of input as its stage asks for:
the rest of a header, or payload up to the end of the chunk or of the message. `Demux.parse` makes
turns until a message is complete or the slice is used up, and `Demux.feed` reads on over any number
of slices. Chunk streams may interleave their chunks in any way; each has its own `Assembly`.

A chunk that builds on a header which was never sent is a fault, and framing is lost for good: the
machine stays in a `Stage.broken` and repeats a fault for every further byte.

Two operations come from outside: `Demux.setChunkSize`, which holds from the next chunk on, and
`Demux.abort`, which gives up a message under way. Aborted in the middle of a chunk, a message keeps
taking the rest of that chunk; where its announced length is reached before the chunk ends, no rule
says whose bytes follow, and the machine is **stalled**: a turn takes nothing, and so would every
further one.
-/

namespace LiveIngest.Chunk

/-- What the machine waits for, as far as it is shown to the outside. -/
inductive Phase
  | basicHeader
  | messageHeader
  | extendedTimestamp
  | payload
  deriving DecidableEq, Repr

namespace Phase

def label : Phase → String
  | basicHeader => "ChunkHeaderWait"
  | messageHeader => "ChunkTypeWait"
  | extendedTimestamp => "ChunkExtTimestampWait"
  | payload => "ChunkDataWait"

end Phase

/-- What the machine is in the middle of. -/
inductive Stage
  /-- A basic header, of which some bytes were seen. -/
  | basicHeader (seen : List UInt8)
  /-- A message header, of which some bytes were seen. -/
  | messageHeader (basic : BasicHeader) (seen : List UInt8)
  /-- The extended timestamp of a message header. -/
  | extendedTimestamp (chunkStream : UInt32) (fields : MessageHeader) (seen : List UInt8)
  /-- The payload of a chunk, of which some bytes were taken. -/
  | payload (chunkStream : UInt32) (taken : Nat)
  /-- Framing was lost in a phase; every further byte is answered by `again`. -/
  | broken (phase : Phase) (again : Fault)
  deriving DecidableEq, Repr

namespace Stage

def phase : Stage → Phase
  | basicHeader _ => .basicHeader
  | messageHeader _ _ => .messageHeader
  | extendedTimestamp _ _ _ => .extendedTimestamp
  | payload _ _ => .payload
  | broken phase _ => phase

end Stage

/-- What reading brings about. -/
inductive Event
  | quiet
  | packet (p : Packet)
  | fault (f : Fault)
  /-- The next byte belongs neither to a payload nor to a header and is not taken. -/
  | stalled
  deriving DecidableEq, Repr

/-- The receiving side of a connection. -/
structure Demux where
  stage : Stage
  /-- The largest payload of a chunk, at least 1. -/
  chunkSize : Nat
  streams : Keyed UInt32 Assembly
  deriving DecidableEq, Repr

namespace Demux

def initial : Demux where
  stage := .basicHeader []
  chunkSize := defaultSize
  streams := []

/-- Change the chunk size from the next chunk on. -/
def setChunkSize (d : Demux) (size : Nat) : Demux :=
  { d with chunkSize := max size 1 }

/-- Give up the message under way on a chunk stream. -/
def abort (d : Demux) (chunkStream : UInt32) : Demux :=
  match d.streams.get? chunkStream with
  | some a => { d with streams := d.streams.put chunkStream a.clear }
  | none => d

/-- Put back a chunk stream after `taken` bytes of its chunk: a complete message is handed over, and
after a full chunk the next header follows. -/
def settle (d : Demux) (chunkStream : UInt32) (a : Assembly) (taken : Nat) : Demux × Event :=
  -- The last chunk of a message may be shorter than the others: the last byte ends it.
  if a.isComplete then
    ({ d with stage := .basicHeader [], streams := d.streams.put chunkStream a.clear },
      .packet a.packet)
  else
    let stage := if d.chunkSize ≤ taken then .basicHeader [] else .payload chunkStream taken
    ({ d with stage, streams := d.streams.put chunkStream a }, .quiet)

/-- Lose framing with `fault`, and answer every further byte with `again`. -/
def lose (d : Demux) (phase : Phase) (fault again : Fault) : Demux × Event :=
  ({ d with stage := .broken phase again }, .fault fault)

/-- A message header is complete, its timestamp resolved. Only format 0 may open a chunk stream;
otherwise framing is lost in `phase`. -/
def onMessageHeader (d : Demux) (chunkStream : UInt32) (h : MessageHeader) (timestamp : UInt32)
    (phase : Phase) (again : Fault) : Demux × Event :=
  match d.streams.get? chunkStream with
  | some a => d.settle chunkStream (a.applyHeader h timestamp) 0
  | none =>
    if h.format = 0 then
      d.settle chunkStream ((Assembly.fresh chunkStream).applyHeader h timestamp) 0
    else d.lose phase (.orphanHeader h.format chunkStream) again

/-- A basic header is complete. Format 3 has no message header and goes straight to the payload. -/
def onBasicHeader (d : Demux) (basic : BasicHeader) : Demux × Event :=
  if messageHeaderLength basic.format = 0 then
    match d.streams.get? basic.chunkStream with
    | some a => d.settle basic.chunkStream a.continueOrRepeat 0
    | none =>
      d.lose .messageHeader (.orphanContinuation basic.chunkStream)
        (.orphanHeader basic.format basic.chunkStream)
  else ({ d with stage := .messageHeader basic [] }, .quiet)

/-- The outcome of reading a slice or a part of it. -/
structure Reading where
  demux : Demux
  /-- How many bytes were taken, the one that brought the event included. -/
  consumed : Nat
  event : Event
  deriving DecidableEq, Repr

namespace Reading

/-- Bytes were taken, and what they did is known. -/
def of (consumed : Nat) (out : Demux × Event) : Reading :=
  ⟨out.1, consumed, out.2⟩

/-- The reading with bytes taken in front of it. -/
def after (r : Reading) (n : Nat) : Reading :=
  { r with consumed := n + r.consumed }

end Reading

/-- How many bytes a basic header has, as far as those seen tell. The first one tells. -/
def basicNeed : List UInt8 → Nat
  | [] => 1
  | first :: _ => basicLength first

/-- All bytes of a message header came. An extended timestamp may follow. -/
def onFields (d : Demux) (basic : BasicHeader) (h : MessageHeader) : Demux × Event :=
  if h.isExtended then ({ d with stage := .extendedTimestamp basic.chunkStream h [] }, .quiet)
  else
    d.onMessageHeader basic.chunkStream h h.timestamp .messageHeader
      (.orphanHeader basic.format basic.chunkStream)

/-- Read a header of which `seen` came before. `need` is the number of its bytes, as far as those
seen tell, `stage` what the machine goes on with, and `done` what is done when all bytes came. -/
def turnField (d : Demux) (stage : List UInt8 → Stage) (need : List UInt8 → Nat)
    (done : List UInt8 → Demux × Event) (seen slice : List UInt8) : Reading :=
  let run := slice.take (need seen - seen.length)
  let seen := seen ++ run
  .of run.length <|
    if seen.length < need seen then ({ d with stage := stage seen }, .quiet) else done seen

/-- Read a basic header of which `seen` came before. -/
def turnBasicHeader (d : Demux) (seen slice : List UInt8) : Reading :=
  d.turnField .basicHeader basicNeed (fun seen => d.onBasicHeader (.decode seen)) seen slice

/-- Read payload, up to the end of the chunk and never past the end of the message. -/
def turnPayload (d : Demux) (chunkStream : UInt32) (taken : Nat) (slice : List UInt8) : Reading :=
  match d.streams.get? chunkStream with
  | some a =>
    let (a, n) := a.append (slice.take (d.chunkSize - taken))
    .of n (d.settle chunkStream a (taken + n))
  | none => .of 1 (d, .fault (.chunkStreamMissing chunkStream))

/-- Read a slice that is not empty as far as the stage asks for. -/
def turn (d : Demux) (slice : List UInt8) : Reading :=
  match d.stage with
  | .basicHeader seen => d.turnBasicHeader seen slice
  | .messageHeader basic seen =>
    d.turnField (.messageHeader basic) (fun _ => messageHeaderLength basic.format)
      (fun seen => d.onFields basic (.decode basic.format seen)) seen slice
  | .extendedTimestamp chunkStream h seen =>
    d.turnField (.extendedTimestamp chunkStream h) (fun _ => 4)
      (fun seen => d.onMessageHeader chunkStream h (.ofNat (Bytes.ofBigEndian seen))
        .extendedTimestamp .extendedWithoutHeader) seen slice
  | .payload chunkStream taken =>
    -- The chunk size may have been lowered in the middle of the chunk.
    if d.chunkSize ≤ taken then d.turnBasicHeader [] slice
    else d.turnPayload chunkStream taken slice
  | .broken _ again => .of 1 (d, .fault again)

/-- Read a slice up to the first message or fault in it. -/
def parse (d : Demux) (slice : List UInt8) : Reading :=
  if _hs : slice = [] then ⟨d, 0, .quiet⟩
  else
    let r := d.turn slice
    -- A turn that takes nothing would be repeated for ever.
    if _hr : r.consumed = 0 then ⟨d, 0, .stalled⟩
    else match r.event with
      | .quiet => (r.demux.parse (slice.drop r.consumed)).after r.consumed
      | _ => r
termination_by slice.length
decreasing_by
  have hpos := List.length_pos_iff.2 _hs
  have htaken : (d.turn slice).consumed ≠ 0 := _hr
  rw [List.length_drop]
  omega

/-- What does not stall takes a byte. -/
theorem consumed_parse_pos {d : Demux} {slice : List UInt8} (hs : slice ≠ [])
    (h : (d.parse slice).event ≠ .stalled) : 0 < (d.parse slice).consumed := by
  unfold parse at h ⊢
  rw [dif_neg hs] at h ⊢
  dsimp only at h ⊢
  by_cases hr : (d.turn slice).consumed = 0
  · rw [dif_pos hr] at h
    exact absurd rfl h
  · rw [dif_neg hr]
    have hpos := Nat.pos_of_ne_zero hr
    split
    · exact Nat.lt_of_lt_of_le hpos (Nat.le_add_right _ _)
    · exact hpos

/-- What came out of reading on over messages. -/
structure Feeding where
  demux : Demux
  /-- How many bytes were taken before the fault, back to the end of the last message, or all. -/
  consumed : Nat
  packets : List Packet
  fault : Option Fault

/-- Read a slice to its end or to the first fault in it. -/
def feedSlice (d : Demux) (slice : List UInt8) : Feeding :=
  if _hs : slice = [] then ⟨d, 0, [], none⟩
  else
    let r := d.parse slice
    match _h : r.event with
    | .packet p =>
      let later := r.demux.feedSlice (slice.drop r.consumed)
      { later with consumed := r.consumed + later.consumed, packets := p :: later.packets }
    | .fault f => ⟨r.demux, 0, [], some f⟩
    | .quiet | .stalled => ⟨r.demux, r.consumed, [], none⟩
termination_by slice.length
decreasing_by
  have hpos := List.length_pos_iff.2 _hs
  have hlive : (d.parse slice).event ≠ .stalled := fun hstall =>
    Event.noConfusion (_h.symm.trans hstall)
  have htaken := consumed_parse_pos _hs hlive
  rw [List.length_drop]
  omega

def feed (d : Demux) : List (List UInt8) → Feeding
  | [] => ⟨d, 0, [], none⟩
  | slice :: rest =>
    let now := d.feedSlice slice
    match now.fault with
    | some _ => now
    | none =>
      let later := now.demux.feed rest
      { later with
        consumed := now.consumed + later.consumed
        packets := now.packets ++ later.packets }

end Demux

end LiveIngest.Chunk
