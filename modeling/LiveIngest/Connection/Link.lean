import LiveIngest.Fault
import LiveIngest.Chunk.Mux

/-!
# Links

A link is what anyone outside a connection holds of it: the queues of what is to be sent, and
whether the connection is still there. Sending never waits; it puts a message into a queue, or fails
once the link was closed or the connection is gone. Closing lets what is queued go out.

A `Moment` is the time of an operation: the wall clock, and the time since the connection began.
-/

namespace LiveIngest

/-- A point in time, in milliseconds. -/
structure Moment where
  /-- Time since 1970. -/
  wall : Nat
  uptime : Nat
  deriving DecidableEq, Repr

namespace Moment

/-- The wall clock as a timestamp, modulo 2 ^ 32. -/
def timestamp (t : Moment) : UInt32 :=
  .ofNat t.wall

/-- The uptime as a timestamp, modulo 2 ^ 32. -/
def stamp (t : Moment) : UInt32 :=
  .ofNat t.uptime

def after (t : Moment) (millis : Nat) : Moment :=
  ⟨t.wall + millis, t.uptime + millis⟩

end Moment

/-- What became of a link. -/
inductive LinkStatus
  | live
  /-- Closed by either side; what is queued may still be sent. -/
  | closed
  /-- The connection does not exist any more. -/
  | gone
  deriving DecidableEq, Repr

/-- A connection as seen from outside. -/
structure Link where
  id : Nat
  mux : Chunk.Mux
  status : LinkStatus
  deriving DecidableEq, Repr

namespace LinkStatus

def close : LinkStatus → LinkStatus
  | live => closed
  | status => status

/-- What keeps a message from being sent over the link of a connection. -/
def fault? (connection : Nat) : LinkStatus → Option Fault
  | live => none
  | closed => some (.linkClosed connection)
  | gone => some (.linkGone connection)

end LinkStatus

namespace Link

def initial (id : Nat) : Link := ⟨id, .initial, .live⟩

/-- True once the link was closed or its connection is gone. -/
def isClosed (l : Link) : Bool :=
  l.status ≠ .live

def check (l : Link) : Except Fault Unit :=
  match l.status.fault? l.id with
  | none => .ok ()
  | some f => .error f

/-- Put a message into the queue of its chunk stream. -/
def send (l : Link) (p : Packet) : Except Fault Link :=
  l.check.map fun _ => { l with mux := l.mux.enqueue p }

/-- Drop what is queued for a message stream. -/
def reset (l : Link) (streamId : UInt32) : Except Fault (Link × List UInt32) :=
  l.check.map fun _ =>
    let (mux, cut) := l.mux.reset streamId
    ({ l with mux }, cut)

def close (l : Link) : Link :=
  { l with status := l.status.close }

/-- The link of a connection that does not exist any more; its queues are lost. -/
def lose (l : Link) : Link :=
  { l with mux := .initial, status := .gone }

/-- Add raw bytes of the handshake, which go out also on a closed link. -/
def pushRaw (l : Link) (bytes : List UInt8) : Link :=
  { l with mux := l.mux.pushRaw bytes }

/-- Take out at most `budget` bytes to be sent now. -/
def serialize (l : Link) (now : Moment) (budget : Nat) : Link × List UInt8 :=
  let (mux, out) := l.mux.serialize now.uptime budget
  ({ l with mux }, out)

end Link

end LiveIngest
