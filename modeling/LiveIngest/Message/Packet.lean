/-!
# Packets

A packet is a message as the chunk layer delivers it: the fields of its header and its payload, not
yet interpreted. `MessageKind` is what a message type means.
-/

namespace LiveIngest

/-- The header of a message. -/
structure PacketHeader where
  /-- Milliseconds, modulo 2 ^ 32. -/
  timestamp : UInt32
  /-- The length that the header announces. -/
  length : Nat
  type : UInt8
  /-- The message stream the packet belongs to; 0 is the connection itself. -/
  streamId : UInt32
  /-- The chunk stream the packet travels on. -/
  chunkStream : UInt32
  deriving DecidableEq, Repr, Inhabited

/-- A message that has not been interpreted. -/
structure Packet extends PacketHeader where
  payload : List UInt8
  deriving DecidableEq, Repr, Inhabited

/-- The meaning of a message type. -/
inductive MessageKind
  | control
  | audio
  | video
  | data (amf3 : Bool)
  | sharedObject
  | command (amf3 : Bool)
  | aggregate
  | unknown
  deriving DecidableEq, Repr

namespace MessageKind

def ofType : UInt8 → MessageKind
  | 1 | 2 | 3 | 4 | 5 | 6 => control
  | 8 => audio
  | 9 => video
  | 15 => data true
  | 16 => sharedObject
  | 17 => command true
  | 18 => data false
  | 19 => sharedObject
  | 20 => command false
  | 22 => aggregate
  | _ => unknown

end MessageKind

namespace Packet

/-- A packet whose header announces the length of its payload. -/
def ofPayload (timestamp : UInt32) (type : UInt8) (streamId chunkStream : UInt32)
    (payload : List UInt8) : Packet :=
  { timestamp, length := payload.length, type, streamId, chunkStream, payload }

def kind (p : Packet) : MessageKind :=
  .ofType p.type

/-- True for a packet that bundles several messages. -/
def isAggregate (p : Packet) : Bool :=
  p.kind = .aggregate

end Packet

/-- The chunk streams that the service sends on. A lower number goes out first. -/
inductive Priority
  | control
  | command
  | audio
  | video
  deriving DecidableEq, Repr

namespace Priority

def chunkStream : Priority → UInt32
  | control => 2
  | command => 3
  | audio => 4
  | video => 5

end Priority

end LiveIngest
