import LiveIngest.Message.Control
import LiveIngest.Message.Command
import LiveIngest.Flv.Tag

/-!
# Messages

A packet whose payload was interpreted. Aggregates and shared objects are no messages of their own:
aggregates are taken apart before (`Packet.leaves`), and shared objects are not supported.
-/

namespace LiveIngest

/-- The content of a message. -/
inductive MessageBody
  | control (message : Control)
  | command (message : Command)
  | metadata (message : Metadata)
  | media (tag : MediaTag)

/-- A packet with its payload interpreted. -/
structure Message where
  streamId : UInt32
  timestamp : UInt32
  type : UInt8
  body : MessageBody

namespace Message

def ofPacket (p : Packet) : Except Fault Message := do
  let body ← match p.kind with
    | .control => (Control.parse p.type p.payload).map MessageBody.control
    | .command amf3 => (Command.parse amf3 p.payload).map MessageBody.command
    | .data amf3 => (Metadata.parse amf3 p.payload).map MessageBody.metadata
    | .audio | .video => (MediaTag.parse p.type p.timestamp p.payload).map MessageBody.media
    | .sharedObject | .aggregate | .unknown => .error (.unsupportedMessage p.type)
  return { streamId := p.streamId, timestamp := p.timestamp, type := p.type, body }

end Message

end LiveIngest
