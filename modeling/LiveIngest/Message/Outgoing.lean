import LiveIngest.Message.Basic

/-!
# What the service sends

The packets of outgoing messages. Control messages and commands carry no time of their own: control
messages go out at time zero and commands at the time since the connection began.
-/

namespace LiveIngest.Packet

def ofControl (c : Control) : Packet :=
  .ofPayload 0 c.type 0 Priority.control.chunkStream c.serialize

def ofEvent (e : UserEvent) : Packet :=
  .ofControl (.user e)

def ofCommand (timestamp streamId : UInt32) (c : Command) : Except Fault Packet :=
  c.serialize.map fun body =>
    .ofPayload timestamp 20 streamId Priority.command.chunkStream body

def ofMetadata (timestamp streamId : UInt32) (m : Metadata) : Except Fault Packet :=
  m.serialize.map fun body =>
    .ofPayload timestamp 18 streamId Priority.command.chunkStream body

def ofMedia (streamId : UInt32) (tag : MediaTag) : Packet :=
  .ofPayload tag.timestamp tag.type streamId tag.priority.chunkStream tag.serialize

end LiveIngest.Packet
