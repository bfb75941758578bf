import LiveIngest.Bytes.Take

/-!
# Control messages

The messages of types 1 to 6 steer the connection itself: chunk sizes, aborted messages,
acknowledgements, windows and user events. `Control.parse` reads a payload and ignores what follows
the fields; `Control.serialize` writes them.
-/

namespace LiveIngest

/-- A user control event. -/
inductive UserEvent
  | streamBegin (stream : UInt32)
  | streamEof (stream : UInt32)
  | streamDry (stream : UInt32)
  | setBufferLength (stream millis : UInt32)
  | streamIsRecorded (stream : UInt32)
  | pingRequest (timestamp : UInt32)
  | pingResponse (timestamp : UInt32)
  /-- An event that is not interpreted, kept with its bytes. -/
  | unknown (event : UInt16) (data : List UInt8)
  deriving DecidableEq, Repr

namespace UserEvent

def code : UserEvent → UInt16
  | streamBegin _ => 0
  | streamEof _ => 1
  | streamDry _ => 2
  | setBufferLength _ _ => 3
  | streamIsRecorded _ => 4
  | pingRequest _ => 6
  | pingResponse _ => 7
  | unknown event _ => event

def label : UserEvent → String
  | streamBegin _ => "StreamBegin"
  | streamEof _ => "StreamEof"
  | streamDry _ => "StreamDry"
  | setBufferLength _ _ => "SetBufferLength"
  | streamIsRecorded _ => "StreamIsRecorded"
  | pingRequest _ => "PingRequest"
  | pingResponse _ => "PingResponse"
  | unknown _ _ => "Unknown"

/-- The stream or the timestamp that an event is about. -/
def subject : UserEvent → UInt32
  | streamBegin v | streamEof v | streamDry v | streamIsRecorded v | pingRequest v
  | pingResponse v | setBufferLength v _ => v
  | unknown _ _ => 0

def body : UserEvent → List UInt8
  | streamBegin v | streamEof v | streamDry v | streamIsRecorded v | pingRequest v
  | pingResponse v => Bytes.bigEndian 4 v.toNat
  | setBufferLength stream millis =>
    Bytes.bigEndian 4 stream.toNat ++ Bytes.bigEndian 4 millis.toNat
  | unknown _ data => data

def serialize (e : UserEvent) : List UInt8 :=
  Bytes.bigEndian 2 e.code.toNat ++ e.body

def reader : Take UserEvent := do
  let event ← Take.uint16
  match event with
  | 0 => return streamBegin (← Take.uint32)
  | 1 => return streamEof (← Take.uint32)
  | 2 => return streamDry (← Take.uint32)
  | 3 =>
    let stream ← Take.uint32
    return setBufferLength stream (← Take.uint32)
  | 4 => return streamIsRecorded (← Take.uint32)
  | 6 => return pingRequest (← Take.uint32)
  | 7 => return pingResponse (← Take.uint32)
  | _ => return unknown event (← Take.left)

end UserEvent

/-- A control message. -/
inductive Control
  | setChunkSize (size : UInt32)
  | abort (chunkStream : UInt32)
  | acknowledgement (total : UInt32)
  | user (event : UserEvent)
  | windowSize (size : UInt32)
  | peerBandwidth (size : UInt32) (limit : UInt8)
  deriving DecidableEq, Repr

namespace Control

def type : Control → UInt8
  | setChunkSize _ => 1
  | abort _ => 2
  | acknowledgement _ => 3
  | user _ => 4
  | windowSize _ => 5
  | peerBandwidth _ _ => 6

/-- The name of a control message; a user control message goes by its event. -/
def label : Control → String
  | setChunkSize _ => "SetChunkSize"
  | abort _ => "AbortMessage"
  | acknowledgement _ => "Acknowledgement"
  | user event => event.label
  | windowSize _ => "WindowAcknowledgementSize"
  | peerBandwidth _ _ => "SetPeerBandwidth"

def subject : Control → UInt32
  | setChunkSize v | abort v | acknowledgement v | windowSize v | peerBandwidth v _ => v
  | user event => event.subject

/-- The low 31 bits; the top bit of a chunk size is reserved. -/
def sizeBits (size : UInt32) : UInt32 :=
  size &&& 0x7fffffff

def reader (type : UInt8) : Take Control := do
  match type with
  | 1 => return setChunkSize (sizeBits (← Take.uint32))
  | 2 => return abort (← Take.uint32)
  | 3 => return acknowledgement (← Take.uint32)
  | 4 => return user (← UserEvent.reader)
  | 5 => return windowSize (← Take.uint32)
  | 6 =>
    let size ← Take.uint32
    -- A limit type that is left out counts as dynamic.
    if (← Take.left).isEmpty then return peerBandwidth size 2
    else return peerBandwidth size (← Take.uint8)
  | _ => throw (.notControl type)

/-- A control message from its type and payload. -/
def parse (type : UInt8) (payload : List UInt8) : Except Fault Control :=
  (reader type).from? payload

def serialize : Control → List UInt8
  | setChunkSize size => Bytes.bigEndian 4 (sizeBits size).toNat
  | abort chunkStream => Bytes.bigEndian 4 chunkStream.toNat
  | acknowledgement total => Bytes.bigEndian 4 total.toNat
  | user event => event.serialize
  | windowSize size => Bytes.bigEndian 4 size.toNat
  | peerBandwidth size limit => Bytes.bigEndian 4 size.toNat ++ [limit]

end Control

end LiveIngest
