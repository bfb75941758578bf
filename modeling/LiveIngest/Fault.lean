/-!
# Faults

Everything that can go wrong while a publisher is served is one of the causes listed in `Fault`.
A cause carries the data that its report needs and nothing else; the wording lives in one place,
`Fault.text`. Causes are grouped by the **layer** that raises them, and the layer alone decides
whether the connection survives:

* `Fault.layer` — the layer of a cause;
* `Fault.message` — the full report, the layer's heading in front of the text;
* `Fault.isFatal` — a fault of the socket, the handshake, the chunk framing or the connection itself
  ends the connection, while a fault inside one message, stream or media unit is dropped with that
  message.
-/

namespace LiveIngest

/-- The layer of the service that raises a fault. -/
inductive Layer
  | io
  | protocol
  | handshake
  | amfDecode
  | amfEncode
  | chunk
  | connection
  | stream
  | media
  | packetizer
  | configuration
  deriving DecidableEq, Repr

namespace Layer

/-- The words that open a report of this layer. -/
def heading : Layer → String
  | io => "IO error"
  | protocol => "Protocol error"
  | handshake => "Handshake error"
  | amfDecode => "AMF decode error"
  | amfEncode => "AMF encode error"
  | chunk => "Chunk error"
  | connection => "Connection error"
  | stream => "Stream error"
  | media => "Media error"
  | packetizer => "Packetizer error"
  | configuration => "Configuration error"

def label : Layer → String
  | io => "Io"
  | protocol => "Protocol"
  | handshake => "Handshake"
  | amfDecode => "AmfDecode"
  | amfEncode => "AmfEncode"
  | chunk => "Chunk"
  | connection => "Connection"
  | stream => "Stream"
  | media => "Media"
  | packetizer => "Packetizer"
  | configuration => "Configuration"

def all : List Layer :=
  [io, protocol, handshake, amfDecode, amfEncode, chunk, connection, stream, media, packetizer,
    configuration]

def ofLabel? (name : String) : Option Layer :=
  all.find? fun l => l.label = name

/-- Faults of these layers leave nothing to go on with: the byte stream is lost or the peer is. -/
def isFatal : Layer → Bool
  | io | handshake | chunk | connection => true
  | _ => false

end Layer

/-- A decoder configuration record with a version byte and nested length-prefixed units. -/
inductive ConfigRecord
  | avcC
  | hvcC
  | av1C
  deriving DecidableEq, Repr

namespace ConfigRecord

def name : ConfigRecord → String
  | avcC => "avcC"
  | hvcC => "hvcC"
  | av1C => "av1C"

end ConfigRecord

/-- What a length prefix inside a configuration record announces. -/
inductive RecordUnit
  | sps
  | pps
  | nal
  deriving DecidableEq, Repr

namespace RecordUnit

def name : RecordUnit → String
  | sps => "SPS"
  | pps => "PPS"
  | nal => "NAL"

end RecordUnit

/-- The cause of a failure. -/
inductive Fault
  /-- Fewer bytes are left than a field needs. -/
  | shortRead
  /-- A tag header of an aggregate needs 11 bytes and only `left` follow. -/
  | aggregateTrailing (left : Nat)
  /-- A tag of an aggregate announces more bytes than are left. -/
  | aggregateOverrun (size left : Nat)
  | notControl (type : UInt8)
  /-- A command does not begin with its name. The report does not show what stands there. -/
  | commandNameMissing
  | unsupportedMessage (type : UInt8)
  | unsupportedVersion (version expected : UInt8)
  | unsupportedMarker (marker : UInt8)
  | nestingTooDeep
  /-- An empty property name has to be followed by the object end marker. -/
  | objectEndMissing (found : UInt8)
  /-- A string is not UTF-8. The report does not show where it breaks off. -/
  | invalidText
  | textTooLong
  | propertyNameTooLong (bytes : Nat)
  /-- A compressed header on a chunk stream that never had a full one. -/
  | orphanHeader (format : UInt8) (chunkStream : UInt32)
  /-- A header-less chunk on a chunk stream that never had a header. -/
  | orphanContinuation (chunkStream : UInt32)
  | extendedWithoutHeader
  /-- Payload on a chunk stream that nothing is known of. -/
  | chunkStreamMissing (chunkStream : UInt32)
  /-- The link was closed; what is still queued may go out, nothing may be added. -/
  | linkClosed (connection : Nat)
  /-- The connection behind the link does not exist any more. -/
  | linkGone (connection : Nat)
  | playWithoutName
  | truncatedAudio (bytes : Nat)
  | truncatedVideo (bytes : Nat)
  | notMedia (type : UInt8)
  | recordTooShort (record : ConfigRecord)
  | recordVersion (record : ConfigRecord) (version : UInt8)
  | unitLengthCut (record : ConfigRecord) (kind : RecordUnit)
  | unitDataCut (record : ConfigRecord) (kind : RecordUnit)
  | ppsCountMissing
  | arrayHeaderCut
  | markerBitMissing
  | audioConfigTooShort
  | bitsPastEnd
  | skipPastEnd
  | bitFieldTooWide
  | golombTooLong
  | zeroPort
  | zeroConnections
  | chunkSizeTooSmall
  | chunkSizeTooLarge
  | limitTypeUnknown (limit : UInt8)
  | zeroReadBuffer
  | writeBufferTooSmall (buffer : Nat) (chunk : UInt32)
  | payloadLimitTooSmall (limit : Nat)
  | invalidAddress (address : String)
  /-- A fault reported from outside, by a socket or an application, with its own words. -/
  | reported (layer : Layer) (text : String)
  deriving DecidableEq, Repr

def hexDigit (n : Nat) : Char :=
  if n < 10 then Char.ofNat (48 + n) else Char.ofNat (87 + n)

def hexByte (b : UInt8) : String :=
  String.ofList [hexDigit (b.toNat / 16), hexDigit (b.toNat % 16)]

namespace Fault

def layer : Fault → Layer
  | shortRead => .io
  | aggregateTrailing _ | aggregateOverrun _ _ | notControl _ | commandNameMissing
  | unsupportedMessage _ => .protocol
  | unsupportedVersion _ _ => .handshake
  | unsupportedMarker _ | nestingTooDeep | objectEndMissing _ | invalidText => .amfDecode
  | textTooLong | propertyNameTooLong _ => .amfEncode
  | orphanHeader _ _ | orphanContinuation _ | extendedWithoutHeader | chunkStreamMissing _ => .chunk
  | linkClosed _ | linkGone _ => .connection
  | playWithoutName => .stream
  | truncatedAudio _ | truncatedVideo _ | notMedia _ | recordTooShort _ | recordVersion _ _
  | unitLengthCut _ _ | unitDataCut _ _ | ppsCountMissing | arrayHeaderCut | markerBitMissing
  | audioConfigTooShort => .media
  | bitsPastEnd | skipPastEnd | bitFieldTooWide | golombTooLong => .packetizer
  | zeroPort | zeroConnections | chunkSizeTooSmall | chunkSizeTooLarge | limitTypeUnknown _
  | zeroReadBuffer | writeBufferTooSmall _ _ | payloadLimitTooSmall _ | invalidAddress _ =>
    .configuration
  | reported layer _ => layer

/-- The words of a fault, without its layer. -/
def text : Fault → String
  | shortRead => "Not enough bytes"
  | aggregateTrailing left => s!"Aggregate message has {left} trailing bytes"
  | aggregateOverrun size left =>
    s!"Aggregate sub-message of {size} bytes exceeds remaining {left}"
  | notControl type => s!"Not a control message type: {type}"
  | commandNameMissing => "Command name missing"
  | unsupportedMessage type => s!"Unsupported message type {type}"
  | unsupportedVersion version expected =>
    s!"Unsupported RTMP version: {version}, expected {expected}"
  | unsupportedMarker marker => "Unsupported AMF0 marker: 0x" ++ hexByte marker
  | nestingTooDeep => "AMF0 nesting too deep"
  | objectEndMissing found => "Expected object end, got 0x" ++ hexByte found
  | invalidText => "Invalid UTF-8 in string"
  | textTooLong => "String too long for AMF0"
  | propertyNameTooLong bytes => s!"Property name too long: {bytes} bytes"
  | orphanHeader format chunkStream =>
    s!"Type {format} chunk on chunk stream {chunkStream} without a previous type 0"
  | orphanContinuation chunkStream =>
    s!"Type 3 chunk on chunk stream {chunkStream} without a previous header"
  | extendedWithoutHeader => "Extended timestamp without a message header"
  | chunkStreamMissing chunkStream => s!"No state for chunk stream {chunkStream}"
  | linkClosed connection => s!"Connection {connection} is closed"
  | linkGone connection => s!"Connection {connection} is gone"
  | playWithoutName => "play without a stream name"
  | truncatedAudio bytes => s!"Truncated audio tag of {bytes} bytes"
  | truncatedVideo bytes => s!"Truncated video tag of {bytes} bytes"
  | notMedia type => s!"Not a media message type: {type}"
  | recordTooShort record => record.name ++ " data too short"
  | recordVersion record version => "Unsupported " ++ record.name ++ s!" version: {version}"
  | unitLengthCut record kind => record.name ++ " truncated in " ++ kind.name ++ " length"
  | unitDataCut record kind => record.name ++ " " ++ kind.name ++ " data truncated"
  | ppsCountMissing => "avcC truncated before PPS count"
  | arrayHeaderCut => "hvcC truncated in array header"
  | markerBitMissing => "av1C marker bit not set"
  | audioConfigTooShort => "AudioSpecificConfig too short"
  | bitsPastEnd => "Bitstream read past end"
  | skipPastEnd => "Bitstream skip past end"
  | bitFieldTooWide => "Cannot read more than 32 bits at once"
  | golombTooLong => "Exp-Golomb code too long"
  | zeroPort => "Invalid port: 0"
  | zeroConnections => "Invalid max_connections: 0"
  | chunkSizeTooSmall => "Chunk size must be at least 128"
  | chunkSizeTooLarge => "Chunk size must not exceed 65536"
  | limitTypeUnknown limit => s!"Invalid peer bandwidth limit type: {limit}"
  | zeroReadBuffer => "Invalid read_buffer_size: 0"
  | writeBufferTooSmall buffer chunk =>
    s!"write_buffer_size {buffer} cannot hold a chunk of {chunk} bytes"
  | payloadLimitTooSmall limit => s!"RTP payload limit too small: {limit}"
  | invalidAddress address => s!"Invalid address {address}: invalid socket address syntax"
  | reported _ text => text

def message (f : Fault) : String :=
  f.layer.heading ++ ": " ++ f.text

/-- True for the faults that must end the connection. -/
def isFatal (f : Fault) : Bool :=
  f.layer.isFatal

@[simp] theorem layer_reported (l : Layer) (t : String) : (reported l t).layer = l := rfl

end Fault

instance : DecidableEq (Except Fault Unit)
  | .ok (), .ok () => isTrue rfl
  | .error f, .error g => decidable_of_iff (f = g) ⟨congrArg _, Except.error.inj⟩
  | .ok _, .error _ => isFalse nofun
  | .error _, .ok _ => isFalse nofun

section Parts

variable {α β : Type} {x : Except Fault α}

/-- What follows a part fails, or the part does. -/
theorem error_of_bind {g : α → Except Fault β} {f : Fault} (h : (x >>= g) = .error f) :
    x = .error f ∨ ∃ a, x = .ok a ∧ g a = .error f := by
  cases x with
  | error e =>
    cases h
    exact Or.inl rfl
  | ok a => exact Or.inr ⟨a, rfl, h⟩

/-- What succeeds consists of a part and what follows it. -/
theorem ok_of_bind {g : α → Except Fault β} {b : β} (h : (x >>= g) = .ok b) :
    ∃ a, x = .ok a ∧ g a = .ok b := by
  cases x with
  | error e => cases h
  | ok a => exact ⟨a, rfl, h⟩

theorem ok_of_map {g : α → β} {b : β} (h : x.map g = .ok b) : ∃ a, x = .ok a ∧ g a = b := by
  cases x with
  | error e => cases h
  | ok a => exact ⟨a, rfl, Except.ok.inj h⟩

end Parts

end LiveIngest
