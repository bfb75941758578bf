import LiveIngest.Bytes.Endian
import LiveIngest.Bytes.Buffer
import LiveIngest.Flv.Audio

/-!
# Video tags

The body of a video message is a tag in one of two layouts. A **legacy** tag opens with one byte of
frame type and codec number, and for AVC goes on with a packet type and a 24-bit composition time.
An **extended** tag opens with one byte of frame type and packet type, goes on with a four-character
codec, and carries a composition time only for coded HEVC frames. The payload follows.

`VideoTag.feed` reads a tag piece by piece, like `AudioTag.feed`.
-/

namespace LiveIngest

/-- The codec of a legacy video tag. -/
inductive VideoCodec
  | sorensonH263
  | screenVideo
  | vp6
  | vp6Alpha
  | screenVideo2
  | avc
  | unknown (id : UInt8)
  deriving DecidableEq, Repr

namespace VideoCodec

def ofId : UInt8 → VideoCodec
  | 2 => sorensonH263
  | 3 => screenVideo
  | 4 => vp6
  | 5 => vp6Alpha
  | 6 => screenVideo2
  | 7 => avc
  | id => unknown id

/-- The number of a codec, which has four bits. -/
def id : VideoCodec → UInt8
  | sorensonH263 => 2
  | screenVideo => 3
  | vp6 => 4
  | vp6Alpha => 5
  | screenVideo2 => 6
  | avc => 7
  | unknown id => id &&& 0x0f

def label : VideoCodec → String
  | sorensonH263 => "SorensonH263"
  | screenVideo => "ScreenVideo"
  | vp6 => "Vp6"
  | vp6Alpha => "Vp6Alpha"
  | screenVideo2 => "ScreenVideo2"
  | avc => "Avc"
  | unknown id => unknownLabel id

end VideoCodec

/-- A four-character codec name. -/
structure FourCc where
  c1 : UInt8
  c2 : UInt8
  c3 : UInt8
  c4 : UInt8
  deriving DecidableEq, Repr

namespace FourCc

/-- AV1, `av01`. -/
def av1 : FourCc := ⟨0x61, 0x76, 0x30, 0x31⟩

/-- HEVC, `hvc1`. -/
def hevc : FourCc := ⟨0x68, 0x76, 0x63, 0x31⟩

def bytes (c : FourCc) : List UInt8 := [c.c1, c.c2, c.c3, c.c4]

end FourCc

/-- The codec of a video tag, in either layout. -/
inductive VideoCodecId
  | legacy (codec : VideoCodec)
  | extended (fourCc : FourCc)
  deriving DecidableEq, Repr

/-- How a video frame depends on others. -/
inductive FrameType
  | intra
  | inter
  | disposableInter
  | generatedKeyFrame
  | videoInfo
  | unknown (bits : UInt8)
  deriving DecidableEq, Repr

namespace FrameType

def ofBits : UInt8 → FrameType
  | 1 => intra
  | 2 => inter
  | 3 => disposableInter
  | 4 => generatedKeyFrame
  | 5 => videoInfo
  | bits => unknown bits

def bits : FrameType → UInt8
  | intra => 1
  | inter => 2
  | disposableInter => 3
  | generatedKeyFrame => 4
  | videoInfo => 5
  | unknown bits => bits

def label : FrameType → String
  | intra => "Intra"
  | inter => "Inter"
  | disposableInter => "DisposableInter"
  | generatedKeyFrame => "GeneratedKeyFrame"
  | videoInfo => "VideoInfo"
  | unknown bits => unknownLabel bits

end FrameType

/-- What the payload of a legacy AVC tag is. -/
inductive AvcPacketType
  | sequenceHeader
  | nalu
  | endOfSequence
  | unknown (code : UInt8)
  deriving DecidableEq, Repr

namespace AvcPacketType

def ofCode : UInt8 → AvcPacketType
  | 0 => sequenceHeader
  | 1 => nalu
  | 2 => endOfSequence
  | code => unknown code

def code : AvcPacketType → UInt8
  | sequenceHeader => 0
  | nalu => 1
  | endOfSequence => 2
  | unknown code => code

def label : AvcPacketType → String
  | sequenceHeader => "SequenceHeader"
  | nalu => "Nalu"
  | endOfSequence => "EndOfSequence"
  | unknown code => unknownLabel code

end AvcPacketType

/-- What the payload of an extended tag is. -/
inductive ExtendedPacketType
  | sequenceStart
  | codedFrames
  | sequenceEnd
  | codedFramesX
  | metadata
  | mpeg2TsSequenceStart
  | unknown (code : UInt8)
  deriving DecidableEq, Repr

namespace ExtendedPacketType

def ofCode : UInt8 → ExtendedPacketType
  | 0 => sequenceStart
  | 1 => codedFrames
  | 2 => sequenceEnd
  | 3 => codedFramesX
  | 4 => metadata
  | 5 => mpeg2TsSequenceStart
  | code => unknown code

/-- The number of a packet type, which has four bits. -/
def code : ExtendedPacketType → UInt8
  | sequenceStart => 0
  | codedFrames => 1
  | sequenceEnd => 2
  | codedFramesX => 3
  | metadata => 4
  | mpeg2TsSequenceStart => 5
  | unknown code => code &&& 0x0f

def label : ExtendedPacketType → String
  | sequenceStart => "SequenceStart"
  | codedFrames => "CodedFrames"
  | sequenceEnd => "SequenceEnd"
  | codedFramesX => "CodedFramesX"
  | metadata => "Metadata"
  | mpeg2TsSequenceStart => "Mpeg2TsSequenceStart"
  | unknown code => unknownLabel code

end ExtendedPacketType

/-- What the payload of a video tag is; legacy codecs other than AVC do not say. -/
inductive VideoPacketType
  | unspecified
  | avc (type : AvcPacketType)
  | extended (type : ExtendedPacketType)
  deriving DecidableEq, Repr

namespace VideoPacketType

def label : VideoPacketType → String
  | unspecified => "None"
  | avc type => "Avc(" ++ type.label ++ ")"
  | extended type => "Extended(" ++ type.label ++ ")"

end VideoPacketType

/-- How far the header of a video tag was read. -/
inductive VideoStage
  | header
  | fourCc
  | avcFields
  | compositionTime
  | payload
  deriving DecidableEq, Repr

/-- A video tag, possibly incomplete. -/
structure VideoTag where
  timestamp : UInt32
  frameType : FrameType
  codec : VideoCodecId
  packetType : VideoPacketType
  /-- Milliseconds between decoding and showing the frame, in 24 signed bits. -/
  compositionTime : Int
  media : List UInt8
  /-- How many payload bytes the tag takes at most. -/
  capacity : Nat
  stage : VideoStage
  /-- The bytes read of a header field that is not complete. -/
  pending : List UInt8
  deriving DecidableEq, Repr

namespace VideoTag

def empty (timestamp : UInt32) (capacity : Nat) : VideoTag where
  timestamp
  frameType := .inter
  codec := .legacy .avc
  packetType := .avc .sequenceHeader
  compositionTime := 0
  media := []
  capacity
  stage := .header
  pending := []

/-- Read the first byte, which decides the layout. -/
def readFirst (t : VideoTag) (b : UInt8) : VideoTag :=
  if b &&& 0x80 != 0 then
    { t with
      frameType := .ofBits ((b >>> 4) &&& 0x07)
      packetType := .extended (.ofCode (b &&& 0x0f))
      stage := .fourCc }
  else
    let codec := VideoCodec.ofId (b &&& 0x0f)
    -- The top bit is clear, so three bits of frame type are left here too.
    let t := { t with frameType := .ofBits (b >>> 4), codec := .legacy codec }
    if codec = .avc then { t with stage := .avcFields }
    else { t with packetType := .unspecified, stage := .payload }

/-- The header field that `stage` waits for, once all of its bytes are there. -/
def readField (t : VideoTag) : VideoTag :=
  match t.stage, t.pending with
  | .fourCc, [a, b, c, d] =>
    let fourCc : FourCc := ⟨a, b, c, d⟩
    let timed := fourCc = .hevc ∧ t.packetType = .extended .codedFrames
    { t with
      codec := .extended fourCc
      pending := []
      stage := if timed then .compositionTime else .payload }
  | .avcFields, [type, a, b, c] =>
    { t with
      packetType := .avc (.ofCode type)
      compositionTime := Bytes.asSigned 3 (Bytes.ofBigEndian [a, b, c])
      pending := []
      stage := .payload }
  | .compositionTime, [a, b, c] =>
    { t with
      compositionTime := Bytes.asSigned 3 (Bytes.ofBigEndian [a, b, c])
      pending := []
      stage := .payload }
  | _, _ => t

/-- Read one piece of a tag. Returns the tag and how many bytes of the piece it took. -/
def feed (t : VideoTag) : List UInt8 → VideoTag × Nat
  | [] => (t, 0)
  | b :: rest =>
    match t.stage with
    | .header =>
      let (t, n) := (t.readFirst b).feed rest
      (t, n + 1)
    | .payload =>
      let taken := (b :: rest).take (t.capacity - t.media.length)
      ({ t with media := t.media ++ taken }, taken.length)
    | _ =>
      let (t, n) := (readField { t with pending := t.pending ++ [b] }).feed rest
      (t, n + 1)

def headerComplete (t : VideoTag) : Bool :=
  t.stage = .payload

/-- The packet type that an extended header is written with. -/
def extendedType (t : VideoTag) : ExtendedPacketType :=
  match t.packetType with
  | .extended type => type
  | _ => .codedFrames

/-- The packet type that a legacy AVC header is written with. -/
def avcType (t : VideoTag) : AvcPacketType :=
  match t.packetType with
  | .avc type => type
  | _ => .nalu

def headerBytes (t : VideoTag) : List UInt8 :=
  let frameBits := (t.frameType.bits &&& 0x07) <<< 4
  match t.codec with
  | .extended fourCc =>
    let timed := fourCc = .hevc ∧ t.extendedType = .codedFrames
    (0x80 ||| frameBits ||| t.extendedType.code) ::
      (fourCc.bytes ++ if timed then Buffer.signed24 t.compositionTime else [])
  | .legacy codec =>
    (frameBits ||| codec.id) ::
      if codec = .avc then t.avcType.code :: Buffer.signed24 t.compositionTime else []

def serialize (t : VideoTag) : List UInt8 :=
  t.headerBytes ++ t.media

def headerSize (t : VideoTag) : Nat :=
  match t.codec with
  | .extended fourCc => if fourCc = .hevc ∧ t.extendedType = .codedFrames then 8 else 5
  | .legacy .avc => 5
  | .legacy _ => 1

def size (t : VideoTag) : Nat :=
  t.headerSize + t.media.length

def mediaClass (t : VideoTag) : MediaClass :=
  match t.packetType with
  | .avc .sequenceHeader | .extended .sequenceStart => .config
  | .avc .nalu | .extended .codedFrames | .extended .codedFramesX => .codedFrames
  | _ => .other

/-- True for a frame that can be decoded on its own. -/
def isKeyFrame (t : VideoTag) : Bool :=
  t.frameType = .intra

/-- True for a tag in the extended layout. -/
def isExtended (t : VideoTag) : Bool :=
  match t.codec with
  | .extended _ => true
  | .legacy _ => false

end VideoTag

end LiveIngest
