/-!
# Audio tags

The body of an audio message is a tag: one header byte with codec, sound rate, sample width and
channel count, for AAC one more byte with the packet type, and the coded audio. Numbers that name no
known codec or packet type are kept, so that a tag is written as it was read.

`AudioTag.feed` reads a tag piece by piece and says how many bytes of a piece it took; a tag never
takes more payload than the capacity it was made with.
-/

namespace LiveIngest

/-- What a media unit is to a consumer. -/
inductive MediaClass
  /-- Decoder configuration, sent out of band. -/
  | config
  | codedFrames
  | other
  deriving DecidableEq, Repr

namespace MediaClass

def label : MediaClass → String
  | config => "Config"
  | codedFrames => "CodedFrames"
  | other => "Other"

end MediaClass

/-- The name of a code that has no name. -/
def unknownLabel (code : UInt8) : String :=
  s!"Unknown({code})"

/-- The codec of an audio tag. -/
inductive AudioCodec
  | pcm
  | adpcm
  | mp3
  | pcmLe
  | nellymoser16khz
  | nellymoser8khz
  | nellymoser
  | g711A
  | g711U
  | aac
  | speex
  | mp38khz
  | unknown (id : UInt8)
  deriving DecidableEq, Repr

namespace AudioCodec

def ofId : UInt8 → AudioCodec
  | 0 => pcm
  | 1 => adpcm
  | 2 => mp3
  | 3 => pcmLe
  | 4 => nellymoser16khz
  | 5 => nellymoser8khz
  | 6 => nellymoser
  | 7 => g711A
  | 8 => g711U
  | 10 => aac
  | 11 => speex
  | 14 => mp38khz
  | id => unknown id

/-- The number of a codec, which has four bits. -/
def id : AudioCodec → UInt8
  | pcm => 0
  | adpcm => 1
  | mp3 => 2
  | pcmLe => 3
  | nellymoser16khz => 4
  | nellymoser8khz => 5
  | nellymoser => 6
  | g711A => 7
  | g711U => 8
  | aac => 10
  | speex => 11
  | mp38khz => 14
  | unknown id => id &&& 0x0f

def label : AudioCodec → String
  | pcm => "Pcm"
  | adpcm => "Adpcm"
  | mp3 => "Mp3"
  | pcmLe => "PcmLe"
  | nellymoser16khz => "Nellymoser16khz"
  | nellymoser8khz => "Nellymoser8khz"
  | nellymoser => "Nellymoser"
  | g711A => "G711A"
  | g711U => "G711U"
  | aac => "Aac"
  | speex => "Speex"
  | mp38khz => "Mp38khz"
  | unknown id => unknownLabel id

end AudioCodec

/-- The class of sample rate in an audio header. -/
inductive SoundRate
  | rate5khz
  | rate11khz
  | rate22khz
  | rate44khz
  deriving DecidableEq, Repr

namespace SoundRate

/-- The rate of the two low bits of a number. -/
def ofBits (bits : UInt8) : SoundRate :=
  match bits &&& 0x03 with
  | 0 => rate5khz
  | 1 => rate11khz
  | 2 => rate22khz
  | _ => rate44khz

def bits : SoundRate → UInt8
  | rate5khz => 0
  | rate11khz => 1
  | rate22khz => 2
  | rate44khz => 3

def label : SoundRate → String
  | rate5khz => "Rate5khz"
  | rate11khz => "Rate11khz"
  | rate22khz => "Rate22khz"
  | rate44khz => "Rate44khz"

end SoundRate

/-- What the payload of an AAC tag is. -/
inductive AacPacketType
  | sequenceHeader
  | raw
  | unknown (code : UInt8)
  deriving DecidableEq, Repr

namespace AacPacketType

def ofCode : UInt8 → AacPacketType
  | 0 => sequenceHeader
  | 1 => raw
  | code => unknown code

def code : AacPacketType → UInt8
  | sequenceHeader => 0
  | raw => 1
  | unknown code => code

def label : AacPacketType → String
  | sequenceHeader => "SequenceHeader"
  | raw => "Raw"
  | unknown code => unknownLabel code

end AacPacketType

/-- How far the header of an audio tag was read. -/
inductive AudioStage
  | header
  | packetType
  | payload
  deriving DecidableEq, Repr

/-- An audio tag, possibly incomplete. -/
structure AudioTag where
  timestamp : UInt32
  codec : AudioCodec
  rate : SoundRate
  is16bit : Bool
  isStereo : Bool
  packetType : AacPacketType
  media : List UInt8
  /-- How many payload bytes the tag takes at most. -/
  capacity : Nat
  stage : AudioStage
  deriving DecidableEq, Repr

namespace AudioTag

def empty (timestamp : UInt32) (capacity : Nat) : AudioTag where
  timestamp
  codec := .aac
  rate := .rate44khz
  is16bit := true
  isStereo := true
  packetType := .raw
  media := []
  capacity
  stage := .header

def readHeader (t : AudioTag) (b : UInt8) : AudioTag :=
  let codec := AudioCodec.ofId (b >>> 4)
  { t with
    codec
    rate := .ofBits (b >>> 2)
    is16bit := b &&& 0x02 != 0
    isStereo := b &&& 0x01 != 0
    stage := if codec = .aac then .packetType else .payload }

/-- Read one piece of a tag. Returns the tag and how many bytes of the piece it took. -/
def feed (t : AudioTag) : List UInt8 → AudioTag × Nat
  | [] => (t, 0)
  | b :: rest =>
    match t.stage with
    | .header =>
      let (t, n) := (t.readHeader b).feed rest
      (t, n + 1)
    | .packetType =>
      let (t, n) := { t with packetType := .ofCode b, stage := .payload }.feed rest
      (t, n + 1)
    | .payload =>
      let taken := (b :: rest).take (t.capacity - t.media.length)
      ({ t with media := t.media ++ taken }, taken.length)

def headerComplete (t : AudioTag) : Bool :=
  t.stage = .payload

def headerBytes (t : AudioTag) : List UInt8 :=
  let first := (t.codec.id <<< 4) ||| (t.rate.bits <<< 2) ||| (t.is16bit.toUInt8 <<< 1) |||
    t.isStereo.toUInt8
  if t.codec = .aac then [first, t.packetType.code] else [first]

def serialize (t : AudioTag) : List UInt8 :=
  t.headerBytes ++ t.media

def size (t : AudioTag) : Nat :=
  (if t.codec = .aac then 2 else 1) + t.media.length

/-- What the tag is to a consumer: every codec but AAC carries coded frames only. -/
def mediaClass (t : AudioTag) : MediaClass :=
  match t.codec, t.packetType with
  | .aac, .sequenceHeader => .config
  | .aac, .raw => .codedFrames
  | .aac, .unknown _ => .other
  | _, _ => .codedFrames

end AudioTag

end LiveIngest
