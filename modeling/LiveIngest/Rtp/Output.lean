import LiveIngest.Flv.Video

/-!
# Output frames

A coded frame leaves the service as media bytes and a list of entries, each of which becomes one RTP
payload: an entry names a part of the media bytes and the bytes that go in front of it. A sender
needs no knowledge of the codec.
-/

namespace LiveIngest.Rtp

/-- The video formats that can be sent on. -/
inductive VideoFormat
  | h264
  | h265
  | av1
  deriving DecidableEq, Repr

namespace VideoFormat

def label : VideoFormat → String
  | h264 => "H264"
  | h265 => "H265"
  | av1 => "Av1"

def ofCodec? : VideoCodecId → Option VideoFormat
  | .legacy .avc => some h264
  | .legacy _ => none
  | .extended fourCc =>
    if fourCc = .hevc then some h265 else if fourCc = .av1 then some av1 else none

end VideoFormat

/-- One future RTP payload: `lead`, then `length` media bytes from `offset` on. -/
structure Entry where
  offset : Nat
  length : Nat
  lead : List UInt8
  deriving DecidableEq, Repr

namespace Entry

/-- The number of bytes of the RTP payload. -/
def payloadSize (e : Entry) : Nat :=
  e.lead.length + e.length

end Entry

/-- Media bytes and entries into them. -/
structure Body where
  media : List UInt8
  entries : List Entry
  deriving DecidableEq, Repr

namespace Body

def empty : Body := ⟨[], []⟩

/-- Add media bytes; they start where the media ended. -/
def append (b : Body) (bytes : List UInt8) : Body :=
  { b with media := b.media ++ bytes }

def addEntries (b : Body) (entries : List Entry) : Body :=
  { b with entries := b.entries ++ entries }

/-- The media bytes of an entry, without its lead; none where it reaches beyond the media. -/
def data (b : Body) (e : Entry) : List UInt8 :=
  if e.offset + e.length ≤ b.media.length then (b.media.drop e.offset).take e.length else []

end Body

/-- A video frame to be sent on. -/
structure VideoOutput where
  format : VideoFormat
  isIntra : Bool
  width : Nat
  height : Nat
  /-- The time in units of the clock rate. -/
  timestamp : Nat
  clockRate : Nat
  millis : Nat
  codecConfig : List UInt8
  body : Body
  deriving DecidableEq, Repr

namespace VideoOutput

/-- A frame with nothing in it; video clocks count milliseconds. -/
def empty (format : VideoFormat) : VideoOutput where
  format
  isIntra := false
  width := 0
  height := 0
  timestamp := 0
  clockRate := 1000
  millis := 0
  codecConfig := []
  body := .empty

end VideoOutput

/-- An audio frame to be sent on. The only format is AAC. -/
structure AudioOutput where
  timestamp : Nat
  clockRate : Nat
  duration : Nat
  channels : UInt8
  millis : Nat
  codecConfig : List UInt8
  body : Body
  deriving DecidableEq, Repr

namespace AudioOutput

def empty : AudioOutput where
  timestamp := 0
  clockRate := 0
  duration := 0
  channels := 0
  millis := 0
  codecConfig := []
  body := .empty

end AudioOutput

/-- A frame to be sent on. -/
inductive Output
  | video (frame : VideoOutput)
  | audio (frame : AudioOutput)
  deriving DecidableEq, Repr

namespace Output

/-- The time in units of the frame's clock rate. -/
def timestamp : Output → Nat
  | video frame => frame.timestamp
  | audio frame => frame.timestamp

def body : Output → Body
  | video frame => frame.body
  | audio frame => frame.body

end Output

end LiveIngest.Rtp
