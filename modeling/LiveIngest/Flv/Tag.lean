import LiveIngest.Fault
import LiveIngest.Message.Packet
import LiveIngest.Flv.Video

/-!
# Media tags

The body of an audio or video message. A body is a tag exactly when it holds the tag's own header
completely; whatever follows the header is payload.
-/

namespace LiveIngest

/-- An audio or a video tag. -/
inductive MediaTag
  | audio (tag : AudioTag)
  | video (tag : VideoTag)
  deriving DecidableEq, Repr

namespace MediaTag

def parse (type : UInt8) (timestamp : UInt32) (body : List UInt8) : Except Fault MediaTag :=
  match MessageKind.ofType type with
  | .audio =>
    let tag := ((AudioTag.empty timestamp body.length).feed body).1
    if tag.headerComplete then .ok (.audio tag) else .error (.truncatedAudio body.length)
  | .video =>
    let tag := ((VideoTag.empty timestamp body.length).feed body).1
    if tag.headerComplete then .ok (.video tag) else .error (.truncatedVideo body.length)
  | _ => .error (.notMedia type)

def serialize : MediaTag → List UInt8
  | audio tag => tag.serialize
  | video tag => tag.serialize

def type : MediaTag → UInt8
  | audio _ => 8
  | video _ => 9

def timestamp : MediaTag → UInt32
  | audio tag => tag.timestamp
  | video tag => tag.timestamp

def setTimestamp (t : MediaTag) (timestamp : UInt32) : MediaTag :=
  match t with
  | audio tag => .audio { tag with timestamp }
  | video tag => .video { tag with timestamp }

def mediaClass : MediaTag → MediaClass
  | audio tag => tag.mediaClass
  | video tag => tag.mediaClass

def media : MediaTag → List UInt8
  | audio tag => tag.media
  | video tag => tag.media

/-- The chunk stream that the tag is sent on. -/
def priority : MediaTag → Priority
  | audio _ => .audio
  | video _ => .video

end MediaTag

end LiveIngest
