import LiveIngest.Fault
import LiveIngest.Rtp.Output

/-!
# Packetizing video

What all video formats have in common: a packetizer looks at the tags of its own format only, keeps
the configuration record that came last and could be read, and turns coded frames into output frames
once it has a record. A record that cannot be read leaves the one before it in force.

A format brings the reading of its record and the making of an output frame: `VideoScheme`.
-/

namespace LiveIngest.Rtp

/-- How a video format is packetized, with records of type `ρ`. -/
structure VideoScheme (ρ : Type) where
  format : VideoFormat
  empty : ρ
  parse : List UInt8 → Except Fault ρ
  /-- Make an output frame of a coded frame, with entries of at most `limit` bytes. -/
  packetize : ρ → (limit : Nat) → VideoTag → Option VideoOutput

/-- A packetizer of one video format. -/
structure VideoPacketizer (ρ : Type) where
  record : Option ρ
  limit : Nat

namespace VideoPacketizer

variable {ρ : Type}

def initial (limit : Nat) : VideoPacketizer ρ := ⟨none, limit⟩

/-- Feed one tag. Only a record that could be read changes the packetizer. -/
def add (s : VideoScheme ρ) (p : VideoPacketizer ρ) (tag : VideoTag) :
    VideoPacketizer ρ × Option VideoOutput :=
  if VideoFormat.ofCodec? tag.codec = some s.format then
    match tag.mediaClass with
    | .config =>
      match s.parse tag.media with
      | .ok record => ({ p with record := some record }, none)
      | .error _ => (p, none)
    | .codedFrames => (p, p.record.bind fun record => s.packetize record p.limit tag)
    | .other => (p, none)
  else (p, none)

end VideoPacketizer

end LiveIngest.Rtp
