import LiveIngest.Flv.Tag
import LiveIngest.Rtp.Nal
import LiveIngest.Rtp.Av1
import LiveIngest.Rtp.Aac

/-!
# Packetizing a stream

The tags of a stream may change codec at any time. A router hands each tag to the packetizer of its
codec, so that the codecs do not disturb each other, and counts what went in, what came out and what
no packetizer was there for.
-/

namespace LiveIngest.Rtp

open Codec

/-- Counters of a stream. -/
structure Stats where
  framesIn : Nat
  framesOut : Nat
  unsupported : Nat
  deriving DecidableEq, Repr

/-- A packetizer for each format. -/
structure Router where
  h264 : VideoPacketizer AvcRecord
  h265 : VideoPacketizer HevcRecord
  av1 : VideoPacketizer Av1Record
  aac : AacPacketizer
  stats : Stats

namespace Router

def initial (limit : Nat) : Router where
  h264 := .initial limit
  h265 := .initial limit
  av1 := .initial limit
  aac := .initial
  stats := ⟨0, 0, 0⟩

/-- Feed a tag to the packetizer of its codec. -/
def route (r : Router) : MediaTag → Router × Option Output
  | .video tag =>
    match VideoFormat.ofCodec? tag.codec with
    | some .h264 =>
      let (h264, out) := r.h264.add NalScheme.h264.toVideoScheme tag
      ({ r with h264 }, out.map .video)
    | some .h265 =>
      let (h265, out) := r.h265.add NalScheme.h265.toVideoScheme tag
      ({ r with h265 }, out.map .video)
    | some .av1 =>
      let (av1, out) := r.av1.add Av1.scheme tag
      ({ r with av1 }, out.map .video)
    | none => (r, none)
  | .audio tag =>
    let (aac, out) := r.aac.add tag
    ({ r with aac }, out.map .audio)

/-- True for tags that no packetizer is there for. -/
def isUnsupported : MediaTag → Bool
  | .video tag => (VideoFormat.ofCodec? tag.codec).isNone
  | .audio tag => tag.codec ≠ .aac

def add (r : Router) (tag : MediaTag) : Router × Option Output :=
  let stats := r.stats
  let (r, out) := r.route tag
  ({ r with stats := {
      framesIn := stats.framesIn + 1
      framesOut := stats.framesOut + out.isSome.toNat
      unsupported := stats.unsupported + (isUnsupported tag).toNat } }, out)

end Router

end LiveIngest.Rtp
