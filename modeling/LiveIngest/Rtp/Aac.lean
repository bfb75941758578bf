import LiveIngest.Codec.Aac
import LiveIngest.Rtp.Output

/-!
# Packetizing AAC

AAC frames go out whole, one entry each. Their timestamps are in samples. Tags come with times in
milliseconds, which are too coarse to count samples, so a time is moved to the **nearest multiple of
the frame length**, a half up.

Unlike video, a sequence header that cannot be read revokes the one before it.
-/

namespace LiveIngest.Rtp

open Codec

/-- The multiple of `length` nearest to `samples`, a half up. -/
def nearestMultiple (samples length : Nat) : Nat :=
  (2 * samples + length) / (2 * length) * length

/-- A packetizer of AAC. -/
structure AacPacketizer where
  /-- The configuration in force and the bytes it was read from. -/
  config : Option (AudioConfig × List UInt8)

namespace AacPacketizer

def initial : AacPacketizer := ⟨none⟩

/-- The output frame of a raw frame. A configuration without a rate gives none. -/
def packetize (config : AudioConfig) (published : List UInt8) (tag : AudioTag) :
    Option AudioOutput :=
  let rate := config.sampling.rate
  if rate = 0 then none
  else
    -- Whole samples first, and only then whole frames.
    let samples := tag.timestamp.toNat * rate / 1000
    some {
      timestamp := nearestMultiple samples config.frameLength
      clockRate := rate
      duration := config.frameLength
      channels := config.channels
      millis := tag.timestamp.toNat
      codecConfig := published
      body := ⟨tag.media, [⟨0, tag.media.length, []⟩]⟩ }

def add (p : AacPacketizer) (tag : AudioTag) : AacPacketizer × Option AudioOutput :=
  match tag.codec, tag.packetType with
  | .aac, .sequenceHeader =>
    (⟨(AudioConfig.decode tag.media).toOption.map fun config => (config, tag.media)⟩, none)
  | .aac, .raw => (p, p.config.bind fun (config, published) => packetize config published tag)
  | _, _ => (p, none)

end AacPacketizer

end LiveIngest.Rtp
