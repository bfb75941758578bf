import LiveIngest.Bits.Reader
import LiveIngest.Bits.Emulation

/-!
# H.265 sequence parameter sets

Reads a sequence parameter set as far as the conformance window. The window's offsets count in
chroma samples; a picture cannot become smaller than nothing.
-/

namespace LiveIngest.Codec

/-- What a parameter set says about the picture. -/
structure HevcSps where
  profile : UInt8
  level : UInt8
  chromaFormat : Nat
  width : UInt32
  height : UInt32
  deriving DecidableEq, Repr

namespace HevcSps

/-- For each of `n` sub-layers, whether its profile and its level are there. -/
def subLayerFlags : (n : Nat) → BitTake (List (Bool × Bool))
  | 0 => return []
  | n + 1 => do
    let profile ← BitTake.bit
    let level ← BitTake.bit
    let rest ← subLayerFlags n
    return (profile, level) :: rest

/-- Pass over the profiles and levels of sub-layers. -/
def skipSubLayers : List (Bool × Bool) → BitTake Unit
  | [] => return
  | (profile, level) :: rest => do
    if profile then BitTake.skip 88
    if level then BitTake.skip 8
    skipSubLayers rest

/-- The four offsets of the conformance window: left, right, top, bottom. -/
def window : BitTake (Nat × Nat × Nat × Nat) := do
  if ← BitTake.bit then
    let left ← BitTake.ue
    let right ← BitTake.ue
    let top ← BitTake.ue
    let bottom ← BitTake.ue
    return (left, right, top, bottom)
  else
    return (0, 0, 0, 0)

/-- Luma samples for each chroma sample, across and down. -/
def chromaUnits (format : Nat) : Nat × Nat :=
  (if format = 1 ∨ format = 2 then 2 else 1, if format = 1 then 2 else 1)

def reader : BitTake HevcSps := do
  BitTake.skip 4 -- id of the video parameter set
  let subLayers ← BitTake.bits 3
  BitTake.skip 1 -- temporal nesting
  BitTake.skip 3 -- profile space and tier
  let profile ← BitTake.bits 5
  BitTake.skip 80 -- compatibility and constraint flags
  let level ← BitTake.bits 8
  let flags ← subLayerFlags subLayers
  if 0 < subLayers then BitTake.skip (2 * (8 - subLayers))
  skipSubLayers flags
  let _ ← BitTake.ue -- id
  let format ← BitTake.ue
  if format = 3 then
    let _ ← BitTake.bit -- planes coded apart
  let width ← BitTake.ue
  let height ← BitTake.ue
  let (left, right, top, bottom) ← window
  let (across, down) := chromaUnits format
  return {
    profile := .ofNat profile
    level := .ofNat level
    chromaFormat := format
    width := .ofNat (width - across * (left + right))
    height := .ofNat (height - down * (top + bottom)) }

/-- Read a parameter set, its NAL header left off. -/
def decode (bytes : List UInt8) : Except Fault HevcSps :=
  reader.from? (Emulation.remove bytes)

end HevcSps

end LiveIngest.Codec
