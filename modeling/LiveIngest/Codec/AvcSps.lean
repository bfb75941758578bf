import LiveIngest.Bits.Reader
import LiveIngest.Bits.Emulation

/-!
# H.264 sequence parameter sets

Reads a sequence parameter set as far as the picture size and works out the size of the picture that
is shown: whole macroblocks less what is cropped. Cropping counts in units of chroma samples and,
for interlaced material, of line pairs; a picture cannot become smaller than nothing.
-/

namespace LiveIngest.Codec

/-- What a parameter set says about the picture. -/
structure AvcSps where
  profile : UInt8
  level : UInt8
  chromaFormat : Nat
  width : UInt32
  height : UInt32
  deriving DecidableEq, Repr

namespace AvcSps

/-- The profiles whose parameter sets describe the chroma format. -/
def describesChroma (profile : Nat) : Bool :=
  [100, 110, 122, 244, 44, 83, 86, 118, 128, 138, 139, 134, 135].contains profile

/-- The scale behind `last` before it is cut to eight bits. -/
def scaleSum (last delta : Int) : Int :=
  last + delta + 256

/-- Pass over the deltas of a scaling list of `n` more entries. A next scale of zero ends the
deltas; the remaining entries repeat the last one. -/
def skipScalingList : (n : Nat) → (last next : Int) → BitTake Unit
  | 0, _, _ => return
  | n + 1, last, next => do
    if next = 0 then skipScalingList n last next
    else
      let delta ← BitTake.se
      let next := Int.tmod (scaleSum last delta) 256
      skipScalingList n (if next = 0 then last else next) next

/-- Pass over scaling lists, of which each is there or not. -/
def skipScalingLists : (sizes : List Nat) → BitTake Unit
  | [] => return
  | size :: rest => do
    if ← BitTake.bit then skipScalingList size 8 8
    skipScalingLists rest

/-- Pass over `n` signed codes. -/
def skipSigned : (n : Nat) → BitTake Unit
  | 0 => return
  | n + 1 => do
    let _ ← BitTake.se
    skipSigned n

/-- The chroma format and whether its planes are coded apart. -/
def chroma (profile : Nat) : BitTake (Nat × Bool) := do
  if describesChroma profile then
    let format ← BitTake.ue
    let separate ← if format = 3 then BitTake.bit else pure false
    let _ ← BitTake.ue -- bit depth of luma
    let _ ← BitTake.ue -- bit depth of chroma
    let _ ← BitTake.bit -- lossless transform bypass
    if ← BitTake.bit then
      skipScalingLists
        (List.replicate 6 16 ++ List.replicate (if format = 3 then 6 else 2) 64)
    return (format, separate)
  else
    return (1, false)

/-- Pass over the fields that say how pictures are ordered. -/
def skipPictureOrder : BitTake Unit := do
  let kind ← BitTake.ue
  if kind = 0 then
    let _ ← BitTake.ue -- width of the order count
  else if kind = 1 then
    let _ ← BitTake.bit -- deltas always zero
    let _ ← BitTake.se -- offset for pictures that are not referred to
    let _ ← BitTake.se -- offset between fields
    let cycle ← BitTake.ue
    skipSigned cycle

/-- The four cropping offsets: left, right, top, bottom. -/
def cropping : BitTake (Nat × Nat × Nat × Nat) := do
  if ← BitTake.bit then
    let left ← BitTake.ue
    let right ← BitTake.ue
    let top ← BitTake.ue
    let bottom ← BitTake.ue
    return (left, right, top, bottom)
  else
    return (0, 0, 0, 0)

/-- The units that cropping counts in, across and down, for a frame of `fields` fields. -/
def cropUnits (format : Nat) (separate : Bool) (fields : Nat) : Nat × Nat :=
  if separate || format = 0 then (1, fields)
  else (if format = 3 then 1 else 2, (if format = 1 then 2 else 1) * fields)

def reader : BitTake AvcSps := do
  let profile ← BitTake.bits 8
  BitTake.skip 8 -- constraint flags
  let level ← BitTake.bits 8
  let _ ← BitTake.ue -- id
  let (format, separate) ← chroma profile
  let _ ← BitTake.ue -- width of the frame number
  skipPictureOrder
  let _ ← BitTake.ue -- reference frames
  let _ ← BitTake.bit -- gaps allowed
  let columns ← BitTake.ue
  let rows ← BitTake.ue
  let framesOnly ← BitTake.bit
  if !framesOnly then
    let _ ← BitTake.bit -- adaptive frame and field coding
  let _ ← BitTake.bit -- direct inference
  let (left, right, top, bottom) ← cropping
  let fields := if framesOnly then 1 else 2
  let (across, down) := cropUnits format separate fields
  return {
    profile := .ofNat profile
    level := .ofNat level
    chromaFormat := format
    width := .ofNat ((columns + 1) * 16 - across * (left + right))
    height := .ofNat (fields * (rows + 1) * 16 - down * (top + bottom)) }

/-- Read a parameter set, its NAL header left off. -/
def decode (bytes : List UInt8) : Except Fault AvcSps :=
  reader.from? (Emulation.remove bytes)

end AvcSps

end LiveIngest.Codec
