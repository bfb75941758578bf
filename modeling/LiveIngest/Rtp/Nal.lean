import LiveIngest.Bytes.Endian
import LiveIngest.Codec.Avc
import LiveIngest.Codec.AvcSps
import LiveIngest.Codec.Hevc
import LiveIngest.Codec.HevcSps
import LiveIngest.Rtp.Video

/-!
# Packetizing NAL units

H.264 and H.265 frames are NAL units, each behind a length of one to four bytes. An intra frame is
sent with the parameter sets in front. A unit that fits the payload limit is one entry; a larger one
is cut into **fragments**. A fragment leaves out the unit's own header and leads with a
fragmentation header, from which the receiver can restore it; the first and the last fragment are
marked.

The two codecs differ in their records and headers: `NalScheme`.
-/

namespace LiveIngest.Rtp

open Codec

/-- Cut a frame into its units, each behind a length of `sizeMinusOne + 1` bytes. A unit that is not
there completely ends the frame, and so does a length with nothing behind it. -/
def splitUnits (sizeMinusOne : Nat) (bytes : List UInt8) : List (List UInt8) :=
  if sizeMinusOne + 1 < bytes.length then
    let size := Bytes.ofBigEndian (bytes.take (sizeMinusOne + 1))
    let rest := bytes.drop (sizeMinusOne + 1)
    if rest.length < size then []
    else rest.take size :: splitUnits sizeMinusOne (rest.drop size)
  else []
termination_by bytes.length
decreasing_by
  simp only [List.length_drop]
  omega

/-- What a fragment leads with: the bytes in front of the last one, and the unit's type, which the
last byte holds together with the marks. -/
structure FragmentHeader where
  front : List UInt8
  type : UInt8
  deriving DecidableEq, Repr

namespace FragmentHeader

/-- The header of a fragment that is or is not the first or the last one. -/
def bytes (h : FragmentHeader) (isFirst isLast : Bool) : List UInt8 :=
  h.front ++ [h.type ||| (if isFirst then 0x80 else 0) ||| (if isLast then 0x40 else 0)]

end FragmentHeader

/-- Fragments of at most `size` media bytes for `remaining` bytes from `offset` on. -/
def fragments (h : FragmentHeader) (size : Nat) (isFirst : Bool) (offset remaining : Nat) :
    List Entry :=
  if _h : remaining = 0 then []
  else
    let length := min remaining (max size 1)
    ⟨offset, length, h.bytes isFirst (length = remaining)⟩ ::
      fragments h size false (offset + length) (remaining - length)
termination_by remaining
decreasing_by omega

/-- What the two codecs differ in. -/
structure NalScheme (ρ : Type) where
  format : VideoFormat
  empty : ρ
  /-- The size of a unit's header, which fragments leave out. -/
  headerSize : Nat
  parse : List UInt8 → Except Fault ρ
  serialize : ρ → List UInt8
  lengthSizeMinusOne : ρ → Nat
  /-- The parameter sets in the order they are sent. -/
  parameterSets : ρ → List (List UInt8)
  /-- The picture size, from the last sequence parameter set that can be read. -/
  dimensions : ρ → Option (Nat × Nat)
  fragmentHeader : List UInt8 → FragmentHeader
  /-- True for units that only fill up the bit rate. -/
  isFiller : List UInt8 → Bool

namespace NalScheme

variable {ρ : Type}

/-- The entries of a unit whose first byte is at `offset`. -/
def unitEntries (s : NalScheme ρ) (limit offset : Nat) (unit : List UInt8) : List Entry :=
  if limit < unit.length ∧ s.headerSize < unit.length then
    let h := s.fragmentHeader unit
    -- The lead counts towards the limit: the front and the byte with the marks.
    fragments h (limit - (h.front.length + 1)) true (offset + s.headerSize)
      (unit.length - s.headerSize)
  else [⟨offset, unit.length, []⟩]

def addUnit (s : NalScheme ρ) (sizeMinusOne limit : Nat) (b : Body) (unit : List UInt8) : Body :=
  let b := b.append (Bytes.bigEndian (sizeMinusOne + 1) unit.length)
  (b.append unit).addEntries (s.unitEntries limit b.media.length unit)

/-- Add a parameter set with its length; it is never cut. -/
def addParameterSet (sizeMinusOne : Nat) (b : Body) (unit : List UInt8) : Body :=
  let b := b.append (Bytes.bigEndian (sizeMinusOne + 1) unit.length)
  (b.append unit).addEntries [⟨b.media.length, unit.length, []⟩]

def packetize (s : NalScheme ρ) (record : ρ) (limit : Nat) (tag : VideoTag) : VideoOutput :=
  let sizeMinusOne := s.lengthSizeMinusOne record
  let sets := if tag.isKeyFrame then s.parameterSets record else []
  let units := (splitUnits sizeMinusOne tag.media).filter fun unit => !s.isFiller unit
  let size := if tag.isKeyFrame then (s.dimensions record).getD (0, 0) else (0, 0)
  { VideoOutput.empty s.format with
    isIntra := tag.isKeyFrame
    width := size.1
    height := size.2
    timestamp := tag.timestamp.toNat
    millis := tag.timestamp.toNat
    codecConfig := s.serialize record
    body := units.foldl (s.addUnit sizeMinusOne limit)
      (sets.foldl (addParameterSet sizeMinusOne) .empty) }

/-- The codec as a video scheme; every coded frame has an output frame. -/
def toVideoScheme (s : NalScheme ρ) : VideoScheme ρ where
  format := s.format
  empty := s.empty
  parse := s.parse
  packetize record limit tag := some (s.packetize record limit tag)

/-- The fragmentation header of an H.264 unit: type 28 under the unit's own importance. -/
def h264FragmentHeader (unit : List UInt8) : FragmentHeader :=
  let header := unit.headD 0
  ⟨[(header &&& 0xe0) ||| 28], header &&& 0x1f⟩

/-- The fragmentation header of an H.265 unit: type 49 with the unit's own layer and temporal id. -/
def h265FragmentHeader (unit : List UInt8) : FragmentHeader :=
  let header :=
    match unit with
    | high :: low :: _ => Bytes.ofBigEndian [high, low]
    | _ => 0
  ⟨Bytes.bigEndian 2 (49 * 512 + header / 8 % 64 * 8 + header % 8), .ofNat (header / 512 % 64)⟩

/-- The picture size of the last unit that can be read, without its header of `headerSize` bytes. -/
def lastDimensions (headerSize : Nat) (decode : List UInt8 → Option (Nat × Nat))
    (units : List (List UInt8)) : Option (Nat × Nat) :=
  (units.filterMap fun unit =>
    if unit.length < headerSize then none else decode (unit.drop headerSize)).getLast?

/-- H.264. -/
def h264 : NalScheme AvcRecord where
  format := .h264
  empty := .empty
  headerSize := 1
  parse := AvcRecord.parse
  serialize := AvcRecord.serialize
  lengthSizeMinusOne r := r.lengthSizeMinusOne.toNat
  parameterSets r := r.sps ++ r.pps
  dimensions r := lastDimensions 1
    (fun bytes => (AvcSps.decode bytes).toOption.map fun s => (s.width.toNat, s.height.toNat)) r.sps
  fragmentHeader := h264FragmentHeader
  isFiller unit := !unit.isEmpty && unit.headD 0 &&& 0x1f == 12

/-- H.265: parameter sets are of the types 32, 33 and 34, of which 33 describes the picture. -/
def h265 : NalScheme HevcRecord where
  format := .h265
  empty := .empty
  headerSize := 2
  parse := HevcRecord.parse
  serialize := HevcRecord.serialize
  lengthSizeMinusOne r := r.lengthSizeMinusOne.toNat
  parameterSets r := r.unitsOfType 32 ++ r.unitsOfType 33 ++ r.unitsOfType 34
  dimensions r := lastDimensions 2
    (fun bytes => (HevcSps.decode bytes).toOption.map fun s => (s.width.toNat, s.height.toNat))
    (r.unitsOfType 33)
  fragmentHeader := h265FragmentHeader
  isFiller _ := false

end NalScheme

end LiveIngest.Rtp
