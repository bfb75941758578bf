import LiveIngest.Codec.Units

/-!
# H.264 decoder configuration

The `avcC` record: profile and level, the size of the length in front of each NAL unit, and the
sequence and picture parameter sets. What high profiles add at the end is kept as it is.
-/

namespace LiveIngest.Codec

/-- The content of an `avcC` record. -/
structure AvcRecord where
  version : UInt8
  profile : UInt8
  compatibility : UInt8
  level : UInt8
  lengthSizeMinusOne : UInt8
  sps : List (List UInt8)
  pps : List (List UInt8)
  /-- Chroma format, bit depths and further parameter sets of high profiles. -/
  extension : List UInt8
  deriving DecidableEq, Repr

namespace AvcRecord

/-- The record of a stream that announced none. -/
def empty : AvcRecord where
  version := 1
  profile := 0
  compatibility := 0
  level := 0
  lengthSizeMinusOne := 3
  sps := []
  pps := []
  extension := []

def parseSets (version profile compatibility level lengthByte spsByte : UInt8)
    (bytes : List UInt8) : Except Fault AvcRecord := do
  let (sps, rest) ← readUnits .avcC .sps (spsByte &&& 0x1f).toNat bytes
  match rest with
  | [] => throw .ppsCountMissing
  | ppsCount :: rest =>
    let (pps, extension) ← readUnits .avcC .pps ppsCount.toNat rest
    return { version, profile, compatibility, level,
             lengthSizeMinusOne := lengthByte &&& 0x03, sps, pps, extension }

def parse (bytes : List UInt8) : Except Fault AvcRecord :=
  match bytes with
  | version :: profile :: compatibility :: level :: lengthByte :: spsByte :: next :: rest =>
    if version ≠ 1 then .error (.recordVersion .avcC version)
    else parseSets version profile compatibility level lengthByte spsByte (next :: rest)
  | _ => .error (.recordTooShort .avcC)

/-- The bytes of a record; counts are cut to the width of their fields. -/
def serialize (r : AvcRecord) : List UInt8 :=
  [r.version, r.profile, r.compatibility, r.level, 0xfc ||| r.lengthSizeMinusOne,
    0xe0 ||| (UInt8.ofNat r.sps.length &&& 0x1f)] ++
    writeUnits r.sps ++ UInt8.ofNat r.pps.length :: writeUnits r.pps ++ r.extension

def size (r : AvcRecord) : Nat :=
  7 + unitsSize r.sps + unitsSize r.pps + r.extension.length

end AvcRecord

end LiveIngest.Codec
