import LiveIngest.Fault
import LiveIngest.Bytes.Endian

/-!
# Length-prefixed units

Configuration records store parameter sets as units behind a two-byte length. Reading a unit fails
in one of two ways, which the reports tell apart: the length is cut, or the unit behind it is.
-/

namespace LiveIngest.Codec

def readUnit (record : ConfigRecord) (kind : RecordUnit) :
    List UInt8 → Except Fault (List UInt8 × List UInt8)
  | high :: low :: rest =>
    let size := Bytes.ofBigEndian [high, low]
    let unit := rest.take size
    if unit.length < size then .error (.unitDataCut record kind)
    else .ok (unit, rest.drop size)
  | _ => .error (.unitLengthCut record kind)

/-- Read `n` units. Returns them and what follows. -/
def readUnits (record : ConfigRecord) (kind : RecordUnit) :
    (n : Nat) → List UInt8 → Except Fault (List (List UInt8) × List UInt8)
  | 0, bytes => .ok ([], bytes)
  | n + 1, bytes => do
    let (unit, rest) ← readUnit record kind bytes
    let (units, rest) ← readUnits record kind n rest
    return (unit :: units, rest)

/-- The bytes of a unit; a length beyond 16 bits is cut to them. -/
def writeUnit (unit : List UInt8) : List UInt8 :=
  Bytes.bigEndian 2 unit.length ++ unit

def writeUnits (units : List (List UInt8)) : List UInt8 :=
  units.flatMap writeUnit

def unitsSize (units : List (List UInt8)) : Nat :=
  units.foldr (fun unit size => 2 + unit.length + size) 0

end LiveIngest.Codec
