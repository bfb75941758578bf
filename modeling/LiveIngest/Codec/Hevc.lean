import LiveIngest.Codec.Units

/-!
# H.265 decoder configuration

The `hvcC` record: 22 bytes of profile, level and format fields, kept as they were sent, and arrays
of NAL units, one for each type.
-/

namespace LiveIngest.Codec

/-- The parameter sets of one type. -/
structure HevcArray where
  isComplete : Bool
  type : UInt8
  units : List (List UInt8)
  deriving DecidableEq, Repr

/-- The content of an `hvcC` record. -/
structure HevcRecord where
  /-- The fixed part, of 22 bytes. -/
  fixed : List UInt8
  arrays : List HevcArray
  deriving DecidableEq, Repr

namespace HevcRecord

/-- The number of bytes in front of the arrays' count. -/
def fixedSize : Nat := 22

/-- The record of a stream that announced none. -/
def empty : HevcRecord where
  fixed := [1, 0, 0, 0, 0, 0, 0, 0, 0, 0, 0, 0, 0, 0xf0, 0, 0xfc, 0xfd, 0xf8, 0xf8, 0, 0, 0x0f]
  arrays := []

/-- Read `n` arrays; what follows them is not used. -/
def parseArrays : (n : Nat) → List UInt8 → Except Fault (List HevcArray)
  | 0, _ => .ok []
  | n + 1, head :: high :: low :: rest => do
    let (units, rest) ← readUnits .hvcC .nal (Bytes.ofBigEndian [high, low]) rest
    let arrays ← parseArrays n rest
    return { isComplete := head &&& 0x80 != 0, type := head &&& 0x3f, units } :: arrays
  | _ + 1, _ => .error .arrayHeaderCut

def parse (bytes : List UInt8) : Except Fault HevcRecord :=
  match bytes.drop fixedSize with
  | count :: rest =>
    let version := bytes.headD 0
    if version ≠ 1 then .error (.recordVersion .hvcC version)
    else (parseArrays count.toNat rest).map fun arrays => ⟨bytes.take fixedSize, arrays⟩
  | [] => .error (.recordTooShort .hvcC)

/-- The bytes of an array; counts are cut to the width of their fields. -/
def writeArray (a : HevcArray) : List UInt8 :=
  ((a.isComplete.toUInt8 <<< 7) ||| (a.type &&& 0x3f)) ::
    (Bytes.bigEndian 2 a.units.length ++ writeUnits a.units)

def serialize (r : HevcRecord) : List UInt8 :=
  r.fixed ++ UInt8.ofNat r.arrays.length :: r.arrays.flatMap writeArray

def size (r : HevcRecord) : Nat :=
  fixedSize + 1 + r.arrays.foldr (fun a size => 3 + unitsSize a.units + size) 0

def profile (r : HevcRecord) : UInt8 :=
  r.fixed.getD 1 0 &&& 0x1f

def level (r : HevcRecord) : UInt8 :=
  r.fixed.getD 12 0

/-- One less than the size of the length in front of each NAL unit. -/
def lengthSizeMinusOne (r : HevcRecord) : UInt8 :=
  r.fixed.getD 21 0 &&& 0x03

/-- Change the size of the length in front of each NAL unit; two bits are used. -/
def setLengthSizeMinusOne (r : HevcRecord) (n : UInt8) : HevcRecord :=
  { r with fixed := r.fixed.set 21 ((r.fixed.getD 21 0 &&& 0xfc) ||| (n &&& 0x03)) }

/-- All units of a type, in order. -/
def unitsOfType (r : HevcRecord) (type : UInt8) : List (List UInt8) :=
  (r.arrays.filter (·.type = type)).flatMap (·.units)

/-- Put a unit into the first array of its type, or behind all arrays into one of its own. -/
def pushInto (type : UInt8) (unit : List UInt8) : List HevcArray → List HevcArray
  | [] => [{ isComplete := true, type, units := [unit] }]
  | a :: rest =>
    if a.type = type then { a with units := a.units ++ [unit] } :: rest
    else a :: pushInto type unit rest

def push (r : HevcRecord) (type : UInt8) (unit : List UInt8) : HevcRecord :=
  { r with arrays := pushInto type unit r.arrays }

end HevcRecord

end LiveIngest.Codec
