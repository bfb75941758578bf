import LiveIngest.Binary64
import LiveIngest.Keyed

/-!
# AMF0 values

Commands and metadata carry sequences of dynamic values. Objects and ECMA arrays are maps from names
to values; they are kept as entries in ascending name order (`Keyed`), so that a value has one
written form. Short and long strings are different kinds although both are text.
-/

namespace LiveIngest.Amf

/-- An AMF0 value. -/
inductive Value where
  | number (n : Binary64)
  | boolean (b : Bool)
  | string (s : String)
  | object (fields : List (String × Value))
  | null
  | undefined
  | ecmaArray (fields : List (String × Value))
  | strictArray (items : List Value)
  /-- Milliseconds since 1970 and a time zone, which no reader interprets. -/
  | date (millis : Binary64) (zone : Int16)
  | longString (s : String)
  deriving Inhabited

namespace Value

/-- An object from its entries; of two entries with one name the later one stays. -/
def ofFields (fields : List (String × Value)) : Value :=
  .object (Keyed.ofList fields)

def number? : Value → Option Binary64
  | number n => some n
  | _ => none

def text? : Value → Option String
  | string s => some s
  | longString s => some s
  | _ => none

def boolean? : Value → Option Bool
  | boolean b => some b
  | _ => none

/-- The entries of an object or an ECMA array. -/
def fields? : Value → Option (Keyed String Value)
  | object fields => some fields
  | ecmaArray fields => some fields
  | _ => none

def property? (v : Value) (name : String) : Option Value :=
  v.fields?.bind (·.get? name)

/-- True for the two kinds that stand for no value. -/
def isNull : Value → Bool
  | null | undefined => true
  | _ => false

end Value

/-- The byte that opens a value of each kind on the wire. -/
inductive Marker
  | number
  | boolean
  | string
  | object
  | null
  | undefined
  | ecmaArray
  | objectEnd
  | strictArray
  | date
  | longString
  deriving DecidableEq, Repr

namespace Marker

def code : Marker → UInt8
  | number => 0x00
  | boolean => 0x01
  | string => 0x02
  | object => 0x03
  | null => 0x05
  | undefined => 0x06
  | ecmaArray => 0x08
  | objectEnd => 0x09
  | strictArray => 0x0a
  | date => 0x0b
  | longString => 0x0c

/-- The marker of a byte; movie clips, references, XML and the rest are not supported. -/
def ofCode? : UInt8 → Option Marker
  | 0x00 => some number
  | 0x01 => some boolean
  | 0x02 => some string
  | 0x03 => some object
  | 0x05 => some null
  | 0x06 => some undefined
  | 0x08 => some ecmaArray
  | 0x09 => some objectEnd
  | 0x0a => some strictArray
  | 0x0b => some date
  | 0x0c => some longString
  | _ => none

@[simp] theorem ofCode?_code (m : Marker) : ofCode? m.code = some m := by
  cases m <;> rfl

end Marker

end LiveIngest.Amf
