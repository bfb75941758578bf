import LiveIngest.Fault
import LiveIngest.Bytes.Endian
import LiveIngest.Amf.Value

/-!
# Writing AMF0 values

Each value is its marker and its content. Properties are written in the order of the entries and
closed by an empty name and the object end marker. Text of more than 65535 bytes does not fit a
short string and is written as a long one; a property name of that length cannot be written at all.
-/

namespace LiveIngest.Amf

def utf8 (s : String) : List UInt8 :=
  s.toByteArray.data.toList

def encodeName (s : String) : Except Fault (List UInt8) :=
  let bytes := utf8 s
  let size := bytes.length
  if size > 65535 then .error (.propertyNameTooLong size)
  else .ok (Bytes.bigEndian 2 size ++ bytes)

def encodeLongText (s : String) : Except Fault (List UInt8) :=
  let bytes := utf8 s
  let size := bytes.length
  if size > 0xffffffff then .error .textTooLong
  else .ok (Marker.longString.code :: Bytes.bigEndian 4 size ++ bytes)

def propertiesEnd : List UInt8 :=
  [0, 0, Marker.objectEnd.code]

mutual
def encode : Value → Except Fault (List UInt8)
  | .number n => .ok (Marker.number.code :: Bytes.bigEndian 8 n.bits.toNat)
  | .boolean b => .ok [Marker.boolean.code, if b then 1 else 0]
  | .string s =>
    if (utf8 s).length > 65535 then encodeLongText s
    else (encodeName s).map (Marker.string.code :: ·)
  | .object fields => do
    let body ← encodeFields fields
    return Marker.object.code :: body
  | .null => .ok [Marker.null.code]
  | .undefined => .ok [Marker.undefined.code]
  | .ecmaArray fields => do
    let body ← encodeFields fields
    return Marker.ecmaArray.code :: (Bytes.bigEndian 4 fields.length ++ body)
  | .strictArray items => do
    let body ← encodeAll items
    return Marker.strictArray.code :: (Bytes.bigEndian 4 items.length ++ body)
  | .date millis zone =>
    .ok (Marker.date.code ::
      (Bytes.bigEndian 8 millis.bits.toNat ++ Bytes.bigEndian 2 zone.toUInt16.toNat))
  | .longString s => encodeLongText s

def encodeAll : List Value → Except Fault (List UInt8)
  | [] => .ok []
  | v :: rest => do
    let front ← encode v
    let back ← encodeAll rest
    return front ++ back

/-- The bytes of properties and what closes them. -/
def encodeFields : List (String × Value) → Except Fault (List UInt8)
  | [] => .ok propertiesEnd
  | (name, v) :: rest => do
    let label ← encodeName name
    let front ← encode v
    let back ← encodeFields rest
    return label ++ (front ++ back)
end

end LiveIngest.Amf
