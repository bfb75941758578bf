import LiveIngest.Bytes.Take
import LiveIngest.Amf.Value

/-!
# Reading AMF0 values

A decoder holds the bytes that are left and the **depth** of containers it is inside of. Values nest
at most 64 deep. The depth is lowered only where a container ends well: a decoder that goes on after
a fault still counts the containers that the fault left open.

* `Decoder.next` — the next value, when `levels` more containers may be entered;
* `decodeAll` — a whole body as a sequence of values.
-/

namespace LiveIngest.Amf

/-- How many containers may be open at once. -/
def maxDepth : Nat := 64

/-- The bytes that are left and the number of containers entered and not left. -/
structure Decoder where
  rest : List UInt8
  depth : Nat
  deriving DecidableEq, Repr

/-- A reader of values. -/
abbrev Decode := EStateM Fault Decoder

namespace Decoder

/-- A decoder at the start of a body. -/
def ofList (bytes : List UInt8) : Decoder :=
  ⟨bytes, 0⟩

/-- Run a field reader on the bytes that are left. -/
def field {α : Type} (reader : Take α) : Decode α := fun d =>
  match reader d.rest with
  | .ok a rest => .ok a { d with rest }
  | .error f rest => .error f { d with rest }

/-- Text of `n` bytes, which has to be UTF-8. -/
def text (n : Nat) : Decode String := do
  let bytes ← field (Take.bytes n)
  match String.fromUTF8? ⟨bytes.toArray⟩ with
  | some s => return s
  | none => throw .invalidText

def enter : Decode Unit :=
  modify fun d => { d with depth := d.depth + 1 }

def leave : Decode Unit :=
  modify fun d => { d with depth := d.depth - 1 }

/-- `n` values, each read by `child`; `found` holds those before them, the last one first. -/
def items (child : Decode Value) : (n : Nat) → (found : List Value) → Decode (List Value)
  | 0, found => return found.reverse
  | n + 1, found => do
    let v ← child
    items child n (v :: found)

/-- Properties up to the object end marker, their values read by `child`. A property takes at least
two bytes, so the number of bytes left bounds the number of steps. -/
def fields (child : Decode Value) :
    (steps : Nat) → (found : Keyed String Value) → Decode (Keyed String Value)
  | 0, _ => throw .shortRead
  | steps + 1, found => do
    let size ← field Take.uint16
    if size = 0 then
      let close ← field Take.uint8
      if close = Marker.objectEnd.code then return found else throw (.objectEndMissing close)
    else
      let name ← text size.toNat
      let v ← child
      fields child steps (found.put name v)

/-- The inside of a container: `body` reads it with a reader for its members, and `child` is that
reader unless no further level is allowed. -/
def inside {α : Type} (child : Option (Decode Value)) (body : Decode Value → Decode α) :
    Decode α := do
  enter
  match child with
  | none => throw .nestingTooDeep
  | some child =>
    let a ← body child
    leave
    return a

def properties (child : Option (Decode Value)) : Decode (Keyed String Value) :=
  inside child fun child => do
    let d ← get
    fields child (d.rest.length + 1) []

/-- One value whose members, if it is a container, are read by `child`. -/
def value (child : Option (Decode Value)) : Decode Value := do
  let code ← field Take.uint8
  match Marker.ofCode? code with
  | some .number => return .number (← field Take.binary64)
  | some .boolean => return .boolean ((← field Take.uint8) != 0)
  | some .string =>
    let size ← field Take.uint16
    return .string (← text size.toNat)
  | some .object => return .object (← properties child)
  | some .null => return .null
  | some .undefined => return .undefined
  | some .ecmaArray =>
    -- The announced count is advice; the end marker ends the array.
    let _ ← field Take.uint32
    return .ecmaArray (← properties child)
  | some .strictArray =>
    let count ← field Take.uint32
    return .strictArray (← inside child fun child => items child count.toNat [])
  | some .date =>
    let millis ← field Take.binary64
    let zone ← field Take.uint16
    return .date millis (Int16.ofUInt16 zone)
  | some .longString =>
    let size ← field Take.uint32
    return .longString (← text size.toNat)
  | some .objectEnd | none => throw (.unsupportedMarker code)

/-- The next value, when `levels` more containers may be entered. -/
def next : (levels : Nat) → Decode Value
  | 0 => value none
  | levels + 1 => value (some (next levels))

def decode : Decode Value := do
  let d ← get
  next (maxDepth - d.depth)

/-- Values up to the end of the body, of which each takes at least one byte. -/
def untilEnd : (steps : Nat) → (found : List Value) → Decode (List Value)
  | 0, found => return found.reverse
  | steps + 1, found => do
    let d ← get
    if d.rest.isEmpty then
      return found.reverse
    else
      let v ← decode
      untilEnd steps (v :: found)

end Decoder

/-- A whole body as a sequence of values. -/
def decodeAll (bytes : List UInt8) : Except Fault (List Value) :=
  match Decoder.untilEnd bytes.length [] (Decoder.ofList bytes) with
  | .ok values _ => .ok values
  | .error f _ => .error f

end LiveIngest.Amf
