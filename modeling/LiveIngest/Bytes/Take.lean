import LiveIngest.Fault
import LiveIngest.Binary64
import LiveIngest.Bytes.Endian

/-!
# Reading fields off the front of a byte list

A reader of type `Take α` takes a value off the front of the bytes that are left. A field that is
not there completely is a `Fault.shortRead`, and then **nothing of that field is taken**: the bytes
left after a fault are those left before the field that failed.
-/

namespace LiveIngest

/-- A reader of fields; its state is the bytes that are left. -/
abbrev Take := EStateM Fault (List UInt8)

namespace Take

/-- Exactly `n` bytes. -/
def bytes (n : Nat) : Take (List UInt8) := fun left =>
  let front := left.take n
  if front.length = n then .ok front (left.drop n) else .error .shortRead left

/-- An unsigned field of `width` bytes, most significant first. -/
def nat (width : Nat) : Take Nat := do
  return Bytes.ofBigEndian (← bytes width)

/-- A two's complement field of `width` bytes, most significant first. -/
def int (width : Nat) : Take Int := do
  return Bytes.asSigned width (← nat width)

def uint8 : Take UInt8 := do
  return UInt8.ofNat (← nat 1)

/-- Two bytes, most significant first. -/
def uint16 : Take UInt16 := do
  return UInt16.ofNat (← nat 2)

/-- Three bytes, most significant first. -/
def uint24 : Take UInt32 := do
  return UInt32.ofNat (← nat 3)

/-- Four bytes, most significant first. -/
def uint32 : Take UInt32 := do
  return UInt32.ofNat (← nat 4)

/-- Four bytes, least significant first. -/
def uint32Little : Take UInt32 := do
  return UInt32.ofNat (Bytes.ofLittleEndian (← bytes 4))

/-- Eight bytes of a binary64 number, most significant first. -/
def binary64 : Take Binary64 := do
  return ⟨UInt64.ofNat (← nat 8)⟩

/-- Pass over `n` bytes. -/
def skip (n : Nat) : Take Unit := do
  let _ ← bytes n

/-- The bytes that are left, without taking them. -/
def left : Take (List UInt8) := get

/-- Read from a whole body; bytes left over are ignored. -/
def from? {α : Type} (reader : Take α) (body : List UInt8) : Except Fault α :=
  match reader body with
  | .ok a _ => .ok a
  | .error f _ => .error f

end Take

end LiveIngest
