import LiveIngest.Bytes.Take

/-!
# Byte buffers

A growing list of bytes with a read position. Writes append at the end; a read that succeeds moves
the position past what it took, and a read that fails leaves the position alone.
-/

namespace LiveIngest

/-- Bytes written so far and how many of them were read. -/
structure Buffer where
  data : List UInt8
  position : Nat
  deriving DecidableEq, Repr

namespace Buffer

def ofList (data : List UInt8) : Buffer :=
  ⟨data, 0⟩

def rest (b : Buffer) : List UInt8 :=
  b.data.drop b.position

def remaining (b : Buffer) : Nat :=
  b.data.length - b.position

def write (b : Buffer) (bytes : List UInt8) : Buffer :=
  { b with data := b.data ++ bytes }

/-- Run a reader on the unread part and move past what it took. -/
def read {α : Type} (b : Buffer) (reader : Take α) : Except Fault α × Buffer :=
  match reader b.rest with
  | .ok a left => (.ok a, { b with position := b.position + (b.remaining - left.length) })
  | .error f left => (.error f, { b with position := b.position + (b.remaining - left.length) })

/-- The bytes of a 24-bit signed field; a value outside its range is clamped. -/
def signed24 (v : Int) : List UInt8 :=
  Bytes.bigEndian 3 (Bytes.asUnsigned 3 (max (-0x800000) (min v 0x7fffff)))

end Buffer

end LiveIngest
