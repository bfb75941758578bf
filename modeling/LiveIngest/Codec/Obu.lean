import LiveIngest.Bits.Leb128

/-!
# Open bitstream units

AV1 streams are sequences of units (OBUs). A unit has a header of one or two bytes, which may be
followed by its size; without a size it reaches to the end of the data. `Obu.parse?` reads the
layout of the unit at the start of some bytes, and says nothing on whether all of its bytes are
there.
-/

namespace LiveIngest.Codec

/-- The layout of a unit. -/
structure Obu where
  type : UInt8
  hasExtension : Bool
  headerSize : Nat
  payloadSize : Nat
  deriving DecidableEq, Repr

namespace Obu

def sequenceHeader : UInt8 := 1

/-- The type of a temporal delimiter, which receivers put in themselves. -/
def temporalDelimiter : UInt8 := 2

def size (o : Obu) : Nat :=
  o.headerSize + o.payloadSize

/-- The layout of the unit that `bytes` open with. -/
def parse? (bytes : List UInt8) : Option Obu :=
  match bytes with
  | [] => none
  | first :: _ =>
    if first &&& 0x80 != 0 then none
    else
      let type := (first >>> 3) &&& 0x0f
      let hasExtension := first &&& 0x04 != 0
      let headerSize := if hasExtension then 2 else 1
      let body := bytes.drop headerSize
      if bytes.length < headerSize then none
      else if first &&& 0x02 != 0 then
        (Leb128.read? body).map fun (payloadSize, n) =>
          { type, hasExtension, headerSize := headerSize + n, payloadSize }
      else some { type, hasExtension, headerSize, payloadSize := body.length }

/-- A layout takes at least the header byte. -/
theorem size_pos {bytes : List UInt8} {o : Obu} (h : parse? bytes = some o) : 0 < o.size := by
  unfold parse? at h
  split at h
  · simp at h
  · rename_i first rest
    dsimp only at h
    -- the header itself is one byte or two
    have hn : 0 < if (first &&& 0x04 != 0) = true then 2 else 1 := by split <;> omega
    generalize (if (first &&& 0x04 != 0) = true then 2 else 1) = n at h hn
    split at h
    · simp at h
    · split at h
      · simp at h
      · split at h
        · obtain ⟨⟨payload, m⟩, -, rfl⟩ := Option.map_eq_some_iff.1 h
          simp only [size]
          omega
        · obtain rfl := Option.some.inj h
          simp only [size]
          omega

/-- The payload of the unit that `bytes` open with, if all of it is there. -/
def payload? (o : Obu) (bytes : List UInt8) : Option (List UInt8) :=
  if o.size ≤ bytes.length then some ((bytes.take o.size).drop o.headerSize) else none

/-- The first sequence header among units, with its own header. A unit that is malformed or cut ends
the search. -/
def findSequenceHeader? (bytes : List UInt8) : Option (List UInt8) :=
  match _h : parse? bytes with
  | none => none
  | some o =>
    if bytes.length < o.size then none
    else if o.type = sequenceHeader then some (bytes.take o.size)
    else findSequenceHeader? (bytes.drop o.size)
termination_by bytes.length
decreasing_by
  have := size_pos _h
  simp only [List.length_drop]
  omega

end Obu

end LiveIngest.Codec
