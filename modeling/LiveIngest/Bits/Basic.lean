/-!
# Bit strings

A bit string is a list of booleans, the most significant bit of each field and of each byte first.
Writers of bit fields are plain concatenations of `Bits.field`s; `Bits.pack` turns the result into
bytes, padding the last one with zeros, and `Bits.ofBytes` spells bytes out as bits.
-/

namespace LiveIngest.Bits

/-- The `width` low bits of `n`, most significant first. -/
def field : (width : Nat) → Nat → List Bool
  | 0, _ => []
  | w + 1, n => n.testBit w :: field w n

/-- A one-bit field. -/
def flag (b : Bool) : List Bool := [b]

/-- The number that bits spell, most significant first. -/
def value (bits : List Bool) : Nat :=
  bits.foldl (fun n b => 2 * n + b.toNat) 0

/-- The bits of bytes, in order. -/
def ofBytes (bytes : List UInt8) : List Bool :=
  bytes.flatMap (fun b => field 8 b.toNat)

/-- The bytes that hold `bits`, the last one filled up with zeros. -/
def pack (bits : List Bool) : List UInt8 :=
  match bits with
  | [] => []
  | b :: rest =>
    let octet := (b :: rest).take 8
    let padding := List.replicate (8 - octet.length) false
    UInt8.ofNat (value (octet ++ padding)) :: pack ((b :: rest).drop 8)
termination_by bits.length
decreasing_by
  simp only [List.length_drop, List.length_cons]
  omega

@[simp] theorem length_field (w n : Nat) : (field w n).length = w := by
  induction w with
  | zero => rfl
  | succ w ih => simp [field, ih]

@[simp] theorem pack_nil : pack [] = [] := by
  rw [pack]

end LiveIngest.Bits
