/-!
# Integers as bytes

Every integer on the wire is a fixed number of bytes, nearly always the most significant one first.
Two functions serve all widths:

* `bigEndian w n` — the `w` low bytes of `n`, most significant first;
* `ofBigEndian` — the number that a list of bytes spells in that order.

`littleEndian` and `ofLittleEndian` are the same in the other order, for the few fields that use it.
Signed fields are two's complement: `asSigned` and `asUnsigned` go between a field's value and its
unsigned reading.
-/

namespace LiveIngest.Bytes

/-- The `width` low bytes of `n`, most significant first. -/
def bigEndian : (width : Nat) → Nat → List UInt8
  | 0, _ => []
  | w + 1, n => UInt8.ofNat (n >>> (8 * w)) :: bigEndian w n

/-- The number that `bytes` spell, most significant first. -/
def ofBigEndian (bytes : List UInt8) : Nat :=
  bytes.foldl (fun n b => n * 256 + b.toNat) 0

/-- The `width` low bytes of `n`, least significant first. -/
def littleEndian : (width : Nat) → Nat → List UInt8
  | 0, _ => []
  | w + 1, n => UInt8.ofNat n :: littleEndian w (n / 256)

/-- The number that bytes spell, least significant first. -/
def ofLittleEndian : List UInt8 → Nat
  | [] => 0
  | b :: rest => b.toNat + 256 * ofLittleEndian rest

/-- The two's complement reading of a `width`-byte field. -/
def asSigned (width n : Nat) : Int :=
  Int.bmod n (1 <<< (8 * width))

/-- The unsigned reading of a signed field of `width` bytes. -/
def asUnsigned (width : Nat) (v : Int) : Nat :=
  (v % (1 <<< (8 * width) : Nat)).toNat

@[simp] theorem length_bigEndian (w n : Nat) : (bigEndian w n).length = w := by
  induction w with
  | zero => rfl
  | succ w ih => simp [bigEndian, ih]

@[simp] theorem length_littleEndian (w n : Nat) : (littleEndian w n).length = w := by
  induction w generalizing n with
  | zero => rfl
  | succ w ih => simp [littleEndian, ih]

end LiveIngest.Bytes
