/-!
# Binary64 numbers as bit patterns

Numbers travel through a session untouched: they are read from eight bytes, kept, compared and
written back. A number is therefore its bit pattern, so that equality is decidable and a NaN is
equal to itself. Only two conversions are needed, and both are exact integer arithmetic:

* `Binary64.ofUInt32` — the number that is exactly a 32-bit integer;
* `Binary64.toUInt32` — the integer part of a number, clamped to 32 bits, with zero for everything
  negative and for NaN.
-/

namespace LiveIngest

/-- An IEEE 754 binary64 value, given by its bits. -/
structure Binary64 where
  /-- Sign, 11 bits of biased exponent, 52 bits of fraction. -/
  bits : UInt64
  deriving DecidableEq, Repr, Inhabited

namespace Binary64

def zero : Binary64 := ⟨0⟩

def negative (x : Binary64) : Bool :=
  x.bits.toNat >>> 63 = 1

/-- The biased exponent, below 2048. -/
def exponent (x : Binary64) : Nat :=
  (x.bits.toNat >>> 52) % 2048

/-- The leading one, where it is not left out: 2 ^ 52. -/
def leading : Nat := 0x10000000000000

/-- The fraction, below the leading one. -/
def fraction (x : Binary64) : Nat :=
  x.bits.toNat % leading

/-- The number that equals `n`. A 32-bit integer has at most 32 significant bits, so its leading
one and the rest always fit. -/
def ofUInt32 (n : UInt32) : Binary64 :=
  if n = 0 then zero
  else
    let top := n.toNat.log2
    ⟨UInt64.ofNat ((1023 + top) * leading + (n.toNat <<< (52 - top) - leading))⟩

/-- The integer part of a non-negative number, at most `2 ^ 32 - 1`; zero for a negative number and
for NaN. -/
def toUInt32 (x : Binary64) : UInt32 :=
  if x.negative || x.exponent < 1023 then 0
  else if x.exponent = 2047 && x.fraction ≠ 0 then 0
  else if 1023 + 32 ≤ x.exponent then 0xffffffff
  else UInt32.ofNat ((leading + x.fraction) >>> (52 - (x.exponent - 1023)))

end Binary64

end LiveIngest
