/-!
# LEB128 numbers

A number is cut into groups of seven bits, the lowest group first; every byte but the last has its
top bit set. Readers accept at most **eight** bytes, so numbers from 2 ^ 56 on can be written and
not read back.
-/

namespace LiveIngest.Leb128

/-- Read a number that ends within the given bytes, and count its bytes. -/
def readAll? : List UInt8 → Option (Nat × Nat)
  | [] => none
  | b :: rest =>
    if b.toNat < 128 then some (b.toNat, 1)
    else (readAll? rest).map fun (high, n) => (b.toNat % 128 + 128 * high, n + 1)

/-- Read a number of at most eight bytes off the front, and count its bytes. -/
def read? (bytes : List UInt8) : Option (Nat × Nat) :=
  readAll? (bytes.take 8)

def write (n : Nat) : List UInt8 :=
  if n < 128 then [UInt8.ofNat n]
  else UInt8.ofNat (n % 128 + 128) :: write (n / 128)
termination_by n
decreasing_by omega

end LiveIngest.Leb128
