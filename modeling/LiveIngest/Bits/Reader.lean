import LiveIngest.Fault
import LiveIngest.Bits.Basic

/-!
# Reading bit fields

Parameter sets and sequence headers are bit strings with fixed-width fields and two kinds of
variable-length codes. A `BitTake` takes fields off the front of the bits that are left and counts
what it took.

* `BitTake.bits` — a field of at most 32 bits;
* `BitTake.ue`, `BitTake.se` — unsigned and signed Exp-Golomb codes of at most 31 leading zeros;
* `BitTake.uvlc` — the same code without a limit, where 32 or more leading zeros stand for the
  largest 32-bit number and carry no further bits.

Bits taken before a fault **stay taken**, with one exception: `BitTake.skip` passes over all of its
bits or none.
-/

namespace LiveIngest

/-- The bits that are left, and how many were taken before them. -/
structure BitCursor where
  rest : List Bool
  position : Nat
  deriving DecidableEq, Repr

namespace BitCursor

def ofBytes (bytes : List UInt8) : BitCursor :=
  ⟨Bits.ofBytes bytes, 0⟩

/-- The cursor after `n` more bits. -/
def advance (c : BitCursor) (n : Nat) : BitCursor :=
  ⟨c.rest.drop n, c.position + n⟩

end BitCursor

/-- A reader of bit fields. -/
abbrev BitTake := EStateM Fault BitCursor

namespace BitTake

def bit : BitTake Bool := fun c =>
  match c.rest with
  | [] => .error .bitsPastEnd c
  | b :: rest => .ok b ⟨rest, c.position + 1⟩

/-- Read `n` more bits into a number of which `high` was already read. -/
def bitsInto : (n : Nat) → (high : Nat) → BitTake Nat
  | 0, high => pure high
  | n + 1, high => do
    let b ← bit
    bitsInto n (2 * high + b.toNat)

/-- A field of `n` bits; wider fields than 32 bits do not occur and are refused. -/
def bits (n : Nat) : BitTake Nat :=
  if n > 32 then throw .bitFieldTooWide else bitsInto n 0

/-- Pass over `n` bits, or over none when fewer are left. -/
def skip (n : Nat) : BitTake Unit := fun c =>
  if c.rest.length < n then .error .skipPastEnd c else .ok () (c.advance n)

/-- The number of zeros before the next one; the one is taken as well. -/
def leadingZeros : BitTake Nat := fun c =>
  let zeros := (c.rest.takeWhile (!·)).length
  match c.rest.drop zeros with
  | [] => .error .bitsPastEnd (c.advance zeros)
  | _ :: _ => .ok zeros (c.advance (zeros + 1))

/-- An unsigned Exp-Golomb code: `z` zeros, a one and `z` more bits. -/
def ue : BitTake Nat := do
  let c ← get
  let front := c.rest.take 32
  if front.length = 32 && front.all (!·) then
    set (c.advance 32)
    throw .golombTooLong
  else
    let zeros ← leadingZeros
    let low ← bits zeros
    return 1 <<< zeros - 1 + low

/-- A signed Exp-Golomb code: 0, 1, -1, 2, -2 and so on. -/
def se : BitTake Int := do
  let k ← ue
  return if k % 2 = 1 then ((k + 1) / 2 : Nat) else -((k / 2 : Nat) : Int)

/-- The unlimited code of AV1. -/
def uvlc : BitTake Nat := do
  let zeros ← leadingZeros
  if zeros ≥ 32 then
    return 0xffffffff
  else
    let low ← bits zeros
    return 1 <<< zeros - 1 + low

/-- The value of a reader, or `fallback` when it fails. -/
def orElse {α : Type} (reader : BitTake α) (fallback : α) : BitTake α := fun c =>
  match reader c with
  | .ok a c => .ok a c
  | .error _ c => .ok fallback c

/-- Read from a whole byte string; bits left over are ignored. -/
def from? {α : Type} (reader : BitTake α) (bytes : List UInt8) : Except Fault α :=
  match reader (BitCursor.ofBytes bytes) with
  | .ok a _ => .ok a
  | .error f _ => .error f

end BitTake

end LiveIngest
