import LiveIngest.Proofs.Bits.Bounds
import LiveIngest.Proofs.Bits.Emulation

/-!
# The bit reader as registers

A `BitCursor` is the list of the bits that are left, and its readers give numbers of any size. A
program keeps **registers** instead, the bytes and how many bytes and bits of them it has read, and
its numbers are machine integers: the result of an operation may be out of the range of its type. A
run on registers (`BitMachine`) ends there with `Halt.overflow`. Shifts that lose bits count as
overflows as well. Positions are numbers; what is worked out from them is checked.

The registers are those of a cursor as `Shows` says. A run on them comes to the same as a reader
(`Follows`) unless an operation overflows. Which operations can do so is part of the statement:
`Follows` names the signed sums of 32 bits that are worked out on the way, all of which have to be
in range.

Main statements: `copies_bits`, `copies_skip`, `copies_ue`, `copies_se` — no operation of these
readers overflows, whatever the bits, `copies_uvlc` — nor does the reader of codes without a limit,
unless it counts 2 ^ 32 zeros, and `Emulation.removeCounting_cases` — the count of zeros does so
only in a row of as many zeros.
-/

namespace LiveIngest

/-- How a run on a machine ends without a result. -/
inductive Halt
  | fault (f : Fault)
  /-- The result of an operation is out of the range of its type. -/
  | overflow
  /-- There is no byte at a position. -/
  | outOfBounds
  deriving DecidableEq, Repr

/-- Bytes, and how many of them and of the bits of the next one were read. -/
structure BitRegisters where
  data : List UInt8
  bytePosition : Nat
  bitPosition : Nat

/-- A run on registers. -/
abbrev BitMachine := EStateM Halt BitRegisters

/-- The range of signed integers of 32 bits. -/
def IsInt32 (v : Int) : Prop := -2 ^ 31 ≤ v ∧ v < 2 ^ 31

instance (v : Int) : Decidable (IsInt32 v) :=
  inferInstanceAs (Decidable (_ ∧ _))

namespace BitMachine

/-! ### Machine integers -/

/-- The result of an operation on unsigned integers of `w` bits. -/
def unsigned (w n : Nat) : BitMachine Nat :=
  if n < 2 ^ w then pure n else throw .overflow

/-- A difference of unsigned integers. -/
def minus (a b : Nat) : BitMachine Nat :=
  if b ≤ a then pure (a - b) else throw .overflow

/-- The result of an operation on signed integers of 32 bits. -/
def int32 (v : Int) : BitMachine Int :=
  if IsInt32 v then pure v else throw .overflow

/-- The result of an operation on signed integers of 64 bits. -/
def int64 (v : Int) : BitMachine Int :=
  if -2 ^ 63 ≤ v ∧ v < 2 ^ 63 then pure v else throw .overflow

/-! ### Readers -/

def bit : BitMachine Bool := do
  let r ← get
  match r.data[r.bytePosition]? with
  | none => throw (.fault .bitsPastEnd)
  | some byte =>
    let shift ← minus 7 r.bitPosition
    let bitPosition ← unsigned 8 (r.bitPosition + 1)
    if bitPosition = 8 then set { r with bytePosition := r.bytePosition + 1, bitPosition := 0 }
    else set { r with bitPosition }
    return byte.toNat.testBit shift

/-- Read `n` more bits behind `high`, into 64 bits. -/
def bitsInto : (n : Nat) → (high : Nat) → BitMachine Nat
  | 0, high => pure high
  | n + 1, high => do
    let b ← bit
    let high ← unsigned 64 (2 * high + b.toNat)
    bitsInto n high

/-- A field of `n` bits, cut to 32 bits. -/
def bits (n : Nat) : BitMachine Nat :=
  if n > 32 then throw (.fault .bitFieldTooWide)
  else do return (← bitsInto n 0) % 2 ^ 32

def skip (n : Nat) : BitMachine Unit := do
  let r ← get
  let total ← unsigned 64 (r.data.length * 8)
  let position ← unsigned 64 (r.bytePosition * 8)
  let position ← unsigned 64 (position + r.bitPosition)
  if total - position < n then throw (.fault .skipPastEnd)
  let position ← unsigned 64 (position + n)
  set { r with bytePosition := position / 8, bitPosition := position % 8 }

/-- The zeros before the next one, of which `zeros` were counted. -/
def countZeros (zeros : Nat) : BitMachine Nat := do
  if ← bit then return zeros
  let _ ← unsigned 32 (zeros + 1)
  if _h : 31 < zeros + 1 then throw (.fault .golombTooLong)
  else countZeros (zeros + 1)
termination_by 32 - zeros

def ue : BitMachine Nat := do
  let zeros ← countZeros 0
  if zeros = 0 then return 0
  let low ← bits zeros
  let power ← unsigned 64 (1 <<< zeros)
  let front ← minus power 1
  let code ← unsigned 64 (front + low)
  return code % 2 ^ 32

def se : BitMachine Int := do
  let k ← ue
  if k % 2 = 1 then
    let next ← int64 (k + 1)
    return Int.bmod (next.tdiv 2) (2 ^ 32)
  else
    let value ← int64 (-(k : Int).tdiv 2)
    return Int.bmod value (2 ^ 32)

/-- The zeros before the next one, of which `zeros` were counted, without a limit on them. Each turn
takes a bit. -/
def countAll : (turns : Nat) → (zeros : Nat) → BitMachine Nat
  | 0, _ => throw (.fault .bitsPastEnd)
  | turns + 1, zeros => do
    if ← bit then return zeros
    let zeros ← unsigned 32 (zeros + 1)
    countAll turns zeros

def uvlc : BitMachine Nat := do
  let r ← get
  -- a turn for each bit that there can be, and one to find that there is none
  let zeros ← countAll (8 * r.data.length + 1) 0
  if zeros ≥ 32 then return 0xffffffff
  let low ← bits zeros
  let power ← unsigned 64 (1 <<< zeros)
  let front ← minus power 1
  let code ← unsigned 64 (front + low)
  return code % 2 ^ 32

end BitMachine

/-! ### Registers and cursors -/

/-- The registers are those of a cursor in `data`. -/
structure BitRegisters.Shows (data : List UInt8) (r : BitRegisters) (c : BitCursor) : Prop where
  data_eq : r.data = data
  position : c.position = 8 * r.bytePosition + r.bitPosition
  position_le : c.position ≤ 8 * data.length
  rest : c.rest = (Bits.ofBytes data).drop c.position
  bitPosition_lt : r.bitPosition < 8

/-- At the start nothing was read. -/
theorem BitRegisters.Shows.initial (data : List UInt8) :
    Shows data ⟨data, 0, 0⟩ (.ofBytes data) where
  data_eq := rfl
  position := rfl
  position_le := Nat.zero_le _
  rest := rfl
  bitPosition_lt := Nat.zero_lt_succ 7

namespace BitMachine

open BitRegisters

variable {α β : Type}

section Relations

variable (data : List UInt8)

/-- A run and a reader come to the same, and stop at the same place. -/
inductive Agree : EStateM.Result Halt BitRegisters α → EStateM.Result Fault BitCursor α → Prop
  | ok {a : α} {r : BitRegisters} {c : BitCursor} (h : r.Shows data c) : Agree (.ok a r) (.ok a c)
  | error {f : Fault} {r : BitRegisters} {c : BitCursor} (h : r.Shows data c) :
    Agree (.error (.fault f) r) (.error f c)

/-- A run comes to the same as a reader at `c`, and no operation overflows. -/
def Copies (run : BitMachine α) (reader : BitTake α) (c : BitCursor) : Prop :=
  ∀ r : BitRegisters, r.Shows data c → Agree data (run r) (reader c)

/-- A run comes to the same as a reader at `c` if all of `sums` are in range, and overflows if one
of them is not. -/
def Follows (run : BitMachine α) (reader : BitTake α) (sums : List Int) (c : BitCursor) : Prop :=
  ∀ r : BitRegisters, r.Shows data c →
    ((∀ v ∈ sums, IsInt32 v) → Agree data (run r) (reader c)) ∧
    ((∃ v ∈ sums, ¬IsInt32 v) → ∃ r', run r = .error .overflow r')

end Relations

/-- What is worked out behind a reader. -/
def behind (reader : BitTake α) (sums : α → BitCursor → List Int) (c : BitCursor) : List Int :=
  match reader c with
  | .ok a c => sums a c
  | .error _ _ => []

variable {data : List UInt8} {c : BitCursor} {run : BitMachine α} {reader : BitTake α}
  {next : α → BitMachine β} {nextReader : α → BitTake β}

theorem Copies.pure (a : α) : Copies data (pure a) (pure a) c :=
  fun _ h => .ok h

theorem Copies.throw (f : Fault) :
    Copies data (throw (.fault f) : BitMachine α) (throw f) c :=
  fun _ h => .error h

/-- A run copies a reader in parts, with the part that follows where the first one leaves the
cursor. -/
theorem Copies.bind (h : Copies data run reader c)
    (hnext : ∀ a c', reader c = .ok a c' → Copies data (next a) (nextReader a) c') :
    Copies data (run >>= next) (reader >>= nextReader) c := by
  intro r hr
  have hfront := h r hr
  show Agree data (EStateM.bind run next r) (EStateM.bind reader nextReader c)
  unfold EStateM.bind
  -- what the first parts do is only known to agree
  generalize run r = x at hfront ⊢
  generalize hreader : reader c = y at hfront ⊢
  cases hfront with
  | ok hr' => exact hnext _ _ hreader _ hr'
  | error hr' => exact .error hr'

/-- A field that is there or not, and is not used. -/
theorem Copies.ifThen {p : Prop} [Decidable p] {rest : BitMachine β} {restReader : BitTake β}
    (h : Copies data run reader c) (hrest : ∀ c', Copies data rest restReader c') :
    Copies data (if p then run >>= fun _ => rest else rest)
      (if p then reader >>= fun _ => restReader else restReader) c := by
  split
  · exact h.bind fun _ c' _ => hrest c'
  · exact hrest c

/-- Nothing is worked out that could be out of range. -/
theorem Copies.follows (h : Copies data run reader c) : Follows data run reader [] c :=
  fun r hr => ⟨fun _ => h r hr, fun ⟨_, hv, _⟩ => absurd hv List.not_mem_nil⟩

/-- **A run follows a reader in parts.** The sums of both parts have to be in range. -/
theorem Follows.bind {sums : List Int} {sumsNext : α → BitCursor → List Int}
    (h : Follows data run reader sums c)
    (hnext : ∀ a c', reader c = .ok a c' →
      Follows data (next a) (nextReader a) (sumsNext a c') c') :
    Follows data (run >>= next) (reader >>= nextReader) (sums ++ behind reader sumsNext c) c := by
  intro r hr
  obtain ⟨hfits, hover⟩ := h r hr
  show (_ → Agree data (EStateM.bind run next r) (EStateM.bind reader nextReader c)) ∧
    (_ → ∃ r', EStateM.bind run next r = .error .overflow r')
  unfold EStateM.bind
  by_cases hsums : ∀ v ∈ sums, IsInt32 v
  · -- the front is passed, and what overflows does so behind it
    have hfront := hfits hsums
    unfold behind
    generalize run r = x at hfront ⊢
    generalize hreader : reader c = y at hfront ⊢
    cases hfront with
    | ok hr' =>
      obtain ⟨hfits', hover'⟩ := hnext _ _ hreader _ hr'
      refine ⟨fun hall => hfits' fun v hv => hall v (List.mem_append_right _ hv), ?_⟩
      rintro ⟨v, hv, hout⟩
      have hback := (List.mem_append.1 hv).resolve_left fun hleft => hout (hsums v hleft)
      exact hover' ⟨v, hback, hout⟩
    | error hr' =>
      refine ⟨fun _ => .error hr', ?_⟩
      rintro ⟨v, hv, hout⟩
      rw [List.append_nil] at hv
      exact absurd (hsums v hv) hout
  · push Not at hsums
    obtain ⟨r', hrun⟩ := hover hsums
    refine ⟨fun hall => ?_, fun _ => ⟨r', by rw [hrun]⟩⟩
    obtain ⟨v, hv, hout⟩ := hsums
    exact absurd (hall v (List.mem_append_left _ hv)) hout

/-- What overflows behind a reader. -/
theorem Copies.bind_overflow {a : α} {c' : BitCursor} (h : Copies data run reader c)
    (hread : reader c = .ok a c')
    (hnext : ∀ r : BitRegisters, r.Shows data c' → ∃ r', next a r = .error .overflow r')
    {r : BitRegisters} (hr : r.Shows data c) : ∃ r', (run >>= next) r = .error .overflow r' := by
  have hfront := h r hr
  rw [hread] at hfront
  show ∃ r', EStateM.bind run next r = .error .overflow r'
  unfold EStateM.bind
  generalize run r = x at hfront ⊢
  cases hfront with
  | ok hr' => exact hnext _ hr'

/-- Sums behind a reader that works out none. -/
theorem Copies.bind_follows {sums : α → BitCursor → List Int} (h : Copies data run reader c)
    (hnext : ∀ a c', reader c = .ok a c' →
      Follows data (next a) (nextReader a) (sums a c') c') :
    Follows data (run >>= next) (reader >>= nextReader) (behind reader sums c) c :=
  h.follows.bind hnext

/-- What reads the last of the sums may be followed by a reader that works out none. -/
theorem Follows.bind_copies {sums : List Int} (h : Follows data run reader sums c)
    (hnext : ∀ a c', reader c = .ok a c' → Copies data (next a) (nextReader a) c') :
    Follows data (run >>= next) (reader >>= nextReader) sums c := by
  have hnone : behind reader (fun _ _ => []) c = [] := by
    unfold behind
    split <;> rfl
  have hboth := h.bind fun a c' hc => (hnext a c' hc).follows
  rwa [hnone, List.append_nil] at hboth

/-- Sums behind a field that is there or has a value all the same. -/
theorem Copies.ifElse_follows {p : Prop} [Decidable p] {absent : BitMachine α}
    {absentReader : BitTake α} {sums : α → BitCursor → List Int}
    (h : Copies data run reader c) (habsent : Copies data absent absentReader c)
    (hnext : ∀ a c', Follows data (next a) (nextReader a) (sums a c') c') :
    Follows data (if p then run >>= next else absent >>= next)
      (if p then reader >>= nextReader else absentReader >>= nextReader)
      (behind (if p then reader else absentReader) sums c) c := by
  split
  · exact h.bind_follows fun a c' _ => hnext a c'
  · exact habsent.bind_follows fun a c' _ => hnext a c'

/-! ### Operations in range -/

/-- A number that fits its type is kept. -/
theorem unsigned_of_lt {w n : Nat} (h : n < 2 ^ w) : unsigned w n = pure n :=
  if_pos h

/-- A difference that is not negative is kept. -/
theorem minus_of_le {a b : Nat} (h : b ≤ a) : minus a b = pure (a - b) :=
  if_pos h

theorem int64_of_mem {v : Int} (hlow : -2 ^ 63 ≤ v) (hhigh : v < 2 ^ 63) : int64 v = pure v :=
  if_pos ⟨hlow, hhigh⟩

/-- A sum, and what goes on with it. -/
theorem follows_int32 {v : Int} {sums : List Int} {next : Int → BitMachine β}
    {nextReader : BitTake β} (h : Follows data (next v) nextReader sums c) :
    Follows data (int32 v >>= next) nextReader (v :: sums) c := by
  intro r hr
  show (_ → Agree data (EStateM.bind (int32 v) next r) _) ∧
    (_ → ∃ r', EStateM.bind (int32 v) next r = .error .overflow r')
  unfold EStateM.bind int32
  -- this sum is in range and the others decide, or it overflows right here
  by_cases hv : IsInt32 v
  · obtain ⟨hfits, hover⟩ := h r hr
    rw [if_pos hv]
    refine ⟨fun hall => hfits (List.forall_mem_cons.1 hall).2, ?_⟩
    rintro ⟨w, hw, hout⟩
    obtain rfl | hback := List.mem_cons.1 hw
    · exact absurd hv hout
    · exact hover ⟨w, hback, hout⟩
  · rw [if_neg hv]
    exact ⟨fun hall => absurd (hall v List.mem_cons_self) hv, fun _ => ⟨r, rfl⟩⟩

/-! ### Readers -/

theorem bit_of_none {r : BitRegisters} (h : r.data[r.bytePosition]? = none) :
    bit r = .error (.fault .bitsPastEnd) r := by
  show (match r.data[r.bytePosition]? with | none => _ | some byte => _ : BitMachine Bool) r = _
  rw [h]
  rfl

/-- A bit is looked up in its byte, highest bit first. -/
theorem bit_of_some {r : BitRegisters} {byte : UInt8} (h : r.data[r.bytePosition]? = some byte)
    (hbit : r.bitPosition < 8) :
    bit r = .ok (byte.toNat.testBit (7 - r.bitPosition))
      (if r.bitPosition + 1 = 8 then
        { r with bytePosition := r.bytePosition + 1, bitPosition := 0 }
      else { r with bitPosition := r.bitPosition + 1 }) := by
  have hnext : r.bitPosition + 1 < 2 ^ 8 := by omega
  show (match r.data[r.bytePosition]? with | none => _ | some byte => _ : BitMachine Bool) r = _
  rw [h]
  dsimp only
  rw [minus_of_le (Nat.le_of_lt_succ hbit), unsigned_of_lt hnext]
  show (if r.bitPosition + 1 = 8 then _ else _ : BitMachine Bool) r = _
  split <;> rfl

/-- **One bit.** The two positions tell where the cursor is. -/
theorem copies_bit : Copies data bit BitTake.bit c := by
  rintro r ⟨rfl, hposition, hle, hrest, hbit⟩
  -- what both sides find at the position
  have hhead : c.rest.head? =
      r.data[r.bytePosition]?.map fun b => b.toNat.testBit (7 - r.bitPosition) := by
    rw [hrest, List.head?_drop, hposition, Bits.getElem?_ofBytes _ hbit]
  cases hbyte : r.data[r.bytePosition]? with
  | none =>
    rw [hbyte] at hhead
    rw [bit_of_none hbyte, BitTake.bit, List.head?_eq_none_iff.1 hhead]
    exact .error ⟨rfl, hposition, hle, hrest, hbit⟩
  | some byte =>
    rw [hbyte] at hhead
    obtain ⟨rest, hcons⟩ := List.head?_eq_some_iff.1 hhead
    have htail : rest = (Bits.ofBytes r.data).drop (c.position + 1) := by
      rw [← List.tail_drop, ← hrest, hcons, List.tail_cons]
    have hinside : r.bytePosition < r.data.length := (List.getElem?_eq_some_iff.1 hbyte).1
    rw [bit_of_some hbyte hbit, BitTake.bit, hcons]
    -- the last bit of a byte begins the next one
    split
    · exact .ok ⟨rfl, by dsimp only; omega, by dsimp only; omega, htail, Nat.zero_lt_succ 7⟩
    · exact .ok ⟨rfl, by dsimp only; omega, by dsimp only; omega, htail, by dsimp only; omega⟩

/-- Bits are put behind what was read before, as long as there is room in 64 bits. -/
theorem copies_bitsInto {n high : Nat} (h : (high + 1) * 2 ^ n ≤ 2 ^ 64) :
    Copies data (bitsInto n high) (BitTake.bitsInto n high) c := by
  induction n generalizing high c with
  | zero => exact Copies.pure high
  | succ n ih =>
    -- a bit more doubles the number and takes one off the room
    refine copies_bit.bind fun b c' _ => ?_
    have hdouble : (2 * high + b.toNat + 1) * 2 ^ n ≤ 2 ^ 64 :=
      le_trans (BitTake.mul_two_pow_le high b n) h
    have hnext : 2 * high + b.toNat < 2 ^ 64 := by
      have := Nat.le_mul_of_pos_right (2 * high + b.toNat + 1) (Nat.two_pow_pos n)
      omega
    rw [unsigned_of_lt hnext, pure_bind]
    exact ih hdouble

/-- **Bits**, of which 32 at most are asked for. -/
theorem copies_bits (n : Nat) : Copies data (bits n) (BitTake.bits n) c := by
  unfold bits BitTake.bits
  split
  · exact Copies.throw .bitFieldTooWide
  -- the register has 64 bits, so 32 can be shifted in before the result is cut to 32
  · have hwidth : (0 + 1) * 2 ^ n ≤ 2 ^ 64 := by
      rw [Nat.zero_add, Nat.one_mul]
      exact Nat.pow_le_pow_right Nat.two_pos (by omega)
    rw [← bind_pure (BitTake.bitsInto n 0)]
    refine (copies_bitsInto hwidth).bind fun v c' hv => ?_
    have hfits : v < 2 ^ 32 := by
      have hlt := BitTake.bitsInto_lt hv
      have hle : 2 ^ n ≤ 2 ^ 32 := Nat.pow_le_pow_right Nat.two_pos (by omega)
      omega
    rw [Nat.mod_eq_of_lt hfits]
    exact Copies.pure v

/-- What is left is worked out from the length of the data, which has to be in range. -/
theorem copies_skip (hdata : data.length * 8 < 2 ^ 64) (n : Nat) :
    Copies data (skip n) (BitTake.skip n) c := by
  rintro r ⟨rfl, hposition, hle, hrest, hbit⟩
  -- what is left is what lies behind the two positions
  have hleft : c.rest.length = r.data.length * 8 - (r.bytePosition * 8 + r.bitPosition) := by
    rw [hrest, List.length_drop, Bits.length_ofBytes]
    omega
  show Agree _ ((unsigned 64 (r.data.length * 8) >>= _ : BitMachine Unit) r) _
  rw [unsigned_of_lt hdata, pure_bind, unsigned_of_lt (by omega), pure_bind,
    unsigned_of_lt (by omega), pure_bind, BitTake.skip, hleft]
  split
  · exact .error ⟨rfl, hposition, hle, hrest, hbit⟩
  · show Agree _ ((unsigned 64 _ >>= _ : BitMachine Unit) r) _
    rw [unsigned_of_lt (by omega)]
    refine .ok ⟨rfl, ?_, ?_, ?_, Nat.mod_lt _ (by decide)⟩
    all_goals dsimp only [BitCursor.advance]
    · omega
    · omega
    · rw [hrest, List.drop_drop]

/-- The number of bits of so long an input is out of range. -/
theorem skip_of_long {r : BitRegisters} (hdata : 2 ^ 64 ≤ r.data.length * 8) (n : Nat) :
    skip n r = .error .overflow r := by
  have hover : unsigned 64 (r.data.length * 8) = throw .overflow := if_neg (Nat.not_lt.2 hdata)
  show (unsigned 64 (r.data.length * 8) >>= _ : BitMachine Unit) r = _
  rw [hover]
  rfl

/-- Zeros of a code are counted up to 32. -/
theorem copies_countZeros {zeros : Nat} (h : zeros < 32) :
    Copies data (countZeros zeros) (BitTake.countZeros zeros) c := by
  -- by induction on how many more zeros may come
  induction hroom : 32 - zeros generalizing zeros c with
  | zero => omega
  | succ room ih =>
    have hnext : zeros + 1 < 2 ^ 32 := by omega
    rw [countZeros, BitTake.countZeros]
    refine copies_bit.bind fun b c' _ => ?_
    cases b with
    | true => exact Copies.pure zeros
    | false =>
      rw [if_neg Bool.false_ne_true, if_neg Bool.false_ne_true, unsigned_of_lt hnext, pure_bind]
      split
      · exact Copies.throw .golombTooLong
      · exact ih (by omega) (by omega)

/-- Behind fewer than 32 zeros and the one, a code is worked out within 64 bits. -/
theorem copies_lowBits {zeros : Nat} (h : zeros < 32) :
    Copies data
      (do
        let low ← bits zeros
        let power ← unsigned 64 (1 <<< zeros)
        let front ← minus power 1
        let code ← unsigned 64 (front + low)
        return code % 2 ^ 32)
      (do
        let low ← BitTake.bits zeros
        return 1 <<< zeros - 1 + low) c := by
  refine (copies_bits zeros).bind fun low c' hlow => ?_
  have hlow := BitTake.bits_lt hlow
  have hpos := Nat.two_pow_pos zeros
  have hpower : 2 ^ zeros ≤ 2 ^ 31 := Nat.pow_le_pow_right Nat.two_pos (Nat.le_of_lt_succ h)
  have hone : 1 <<< zeros = 2 ^ zeros := Nat.one_shiftLeft zeros
  -- below 32 zeros every sum stays below 2 ^ 32
  rw [unsigned_of_lt (by omega), pure_bind, minus_of_le (by omega), pure_bind,
    unsigned_of_lt (by omega), pure_bind, Nat.mod_eq_of_lt (by omega)]
  exact Copies.pure _

/-- **Unsigned codes** have at most 31 zeros, so that 64 bits are enough. -/
theorem copies_ue : Copies data ue BitTake.ue c := by
  rw [BitTake.ue_eq]
  refine (copies_countZeros (by decide)).bind fun zeros c₁ hzeros => ?_
  split
  · -- no zeros: no bits behind the one
    rename_i hzero
    subst hzero
    exact Copies.pure 0
  · exact copies_lowBits (BitTake.countZeros_lt (by decide) hzeros)

/-- **Signed codes** are worked out of unsigned ones. -/
theorem copies_se : Copies data se BitTake.se c := by
  refine copies_ue.bind fun k c' hk => ?_
  have hlt := BitTake.ue_lt hk
  -- for numbers that are not negative, truncating and flooring are the same
  have hhalf : (k : Int).tdiv 2 = ((k / 2 : Nat) : Int) := rfl
  have hnextHalf : ((k : Int) + 1).tdiv 2 = (((k + 1) / 2 : Nat) : Int) := rfl
  split
  · rw [int64_of_mem (by omega) (by omega), pure_bind, hnextHalf,
      Int.bmod_eq_of_le (by omega) (by omega)]
    exact Copies.pure _
  · rw [hhalf, int64_of_mem (by omega) (by omega), pure_bind,
      Int.bmod_eq_of_le (by omega) (by omega)]
    exact Copies.pure _

/-- The count goes along with the zeros that are left. -/
theorem copies_countAll {turns zeros : Nat} (hturns : c.rest.length < turns)
    (hzeros : zeros + (c.rest.takeWhile (!·)).length < 2 ^ 32) :
    Copies data (countAll turns zeros)
      (BitTake.leadingZeros >>= fun more => pure (zeros + more)) c := by
  -- on the turns, of which there is one more than there are bits
  induction turns generalizing zeros c with
  | zero => exact absurd hturns (Nat.not_lt_zero _)
  | succ turns ih =>
    rw [countAll, BitTake.leadingZeros_eq, bind_assoc]
    refine copies_bit.bind fun b c' hbit => ?_
    obtain ⟨rest, position⟩ := c
    cases rest with
    | nil => cases hbit
    | cons b rest =>
      cases hbit
      cases b with
      | true => exact Copies.pure zeros
      | false =>
        have hmore : zeros + 1 + (rest.takeWhile (!·)).length < 2 ^ 32 := by
          rw [List.takeWhile_cons_of_pos (by rfl), List.length_cons] at hzeros
          omega
        -- both count the zero, one on the way down and the other on the way up
        have hnext : (fun more => (pure (zeros + (more + 1)) : BitTake Nat)) =
            fun more => pure (zeros + 1 + more) := by
          funext more
          rw [Nat.add_assoc, Nat.add_comm 1]
        rw [if_neg Bool.false_ne_true, if_neg Bool.false_ne_true, unsigned_of_lt (by omega),
          pure_bind, bind_assoc]
        simp only [pure_bind]
        rw [hnext]
        exact ih (Nat.lt_of_succ_lt_succ hturns) hmore

/-- **Codes without a limit**, as long as the count of their zeros has 32 bits. -/
theorem copies_uvlc (hzeros : (c.rest.takeWhile (!·)).length < 2 ^ 32) :
    Copies data uvlc BitTake.uvlc c := by
  intro r hr
  -- the loop may turn once for each bit and once more
  have hturns : c.rest.length < 8 * data.length + 1 := by
    rw [hr.rest, List.length_drop, Bits.length_ofBytes]
    omega
  have hcount : Copies data (countAll (8 * data.length + 1) 0)
      (BitTake.leadingZeros >>= fun more => pure (0 + more)) c :=
    copies_countAll hturns (by omega)
  simp only [Nat.zero_add, bind_pure] at hcount
  show Agree data ((countAll (8 * r.data.length + 1) 0 >>= _) r) _
  rw [hr.data_eq]
  refine hcount.bind (fun zeros c' _ => ?_) r hr
  by_cases hlong : zeros ≥ 32
  · rw [if_pos hlong, if_pos hlong]
    exact Copies.pure _
  · rw [if_neg hlong, if_neg hlong]
    exact copies_lowBits (Nat.not_le.1 hlong)

/-- Run on whole bytes. -/
def from? (run : BitMachine α) (data : List UInt8) : Except Halt α :=
  match run ⟨data, 0, 0⟩ with
  | .ok a _ => .ok a
  | .error halt _ => .error halt

theorem from?_of_overflow (h : ∃ r, run ⟨data, 0, 0⟩ = .error .overflow r) :
    run.from? data = .error .overflow := by
  obtain ⟨r, hr⟩ := h
  rw [from?, hr]

/-- Agreement from the beginning of the bytes is agreement on the result. -/
theorem Agree.from? (h : Agree data (run ⟨data, 0, 0⟩) (reader (.ofBytes data))) :
    run.from? data = (reader.from? data).mapError .fault := by
  rw [BitMachine.from?, BitTake.from?]
  generalize run ⟨data, 0, 0⟩ = x at h ⊢
  generalize reader (.ofBytes data) = y at h ⊢
  cases h <;> rfl

end BitMachine

/-! ### Emulation prevention -/

namespace Emulation

/-- Drop the inserted bytes, where zeros are counted below `limit`. -/
def removeCounting (limit : Nat) : (zeros : Nat) → List UInt8 → Except Halt (List UInt8)
  | _, [] => .ok []
  | zeros, b :: rest =>
    if 2 ≤ zeros ∧ b = 3 then removeCounting limit 0 rest
    else if b = 0 then
      if zeros + 1 < limit then (removeCounting limit (zeros + 1) rest).map (b :: ·)
      else .error .overflow
    else (removeCounting limit 0 rest).map (b :: ·)

/-- A run of zeros does not go past another byte. -/
theorem replicate_isInfix_iff {limit zeros : Nat} (h : zeros < limit) {b : UInt8} (hb : b ≠ 0)
    (rest : List UInt8) :
    List.replicate limit 0 <:+: List.replicate zeros 0 ++ b :: rest ↔
      List.replicate limit 0 <:+: rest := by
  -- a run that begins here would take in the other byte
  have hfront {zeros : Nat} (h : zeros < limit) :
      ¬List.replicate limit 0 <+: List.replicate zeros 0 ++ b :: rest := by
    intro hprefix
    have hat := List.prefix_iff_getElem?.1 hprefix zeros (by rwa [List.length_replicate])
    rw [List.getElem?_append_right (by rw [List.length_replicate]), List.length_replicate,
      Nat.sub_self, List.getElem_replicate] at hat
    exact hb (Option.some.inj hat)
  induction zeros with
  | zero => exact List.infix_cons_iff.trans (or_iff_right (hfront h))
  | succ zeros ih =>
    exact (List.infix_cons_iff.trans (or_iff_right (hfront h))).trans (ih (Nat.lt_of_succ_lt h))

/-- The count goes out of range exactly if there are that many zeros in a row. -/
theorem removeCounting_cases {limit zeros : Nat} (h : zeros < limit) (bytes : List UInt8) :
    (List.replicate limit 0 <:+: List.replicate zeros 0 ++ bytes ∧
      removeCounting limit zeros bytes = .error .overflow) ∨
    (¬List.replicate limit 0 <:+: List.replicate zeros 0 ++ bytes ∧
      removeCounting limit zeros bytes = .ok (removeAfter zeros bytes)) := by
  induction bytes generalizing zeros with
  | nil =>
    refine .inr ⟨fun hinfix => ?_, rfl⟩
    have hle := hinfix.length_le
    rw [List.append_nil, List.length_replicate, List.length_replicate] at hle
    omega
  | cons b rest ih =>
    rw [removeCounting, removeAfter]
    by_cases hzero : b = 0
    · subst hzero
      have hkeep : ¬(2 ≤ zeros ∧ (0 : UInt8) = 3) := fun h => absurd h.2 (by decide)
      have hone : List.replicate zeros (0 : UInt8) ++ 0 :: rest =
          List.replicate (zeros + 1) 0 ++ rest := by
        rw [List.replicate_succ', List.append_assoc, List.singleton_append]
      rw [if_neg hkeep, if_neg hkeep, if_pos rfl, if_pos rfl, hone]
      split
      · rename_i hroom
        obtain ⟨hrun, hover⟩ | ⟨hrun, hok⟩ := ih hroom
        · exact .inl ⟨hrun, by rw [hover]; rfl⟩
        · exact .inr ⟨hrun, by rw [hok]; rfl⟩
      · -- this zero is the one too many
        rename_i hfull
        obtain rfl : zeros + 1 = limit := by omega
        exact .inl ⟨(List.prefix_append _ rest).isInfix, rfl⟩
    · -- the count starts again
      rw [replicate_isInfix_iff h hzero, if_neg hzero, if_neg hzero]
      obtain ⟨hrun, hover⟩ | ⟨hrun, hok⟩ := ih (Nat.zero_lt_of_lt h)
      · rw [hover]
        refine .inl ⟨hrun, ?_⟩
        split <;> rfl
      · rw [hok]
        refine .inr ⟨hrun, ?_⟩
        split <;> rfl

end Emulation

end LiveIngest
