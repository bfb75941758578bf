import Mathlib.Tactic.Ring
import LiveIngest.Bits.Reader
import LiveIngest.Proofs.Bits.Packing

/-!
# Readers of bit fields, rule by rule

`Reads reader bits a` says that a reader reads `a` off exactly `bits`, in front of whatever follows
them. There is one rule for every way in which readers are put together, so that what a reader does
with a syntax is told field by field, in the order of the syntax, without opening the monad.

A syntax leaves fields out by a flag (`Reads.optional`, or `Reads.present` where the flag is not
directly in front) or under a condition on the fields before (`Reads.ifThen`, `Reads.ifElse`). These
rules are about what follows as well, since a reader goes on in two places then.

The codes of variable length:

* `Reads.ue`, `Reads.se` — Exp-Golomb codes, `golomb` and `signedGolomb`, of up to 31 zeros;
* `Reads.uvlc` — the code that may have any number of zeros, `Uvlc`.
-/

namespace LiveIngest.Bits

/-- The numbers that have an Exp-Golomb code of up to 31 zeros. -/
abbrev Golomb := Fin 0xffffffff

/-- The signed numbers that have one. -/
abbrev SignedGolomb := { k : Int // k.natAbs < 2 ^ 31 }

/-- The Exp-Golomb code of a number: its successor in binary, behind as many zeros as the successor
has bits after the first. -/
def golomb (n : Nat) : List Bool :=
  List.replicate (n + 1).log2 false ++ field ((n + 1).log2 + 1) (n + 1)

/-- The code of a signed number: 0, 1, -1, 2, -2 and so on are counted off. -/
def signedGolomb (k : Int) : List Bool :=
  golomb (if 0 < k then 2 * k.natAbs - 1 else 2 * k.natAbs)

/-- What is written of something that is there or not. -/
def present {α : Type} (write : α → List Bool) : Option α → List Bool
  | none => []
  | some a => write a

/-- The same, behind a flag that says which. -/
def optional {α : Type} (write : α → List Bool) (o : Option α) : List Bool :=
  flag o.isSome ++ present write o

/-- A code of AV1 without a limit on its zeros. -/
inductive Uvlc
  | short (n : Golomb)
  /-- 32 zeros or more, of which `more` are over 32, stand for the largest number. -/
  | long (more : Nat)

namespace Uvlc

def bits : Uvlc → List Bool
  | short n => golomb n
  | long more => List.replicate (32 + more) false ++ flag true

def value : Uvlc → Nat
  | short n => n
  | long _ => 0xffffffff

end Uvlc

/-- The first bit of a number is a one. -/
theorem golomb_eq (n : Nat) : golomb n =
    (List.replicate (n + 1).log2 false ++ flag true) ++ field (n + 1).log2 (n + 1) := by
  have htop : (n + 1).testBit (n + 1).log2 = true := Nat.testBit_log2 (Nat.succ_ne_zero n)
  rw [golomb, field, htop, List.append_assoc]
  rfl

/-- A code of 32 bits has fewer than 32 zeros in front. -/
theorem log2_lt (n : Golomb) : (n.val + 1).log2 < 32 :=
  (Nat.log2_lt (Nat.succ_ne_zero n)).2 (by omega)

end LiveIngest.Bits

namespace LiveIngest.BitTake

open Bits

variable {α β : Type}

/-- `reader` reads `a` off the front, and takes exactly `bits`. -/
def Reads (reader : BitTake α) (bits : List Bool) (a : α) : Prop :=
  ∀ rest position,
    reader ⟨bits ++ rest, position⟩ = .ok a ⟨rest, position + bits.length⟩

/-- Nothing is read where nothing is asked for. -/
theorem Reads.pure (a : α) : Reads (pure a) [] a :=
  fun _ _ => rfl

/-- Readers in a row read what is written in a row. -/
theorem Reads.bind {reader : BitTake α} {next : α → BitTake β} {front back : List Bool} {a : α}
    {b : β} (hfront : Reads reader front a) (hback : Reads (next a) back b) :
    Reads (reader >>= next) (front ++ back) b := by
  intro rest position
  show EStateM.bind reader next ⟨front ++ back ++ rest, position⟩ = _
  rw [List.append_assoc, EStateM.bind, hfront, List.length_append, ← Nat.add_assoc]
  exact hback rest (position + front.length)

/-- What comes last need not take anything. -/
theorem Reads.last {reader : BitTake α} {next : α → BitTake β} {bits : List Bool} {a : α} {b : β}
    (h : Reads reader bits a) (hnext : Reads (next a) [] b) : Reads (reader >>= next) bits b := by
  have hboth := h.bind hnext
  rwa [List.append_nil] at hboth

/-- What was read last may be wrapped. -/
theorem Reads.map {reader : BitTake α} {bits : List Bool} {a : α} (h : Reads reader bits a)
    (f : α → β) : Reads (reader >>= fun x => Pure.pure (f x)) bits (f a) :=
  h.last (Reads.pure (f a))

/-- What is read off packed bits, whatever follows them. -/
theorem Reads.from?_pack {reader : BitTake α} {bits : List Bool} {a : α} (h : Reads reader bits a)
    (trailing : List Bool) : reader.from? (pack (bits ++ trailing)) = .ok a := by
  rw [BitTake.from?, BitCursor.ofBytes, ofBytes_pack, List.append_assoc, h]

/-! ### Fields -/

theorem Reads.bit (b : Bool) : Reads BitTake.bit (flag b) b :=
  fun _ _ => rfl

/-- A bit, and what is read behind it. -/
theorem Reads.cons {next : Bool → BitTake β} (b : Bool) {bits : List Bool} {c : β}
    (h : Reads (next b) bits c) : Reads (BitTake.bit >>= next) (flag b ++ bits) c :=
  (Reads.bit b).bind h

/-- Bits are read into the number from the highest on, by induction on the bits. -/
theorem Reads.bitsInto (high : Nat) (bits : List Bool) :
    Reads (bitsInto bits.length high) bits (high * 2 ^ bits.length + value bits) := by
  induction bits generalizing high with
  | nil =>
    intro rest position
    rw [List.length_nil, Nat.pow_zero, Nat.mul_one]
    rfl
  | cons b rest ih =>
    -- each bit doubles what was read
    have hnumber : high * 2 ^ (b :: rest).length + value (b :: rest) =
        (2 * high + b.toNat) * 2 ^ rest.length + value rest := by
      rw [value_cons, List.length_cons, Nat.pow_succ]
      ring
    rw [hnumber]
    exact Reads.cons b (ih (2 * high + b.toNat))

/-- A field of bits is the number that they spell. -/
theorem Reads.value (bits : List Bool) (h : bits.length ≤ 32) :
    Reads (BitTake.bits bits.length) bits (value bits) := by
  have hinto := Reads.bitsInto 0 bits
  rw [Nat.zero_mul, Nat.zero_add] at hinto
  rwa [BitTake.bits, if_neg (Nat.not_lt.2 h)]

/-- A number is read modulo the range of its field. -/
theorem Reads.field {w : Nat} (h : w ≤ 32) (n : Nat) :
    Reads (BitTake.bits w) (field w n) (n % 2 ^ w) := by
  have hvalue := Reads.value (Bits.field w n) (by rwa [length_field])
  rwa [length_field, value_field] at hvalue

/-- A field is read at the width it was written in. -/
theorem Reads.bitVec {w : Nat} (h : w ≤ 32) (x : BitVec w) :
    Reads (BitTake.bits w) (Bits.field w x.toNat) x.toNat := by
  have hfield := Reads.field h x.toNat
  rwa [Nat.mod_eq_of_lt x.isLt] at hfield

theorem Reads.byte (b : UInt8) : Reads (BitTake.bits 8) (Bits.field 8 b.toNat) b.toNat :=
  Reads.bitVec (by decide) b.toBitVec

/-- Skipped bits may be any. -/
theorem Reads.skip {n : Nat} {bits : List Bool} (h : bits.length = n) :
    Reads (BitTake.skip n) bits () := by
  intro rest position
  subst h
  have hlong : ¬(bits ++ rest).length < bits.length := by
    rw [List.length_append]
    omega
  show (if (bits ++ rest).length < bits.length then _ else _) = _
  rw [if_neg hlong, BitCursor.advance, List.drop_left]

/-- A bit that is passed over. -/
theorem Reads.skipBit (b : Bool) : Reads (BitTake.skip 1) (flag b) () :=
  Reads.skip rfl

/-! ### Fields that may be left out -/

section LeftOut

variable {γ : Type} {reader : BitTake γ} {rest : BitTake β} {front bits : List Bool} {b : β}

/-- Fields that are there if a flag that came before says so, in front of `bits`. -/
theorem Reads.present {write : α → List Bool} {read : α → γ} (o : Option α)
    (h : ∀ a, Reads reader (write a) (read a)) (hrest : Reads rest bits b) :
    Reads (if o.isSome = true then reader >>= fun _ => rest else rest) (present write o ++ bits)
      b := by
  cases o with
  | none => exact hrest
  | some a => exact (h a).bind hrest

/-- A flag and the fields that it announces, in front of `bits`. -/
theorem Reads.optional {write : α → List Bool} {read : α → γ} (o : Option α)
    (h : ∀ a, Reads reader (write a) (read a)) (hrest : Reads rest bits b) :
    Reads (BitTake.bit >>= fun flag => if flag = true then reader >>= fun _ => rest else rest)
      (optional write o ++ bits) b := by
  rw [Bits.optional, List.append_assoc]
  exact Reads.cons o.isSome (Reads.present o h hrest)

/-- Fields that are there under a condition, in front of `bits`. -/
theorem Reads.ifThen {c : Prop} [Decidable c] {x : γ} (h : c → Reads reader front x)
    (hrest : Reads rest bits b) :
    Reads (if c then reader >>= fun _ => rest else rest) ((if c then front else []) ++ bits) b := by
  split
  · rename_i hc
    exact (h hc).bind hrest
  · exact hrest

/-- Fields that are there under a condition, and have a value `x` in either case. -/
theorem Reads.ifElse {c : Prop} [Decidable c] {absent : BitTake γ} {next : γ → BitTake β} {x : γ}
    (h : c → Reads reader front x) (habsent : ¬c → Reads absent [] x)
    (hnext : Reads (next x) bits b) :
    Reads (if c then reader >>= next else absent >>= next)
      ((if c then front else []) ++ bits) b := by
  split
  · rename_i hc
    exact (h hc).bind hnext
  · rename_i hc
    exact (habsent hc).bind hnext

end LeftOut

/-! ### Codes -/

/-- Zeros are counted up to the first one. -/
theorem Reads.leadingZeros (zeros : Nat) :
    Reads BitTake.leadingZeros (List.replicate zeros false ++ flag true) zeros := by
  intro rest position
  -- the zeros end at the one, which is skipped
  have htake : ((List.replicate zeros false ++ flag true ++ rest).takeWhile (!·)).length =
      zeros := by
    rw [List.append_assoc, List.takeWhile_append_of_pos (by simp)]
    simp [flag]
  have hdrop : (List.replicate zeros false ++ flag true ++ rest).drop zeros = true :: rest := by
    rw [List.append_assoc, List.drop_append_of_le_length (by simp),
      List.drop_of_length_le (by simp)]
    rfl
  have hlength : (List.replicate zeros false ++ flag true).length = zeros + 1 := by simp [flag]
  rw [BitTake.leadingZeros]
  simp only [htake, hdrop, hlength, BitCursor.advance, ← List.drop_drop]
  rfl

/-- Behind its zeros and its one, a code has as many bits as it has zeros. -/
theorem Reads.lowBits {n : Nat} (h : (n + 1).log2 ≤ 32) :
    Reads (BitTake.bits (n + 1).log2 >>= fun low => Pure.pure (1 <<< (n + 1).log2 - 1 + low))
      (Bits.field (n + 1).log2 (n + 1)) n := by
  have hlow := (Reads.field h (n + 1)).map fun low => 1 <<< (n + 1).log2 - 1 + low
  have hle : 2 ^ (n + 1).log2 ≤ n + 1 := Nat.log2_self_le (Nat.succ_ne_zero n)
  -- without its highest bit the number has fewer bits, which are those that follow
  have hlt : n + 1 - 2 ^ (n + 1).log2 < 2 ^ (n + 1).log2 := by
    have hsize : n + 1 < 2 ^ ((n + 1).log2 + 1) := Nat.lt_log2_self
    rw [Nat.pow_succ] at hsize
    omega
  have hvalue : 1 <<< (n + 1).log2 - 1 + (n + 1) % 2 ^ (n + 1).log2 = n := by
    have hpos : 0 < 2 ^ (n + 1).log2 := Nat.two_pow_pos _
    rw [Nat.one_shiftLeft, Nat.mod_eq_sub_mod hle, Nat.mod_eq_of_lt hlt]
    omega
  rwa [hvalue] at hlow

/-- With a one among the next 32 bits there are not too many zeros. -/
theorem ue_apply {c : BitCursor} (h : true ∈ c.rest.take 32) :
    BitTake.ue c = (BitTake.leadingZeros >>= fun zeros => BitTake.bits zeros >>= fun low =>
      (Pure.pure (1 <<< zeros - 1 + low) : BitTake Nat)) c := by
  have hone : (c.rest.take 32).all (!·) = false := List.all_eq_false.2 ⟨true, h, by decide⟩
  show (if (decide ((c.rest.take 32).length = 32) && (c.rest.take 32).all (!·)) = true then _
    else _ : BitTake Nat) c = _
  rw [hone, Bool.and_false, if_neg Bool.false_ne_true]

/-- **Exponential Golomb codes are read back.** -/
theorem Reads.ue (n : Golomb) : Reads BitTake.ue (golomb n) n := by
  have hzeros := log2_lt n
  intro rest position
  -- the reader gives up on 32 zeros, but the one comes before that
  have hone : true ∈ (golomb n ++ rest).take 32 := by
    refine List.mem_of_getElem? (i := (n.val + 1).log2) ?_
    rw [List.getElem?_take_of_lt hzeros, golomb_eq, List.append_assoc, List.append_assoc,
      List.getElem?_append_right (by simp)]
    simp [flag]
  rw [ue_apply hone, golomb_eq]
  exact (Reads.leadingZeros _).bind (Reads.lowBits hzeros.le) rest position

/-- What is read off a code: odd numbers stand for positive ones, even ones for the others. -/
theorem Reads.se_golomb (n : Golomb) :
    Reads BitTake.se (golomb n)
      (if n.val % 2 = 1 then (((n.val + 1) / 2 : Nat) : Int) else -((n.val / 2 : Nat) : Int)) :=
  (Reads.ue n).map fun n =>
    if n % 2 = 1 then (((n + 1) / 2 : Nat) : Int) else -((n / 2 : Nat) : Int)

/-- **Signed codes are read back**: positive numbers have odd codes, the others even ones. -/
theorem Reads.se (k : SignedGolomb) : Reads BitTake.se (signedGolomb k) k := by
  obtain ⟨k, hk⟩ := k
  show Reads BitTake.se (signedGolomb k) k
  unfold signedGolomb
  split
  -- the codes 1, 3, 5, … are those of 1, 2, 3, …
  · rename_i hpositive
    have hcode := Reads.se_golomb ⟨2 * k.natAbs - 1, by omega⟩
    have hodd : (2 * k.natAbs - 1) % 2 = 1 := by omega
    have hhalf : (((2 * k.natAbs - 1 + 1) / 2 : Nat) : Int) = k := by omega
    rwa [if_pos hodd, hhalf] at hcode
  · rename_i hothers
    have hcode := Reads.se_golomb ⟨2 * k.natAbs, by omega⟩
    have heven : ¬2 * k.natAbs % 2 = 1 := by omega
    have hhalf : -((2 * k.natAbs / 2 : Nat) : Int) = k := by omega
    rwa [if_neg heven, hhalf] at hcode

/-- **Codes of variable length are read back**, those with 32 zeros or more included. -/
theorem Reads.uvlc (code : Uvlc) : Reads BitTake.uvlc code.bits code.value := by
  cases code with
  | short n =>
    have hzeros := log2_lt n
    rw [Uvlc.bits, golomb_eq]
    refine (Reads.leadingZeros _).bind ?_
    rw [if_neg (Nat.not_le.2 hzeros)]
    exact Reads.lowBits hzeros.le
  | long more =>
    -- behind so many zeros and the one, no bits follow
    refine (Reads.leadingZeros _).last ?_
    rw [if_pos (Nat.le_add_right 32 more)]
    exact Reads.pure _

end LiveIngest.BitTake
