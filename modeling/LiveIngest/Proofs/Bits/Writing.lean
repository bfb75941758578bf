import Mathlib.Data.List.ModifyLast
import LiveIngest.Proofs.Bits.Registers

/-!
# The bit writer, and what is read back

A `BitWriter` keeps bytes and how many bits of the last one are taken. A bit is put into the last
byte, behind those, and a new byte is begun where none is open. What was written so far is a list of
bits, and the bytes are this list, filled up with zeros (`Shows`). This holds at the start and for
each bit that is put (`Shows.put`), and so for all fields (`Shows.ofFields`).

For the readers, the list of bits that are left says everything: a field, bits passed over and as
many single bits are taken if they are there, and nothing else stops a reader (`bits_eq`, `skip_eq`,
`eachBit_eq`).

Main statement: `lists_of_bits` — the writer puts lists of bits together, the readers take them
apart, and so do the readers on registers.
-/

namespace LiveIngest

open Bits

namespace Bits

/-! ### Fields and their bits -/

/-- Numbers put on top of each other. -/
theorem field_or (w m n : Nat) :
    field w (m ||| n) = List.zipWith (· || ·) (field w m) (field w n) := by
  induction w with
  | zero => rfl
  | succ w ih => rw [field, field, field, List.zipWith_cons_cons, Nat.testBit_or, ih]

theorem zipWith_or_replicate (bits : List Bool) :
    List.zipWith (· || ·) bits (List.replicate bits.length false) = bits := by
  induction bits with
  | nil => rfl
  | cons b rest ih =>
    rw [List.length_cons, List.replicate_succ, List.zipWith_cons_cons, Bool.or_false, ih]

/-- One bit at a place in a byte. -/
theorem field_shiftLeft : ∀ p < 8, ∀ b : Bool,
    field 8 (b.toUInt8 <<< UInt8.ofNat (7 - p)).toNat =
      List.replicate p false ++ ([b] ++ List.replicate (7 - p) false) := by
  decide

/-- A bit is put behind those that are taken, and these stay. -/
theorem field_or_shiftLeft {byte : UInt8} {taken : List Bool} {room : Nat}
    (hroom : taken.length + (room + 1) = 8)
    (h : field 8 byte.toNat = taken ++ List.replicate (room + 1) false) (b : Bool) :
    field 8 (byte ||| b.toUInt8 <<< UInt8.ofNat room).toNat =
      taken ++ ([b] ++ List.replicate room false) := by
  have hplace : room = 7 - taken.length := by omega
  have hlength : taken.length = (List.replicate taken.length false).length :=
    List.length_replicate.symm
  have hbit := field_shiftLeft taken.length (by omega) b
  rw [← hplace] at hbit
  rw [UInt8.toNat_or, field_or, h, hbit, List.zipWith_append hlength, zipWith_or_replicate,
    List.replicate_succ, List.singleton_append, List.zipWith_cons_cons, Bool.false_or,
    List.zipWith_replicate, Nat.min_self]
  rfl

theorem ofBytes_concat (front : List UInt8) (last : UInt8) :
    ofBytes (front ++ [last]) = ofBytes front ++ field 8 last.toNat := by
  rw [ofBytes, List.flatMap_append, List.flatMap_singleton]
  rfl

/-- Where bits end in the last byte, some of them are all that it holds. -/
theorem exists_taken {front : List UInt8} {last : UInt8} {bits : List Bool} {room : Nat}
    (hroom : room ≤ 8) (h : ofBytes (front ++ [last]) = bits ++ List.replicate room false) :
    ∃ taken, bits = ofBytes front ++ taken ∧ taken.length + room = 8 ∧
      field 8 last.toNat = taken ++ List.replicate room false := by
  rw [ofBytes_concat] at h
  have hlength := congrArg List.length h
  rw [List.length_append, List.length_append, length_field, List.length_replicate] at hlength
  obtain ⟨taken, rfl⟩ : ofBytes front <+: bits :=
    List.prefix_of_prefix_length_le ⟨_, h⟩ (List.prefix_append _ _) (by omega)
  rw [List.length_append] at hlength
  rw [List.append_assoc] at h
  exact ⟨taken, rfl, by omega, List.append_cancel_left h⟩

/-- Bytes are known from their bits. -/
theorem ofBytes_inj {xs ys : List UInt8} (h : ofBytes xs = ofBytes ys) : xs = ys := by
  induction xs generalizing ys with
  | nil =>
    have hlength := congrArg List.length h
    rw [length_ofBytes, length_ofBytes, List.length_nil, Nat.mul_zero] at hlength
    exact (List.length_eq_zero_iff.1 (by omega)).symm
  | cons x xs ih =>
    cases ys with
    | nil =>
      have hlength := congrArg List.length h
      rw [length_ofBytes, length_ofBytes, List.length_nil, List.length_cons] at hlength
      omega
    | cons y ys =>
      rw [ofBytes_cons, ofBytes_cons] at h
      -- the first eight bits are the first byte
      obtain ⟨hfront, hback⟩ := List.append_inj h (by rw [length_field, length_field])
      have hvalue := congrArg value hfront
      rw [value_field, value_field, Nat.mod_eq_of_lt x.toNat_lt, Nat.mod_eq_of_lt y.toNat_lt]
        at hvalue
      rw [UInt8.toNat_inj.1 hvalue, ih hback]

end Bits

/-! ### The writer -/

/-- A number, and how many of its low bits are written. -/
structure BitField where
  value : UInt32
  width : Nat
  width_le : width ≤ 32

namespace BitField

def bits (f : BitField) : List Bool :=
  field f.width f.value.toNat

end BitField

/-- Bytes, and how many bits of the last one are taken, where it has room. -/
structure BitWriter where
  data : List UInt8
  bitPosition : Nat

namespace BitWriter

def empty : BitWriter :=
  ⟨[], 0⟩

def put (b : Bool) (w : BitWriter) : BitWriter where
  data := (if w.bitPosition = 0 then w.data ++ [0] else w.data).modifyLast fun last =>
    last ||| b.toUInt8 <<< UInt8.ofNat (7 - w.bitPosition)
  bitPosition := (w.bitPosition + 1) % 8

/-- Write the low bits of a number, the highest of them first. -/
def write (value : UInt32) : (n : Nat) → BitWriter → BitWriter
  | 0, w => w
  | n + 1, w => write value n (w.put (value.toNat.testBit n))

def ofFields (fields : List BitField) : BitWriter :=
  fields.foldl (fun w f => w.write f.value f.width) empty

def finish (w : BitWriter) : List UInt8 :=
  w.data

/-- The bytes are the bits that were written, and zeros up to the end of the last byte. -/
structure Shows (w : BitWriter) (bits : List Bool) : Prop where
  data : ofBytes w.data = bits ++ List.replicate ((8 - bits.length % 8) % 8) false
  bitPosition : w.bitPosition = bits.length % 8

theorem Shows.empty : Shows empty [] :=
  ⟨rfl, rfl⟩

/-- The byte that the next bit goes into is begun now, or has room. -/
theorem Shows.exists_last {w : BitWriter} {bits : List Bool} (h : w.Shows bits) :
    ∃ front last, (if w.bitPosition = 0 then w.data ++ [0] else w.data) = front ++ [last] ∧
      ofBytes (front ++ [last]) = bits ++ List.replicate (8 - w.bitPosition) false := by
  obtain ⟨hdata, hposition⟩ := h
  by_cases hwhole : w.bitPosition = 0
  · have hfull : (8 - bits.length % 8) % 8 = 0 := by omega
    rw [hfull, List.replicate_zero, List.append_nil] at hdata
    refine ⟨w.data, 0, if_pos hwhole, ?_⟩
    rw [ofBytes_concat, hdata, hwhole]
    rfl
  · have hzeros : (8 - bits.length % 8) % 8 = 8 - w.bitPosition := by omega
    rw [hzeros] at hdata
    obtain hnil | ⟨front, last, hlast⟩ := List.eq_nil_or_concat' w.data
    · -- without a byte there are no bits, and none of them in an open byte
      rw [hnil] at hdata
      rw [(List.append_eq_nil_iff.1 hdata.symm).1] at hposition
      exact absurd hposition hwhole
    · exact ⟨front, last, (if_neg hwhole).trans hlast, hlast ▸ hdata⟩

/-- One more bit. -/
theorem Shows.put {w : BitWriter} {bits : List Bool} (h : w.Shows bits) (b : Bool) :
    (w.put b).Shows (bits ++ [b]) := by
  have hposition := h.bitPosition
  obtain ⟨front, last, hopen, hbytes⟩ := h.exists_last
  have hroom : 8 - w.bitPosition = 7 - w.bitPosition + 1 := by omega
  rw [hroom] at hbytes
  -- the bits behind the front are those in the last byte, and the new one goes behind them
  obtain ⟨taken, hbits, htaken, hlast⟩ := exists_taken (by omega) hbytes
  have hlength : (bits ++ [b]).length = bits.length + 1 := List.length_append
  have hzeros : (8 - (bits ++ [b]).length % 8) % 8 = 7 - w.bitPosition := by omega
  refine ⟨?_, ?_⟩
  · rw [BitWriter.put, hopen, List.modifyLast_concat, ofBytes_concat,
      field_or_shiftLeft htaken hlast, hzeros, hbits]
    simp only [List.append_assoc]
  · rw [hlength, BitWriter.put, hposition, Nat.mod_add_mod]

theorem Shows.write {w : BitWriter} {bits : List Bool} (h : w.Shows bits) (value : UInt32)
    (n : Nat) : (w.write value n).Shows (bits ++ field n value.toNat) := by
  induction n generalizing w bits with
  | zero => rwa [field, List.append_nil]
  | succ n ih =>
    have hnext := ih (h.put (value.toNat.testBit n))
    rwa [List.append_assoc] at hnext

theorem Shows.ofFields (fields : List BitField) :
    (ofFields fields).Shows (fields.flatMap BitField.bits) := by
  have hall : ∀ (w : BitWriter) (bits : List Bool), w.Shows bits →
      (fields.foldl (fun w f => w.write f.value f.width) w).Shows
        (bits ++ fields.flatMap BitField.bits) := by
    induction fields with
    | nil =>
      intro w bits h
      rwa [List.flatMap_nil, List.append_nil]
    | cons f fields ih =>
      intro w bits h
      rw [List.foldl_cons, List.flatMap_cons, ← List.append_assoc]
      exact ih _ _ (h.write f.value f.width)
  exact hall BitWriter.empty [] Shows.empty

theorem finish_ofFields (fields : List BitField) :
    (ofFields fields).finish = pack (fields.flatMap BitField.bits) :=
  ofBytes_inj ((Shows.ofFields fields).data.trans (ofBytes_pack _).symm)

end BitWriter

namespace BitTake

/-! ### Readers and the bits that are left -/

variable {α ι : Type}

/-- One thing after another. -/
theorem Reads.mapM {reader : ι → BitTake α} {write : ι → List Bool} {a : ι → α}
    (h : ∀ i, Reads (reader i) (write i) (a i)) (items : List ι) :
    Reads (items.mapM reader) (items.flatMap write) (items.map a) := by
  induction items with
  | nil => exact Reads.pure []
  | cons i items ih =>
    rw [List.mapM_cons, List.flatMap_cons, List.map_cons]
    exact (h i).bind (ih.map (a i :: ·))

/-- Single bits, `n` of them. -/
def eachBit : (n : Nat) → BitTake (List Bool)
  | 0 => pure []
  | n + 1 => do
    let b ← bit
    let more ← eachBit n
    return b :: more

/-- Bits are taken one by one as long as there are any. -/
theorem eachBit_eq (n : Nat) (c : BitCursor) : eachBit n c =
    if n ≤ c.rest.length then .ok (c.rest.take n) (c.advance n)
    else .error .bitsPastEnd (c.advance c.rest.length) := by
  -- on the number of bits
  induction n generalizing c with
  | zero => rfl
  | succ n ih =>
    obtain ⟨rest, position⟩ := c
    cases rest with
    | nil => rfl
    | cons b rest =>
      have hmore := ih ⟨rest, position + 1⟩
      show EStateM.bind (eachBit n) _ ⟨rest, position + 1⟩ = _
      unfold EStateM.bind
      rw [hmore]
      dsimp only
      rw [List.length_cons, advance_succ, advance_succ]
      by_cases henough : n ≤ rest.length
      · rw [if_pos henough, if_pos (Nat.succ_le_succ henough)]
        rfl
      · rw [if_neg henough, if_neg (fun h => henough (Nat.le_of_succ_le_succ h))]

/-- A number is what its bits spell. -/
theorem bitsInto_eq (n high : Nat) : bitsInto n high = (do
    let bits ← eachBit n
    return bits.foldl (fun n b => 2 * n + b.toNat) high) := by
  induction n generalizing high with
  | zero => rfl
  | succ n ih =>
    rw [bitsInto, eachBit, bind_assoc]
    refine congrArg (bit >>= ·) (funext fun b => ?_)
    rw [ih, bind_assoc]
    rfl

/-- A field is read if all of its bits are there; if not, those that are there are gone. -/
theorem bits_eq {n : Nat} (h : n ≤ 32) (c : BitCursor) : bits n c =
    if n ≤ c.rest.length then .ok (value (c.rest.take n)) (c.advance n)
    else .error .bitsPastEnd (c.advance c.rest.length) := by
  rw [bits, if_neg (Nat.not_lt.2 h), bitsInto_eq]
  show EStateM.bind (eachBit n) _ c = _
  unfold EStateM.bind
  rw [eachBit_eq]
  by_cases henough : n ≤ c.rest.length
  · rw [if_pos henough, if_pos henough]
    rfl
  · rw [if_neg henough, if_neg henough]

/-- A field that is too wide takes nothing. -/
theorem bits_of_wide {n : Nat} (h : 32 < n) (c : BitCursor) :
    bits n c = .error .bitFieldTooWide c := by
  rw [bits, if_pos h]
  rfl

/-- Bits are passed over if they are there; if not, nothing is taken. -/
theorem skip_eq (n : Nat) (c : BitCursor) : skip n c =
    if n ≤ c.rest.length then .ok () (c.advance n) else .error .skipPastEnd c := by
  unfold skip
  by_cases henough : n ≤ c.rest.length
  · rw [if_pos henough, if_neg (Nat.not_lt.2 henough)]
  · rw [if_neg henough, if_pos (Nat.not_le.1 henough)]

/-- Fields of the same widths give back what was written, as far as it fitted. -/
theorem mapM_bits_finish (fields : List BitField) :
    (fields.mapM fun f => bits f.width).from? (BitWriter.ofFields fields).finish =
      .ok (fields.map fun f => f.value.toNat % 2 ^ f.width) := by
  have hreads : Reads (fields.mapM fun f => bits f.width) (fields.flatMap BitField.bits)
      (fields.map fun f => f.value.toNat % 2 ^ f.width) :=
    Reads.mapM (fun f => Reads.field f.width_le f.value.toNat) fields
  have hpacked := hreads.from?_pack []
  rwa [List.append_nil, ← BitWriter.finish_ofFields] at hpacked

/-- **Bits are written and read as lists.** Fields that are written come to their bits one after the
other, and are read back modulo their ranges. A field of 32 bits at most is read if all of its bits
are left, bits are passed over if they are left, and single bits as many are taken likewise, from
the same place to the same place; a wider field is refused. A code is read off whatever follows it,
for each number that has one of 31 zeros at most. The readers on registers do the same in any bytes
and at any position in them. -/
theorem lists_of_bits :
    -- what is written, and what fields of the same widths read back
    (∀ fields : List BitField,
      (BitWriter.ofFields fields).finish = pack (fields.flatMap BitField.bits) ∧
      (fields.mapM fun f => bits f.width).from? (BitWriter.ofFields fields).finish =
        .ok (fields.map fun f => f.value.toNat % 2 ^ f.width)) ∧
    -- `n` bits as a field, passed over and one by one, wherever the reader is
    (∀ (n : Nat) (c : BitCursor),
      (n ≤ 32 → bits n c =
        if n ≤ c.rest.length then .ok (value (c.rest.take n)) (c.advance n)
        else .error .bitsPastEnd (c.advance c.rest.length)) ∧
      (32 < n → bits n c = .error .bitFieldTooWide c) ∧
      (skip n c =
        if n ≤ c.rest.length then .ok () (c.advance n) else .error .skipPastEnd c) ∧
      eachBit n c =
        if n ≤ c.rest.length then .ok (c.rest.take n) (c.advance n)
        else .error .bitsPastEnd (c.advance c.rest.length)) ∧
    -- codes, which are taken exactly
    (∀ v : Nat, v ≤ 2 ^ 32 - 2 → Reads ue (golomb v) v ∧ Reads uvlc (golomb v) v) ∧
    (∀ v : Int, -(2 ^ 31 - 1) ≤ v → v ≤ 2 ^ 31 - 1 → Reads se (signedGolomb v) v) ∧
    -- registers in any data, at the place of any cursor
    ∀ (data : List UInt8) (c : BitCursor),
      BitMachine.Copies data BitMachine.bit bit c ∧
      (∀ n, BitMachine.Copies data (BitMachine.bits n) (bits n) c) ∧
      (data.length * 8 < 2 ^ 64 → ∀ n, BitMachine.Copies data (BitMachine.skip n) (skip n) c) ∧
      BitMachine.Copies data BitMachine.ue ue c ∧
      BitMachine.Copies data BitMachine.se se c ∧
      ((c.rest.takeWhile (!·)).length < 2 ^ 32 →
        BitMachine.Copies data BitMachine.uvlc uvlc c) := by
  refine ⟨fun fields => ⟨BitWriter.finish_ofFields fields, mapM_bits_finish fields⟩,
    fun n c => ⟨fun h => bits_eq h c, fun h => bits_of_wide h c, skip_eq n c, eachBit_eq n c⟩,
    fun v hv => ?unsigned, fun v hlow hhigh => ?signed, fun data c => ?registers⟩
  case unsigned =>
    have hcode : v < 0xffffffff := by omega
    exact ⟨Reads.ue ⟨v, hcode⟩, Reads.uvlc (.short ⟨v, hcode⟩)⟩
  case signed =>
    have hcode : v.natAbs < 2 ^ 31 := by omega
    exact Reads.se ⟨v, hcode⟩
  case registers =>
    exact ⟨BitMachine.copies_bit, BitMachine.copies_bits, BitMachine.copies_skip,
      BitMachine.copies_ue, BitMachine.copies_se, BitMachine.copies_uvlc⟩

/-- Five fields, the codes of most zeros, and bits that are there or not. -/
theorem lists_of_bits_longest :
    let fields : List BitField :=
      [⟨0b00010, 5, by decide⟩, ⟨0b0100, 4, by decide⟩, ⟨0b0010, 4, by decide⟩,
        ⟨0, 3, by decide⟩, ⟨0xffffffff, 1, by decide⟩]
    (BitWriter.ofFields fields).finish = [0x12, 0x10, 0x80] ∧
    (fields.mapM fun f => bits f.width).from? [0x12, 0x10, 0x80] = .ok [2, 4, 2, 0, 1] ∧
    bits 5 (.ofBytes [0xa6]) = .ok 20 ⟨[true, true, false], 5⟩ ∧
    bits 9 (.ofBytes [0xa6]) = .error .bitsPastEnd ⟨[], 8⟩ ∧
    bits 33 (.ofBytes [0xa6]) = .error .bitFieldTooWide (.ofBytes [0xa6]) ∧
    ue ⟨golomb 4294967294 ++ [true], 0⟩ = .ok 4294967294 ⟨[true], 63⟩ ∧
    se ⟨signedGolomb (-2147483647) ++ [true], 0⟩ = .ok (-2147483647) ⟨[true], 63⟩ ∧
    BitMachine.Agree [0xa6] (BitMachine.skip 5 ⟨[0xa6], 0, 0⟩)
      (.ok () ⟨[true, true, false], 5⟩) ∧
    BitMachine.Agree [0xa6] (BitMachine.uvlc ⟨[0xa6], 0, 0⟩)
      (.ok 0 ⟨[false, true, false, false, true, true, false], 1⟩) := by
  obtain ⟨hwriter, hreaders, hunsigned, hsigned, hregisters⟩ := lists_of_bits
  obtain ⟨-, -, hskip, -, -, huvlc⟩ := hregisters [0xa6] (.ofBytes [0xa6])
  intro fields
  -- what has no variable is evaluated; the readers are instances of the theorem
  have hfinish : (BitWriter.ofFields fields).finish = [0x12, 0x10, 0x80] := by decide +kernel
  have hlong : (golomb 4294967294).length = 63 := by decide +kernel
  refine ⟨hfinish, ?_, (hreaders 5 _).1 (by decide), (hreaders 9 _).1 (by decide),
    (hreaders 33 _).2.1 (by decide), ?_, ?_, hskip (by decide) 5 _ (.initial _),
    huvlc (by decide) _ (.initial _)⟩
  · rw [← hfinish]
    exact (hwriter fields).2
  · have hread := (hunsigned 4294967294 (by decide)).1 [true] 0
    rwa [hlong] at hread
  · have hread := hsigned (-2147483647) (by decide) (by decide) [true] 0
    have hcode : signedGolomb (-2147483647) = golomb 4294967294 := rfl
    rwa [hcode, hlong] at hread

/-- More than 32 bits are refused at once, even where there are enough. -/
theorem not_bits_of_enough :
    ¬((∃ v c', bits 33 (.ofBytes [0, 0, 0, 0, 0]) = .ok v c') ↔
      33 ≤ (BitCursor.ofBytes [0, 0, 0, 0, 0]).rest.length) := by
  intro hclaim
  obtain ⟨v, c', hread⟩ := hclaim.2 (by decide)
  rw [bits_of_wide (by decide)] at hread
  cases hread

end BitTake

end LiveIngest
