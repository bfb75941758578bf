import Mathlib.Tactic.Ring
import LiveIngest.Bits.Leb128

/-!
# LEB128 numbers, there and back

The bytes of a number are a **code** of it: the top bit is set on all but the last one, and the
other seven bits of each are the groups of the number, the lowest group first (`Leb128.Spells`). A
number has codes of many lengths, since groups of zeros may follow its highest one. Such a code is
**padded**.

Reading and writing meet at the codes. A reader finds the code that the bytes open with, padded or
not (`read?_eq_some_iff`), and a writer writes the shortest one (`spells_write`,
`Spells.length_write_le`). The limit of eight bytes is on the reader alone. What makes it a limit on
numbers is `length_write_le_iff`: `n` bytes are enough to write the numbers below 128 ^ n, and no
others.

A program has words of 64 bits, in which it puts groups together with shifts to the left that grow
from byte to byte, and takes them apart with shifts to the right by seven. Eight groups fit in a
word, so that no bit is lost (`readWord?_eq`, `writeWord_eq`).

Main statement: `read_back_below_limit` — numbers are read back exactly if they are below 2 ^ 56,
and what is read is written as it was unless it is padded.
-/

namespace LiveIngest.Leb128

variable {bytes code code' : List UInt8} {v n : Nat}

/-! ### Codes -/

/-- The bytes are a code of the number. -/
inductive Spells : List UInt8 → Nat → Prop
  | last {b : UInt8} (hlast : b.toNat < 128) : Spells [b] b.toNat
  | more {b : UInt8} {code : List UInt8} {high : Nat} (hmore : 128 ≤ b.toNat)
      (h : Spells code high) : Spells (b :: code) (b.toNat % 128 + 128 * high)

/-- The last group of a code is zero, and there are others in front of it. -/
def IsPadded (code : List UInt8) : Prop :=
  1 < code.length ∧ code.getLast? = some 0

instance (code : List UInt8) : Decidable (IsPadded code) :=
  inferInstanceAs (Decidable (_ ∧ _))

/-- No code is empty. -/
theorem Spells.exists_length (h : Spells code v) : ∃ n, code.length = n + 1 := by
  cases h with
  | last => exact ⟨0, rfl⟩
  | @more b code => exact ⟨code.length, rfl⟩

/-- A code has as many groups as bytes, and its number no more. -/
theorem Spells.lt (h : Spells code v) : v < 128 ^ code.length := by
  induction h with
  | last hlast => simpa using hlast
  | more _ _ ih =>
    rw [List.length_cons, Nat.pow_succ]
    omega

/-- The groups in front of the last one are enough exactly if the last one is zero. -/
theorem Spells.lt_iff_getLast? (h : Spells code v) (hlength : code.length = n + 1) :
    v < 128 ^ n ↔ code.getLast? = some 0 := by
  induction h generalizing n with
  | @last b =>
    -- nothing is in front, and zero is the one number of no groups
    obtain rfl : n = 0 := (Nat.succ.inj hlength).symm
    rw [Nat.pow_zero, Nat.lt_one_iff, List.getLast?_singleton, Option.some_inj]
    exact UInt8.toNat_inj (b := 0)
  | @more b code high _ h ih =>
    obtain ⟨m, hm⟩ := h.exists_length
    obtain rfl : n = m + 1 := by rw [← hm, Nat.succ.inj hlength]
    have hlast : (b :: code).getLast? = code.getLast? := by
      cases code with
      | nil => cases hm
      | cons c code => rfl
    rw [hlast, ← ih hm, Nat.pow_succ]
    omega

/-- A number has at most one code of each length. -/
theorem Spells.eq_of_length_eq (h : Spells code v) (h' : Spells code' v)
    (hlength : code.length = code'.length) : code = code' := by
  induction h generalizing code' with
  | @last b hb =>
    generalize hv : b.toNat = w at h'
    cases h' with
    | last => rw [UInt8.toNat_inj.1 hv]
    | more _ h' =>
      -- what follows the first byte is a code too, and not empty
      rw [List.length_eq_zero_iff.1 (Nat.succ.inj hlength).symm] at h'
      cases h'
  | @more b code high hb h ih =>
    generalize hv : b.toNat % 128 + 128 * high = w at h'
    cases h' with
    | last =>
      rw [List.length_eq_zero_iff.1 (Nat.succ.inj hlength)] at h
      cases h
    | @more b' code' high' hb' h' =>
      -- both the lowest groups and what is above them are equal, and the top bits are set
      have hlt := b.toNat_lt
      have hlt' := b'.toNat_lt
      obtain rfl : high = high' := by omega
      have hbyte : b.toNat = b'.toNat := by omega
      rw [UInt8.toNat_inj.1 hbyte, ih h' (Nat.succ.inj hlength)]

/-! ### Writing -/

theorem write_of_lt (h : v < 128) : write v = [UInt8.ofNat v] := by
  rw [write, if_pos h]

theorem write_of_ge (h : 128 ≤ v) :
    write v = UInt8.ofNat (v % 128 + 128) :: write (v / 128) := by
  rw [write, if_neg (Nat.not_lt.2 h)]

/-- What is written is a code. -/
theorem spells_write (v : Nat) : Spells (write v) v := by
  -- the induction is on the groups that are left to be written
  induction v using write.induct with
  | case1 v hlast =>
    have hbyte : (UInt8.ofNat v).toNat = v :=
      UInt8.toNat_ofNat_of_lt' (Nat.lt_trans hlast (by decide))
    have hspells := Spells.last (hbyte.symm ▸ hlast)
    rwa [hbyte, ← write_of_lt hlast] at hspells
  | case2 v hmore ih =>
    have hbyte : (UInt8.ofNat (v % 128 + 128)).toNat = v % 128 + 128 :=
      UInt8.toNat_ofNat_of_lt' (show _ < 256 by omega)
    have hspells := ih.more (hbyte.symm ▸ Nat.le_add_left 128 (v % 128))
    have hv : (v % 128 + 128) % 128 + 128 * (v / 128) = v := by omega
    rwa [hbyte, hv, ← write_of_ge (Nat.not_lt.1 hmore)] at hspells

/-- How many bytes a number is written in. -/
theorem length_write_le_iff : (write v).length ≤ n + 1 ↔ v < 128 ^ (n + 1) := by
  induction n generalizing v with
  | zero =>
    obtain hlast | hmore := Nat.lt_or_ge v 128
    · simpa [write_of_lt hlast] using hlast
    · -- behind the first byte there is at least one more
      obtain ⟨m, hm⟩ := (spells_write (v / 128)).exists_length
      rw [write_of_ge hmore, List.length_cons, hm]
      omega
  | succ n ih =>
    obtain hlast | hmore := Nat.lt_or_ge v 128
    · have hpow : 0 < 128 ^ (n + 1) := Nat.pow_pos (by decide)
      rw [write_of_lt hlast, List.length_singleton, Nat.pow_succ]
      omega
    · rw [write_of_ge hmore, List.length_cons, Nat.add_le_add_iff_right, ih,
        Nat.pow_succ 128 (n + 1), Nat.div_lt_iff_lt_mul (by decide)]

/-- No code is shorter than what is written. -/
theorem Spells.length_write_le (h : Spells code v) : (write v).length ≤ code.length := by
  obtain ⟨n, hn⟩ := h.exists_length
  rw [hn, length_write_le_iff, ← hn]
  exact h.lt

/-- A code is padded exactly if there is a shorter one. -/
theorem Spells.isPadded_iff (h : Spells code v) :
    IsPadded code ↔ (write v).length < code.length := by
  obtain ⟨n, hn⟩ := h.exists_length
  rw [IsPadded, ← h.lt_iff_getLast? hn, hn]
  cases n with
  | zero =>
    -- a single group is not padded, and nothing is written in no bytes
    obtain ⟨m, hm⟩ := (spells_write v).exists_length
    omega
  | succ n =>
    have hshorter : (write v).length < n + 1 + 1 ↔ v < 128 ^ (n + 1) :=
      Nat.lt_succ_iff.trans length_write_le_iff
    rw [hshorter]
    apply and_iff_right
    omega

/-- **A code is what is written, unless it is padded.** -/
theorem Spells.write_eq_iff (h : Spells code v) : write v = code ↔ ¬IsPadded code := by
  rw [h.isPadded_iff, Nat.not_lt]
  constructor
  · rintro rfl
    exact Nat.le_refl _
  · intro hle
    apply (spells_write v).eq_of_length_eq h
    exact Nat.le_antisymm h.length_write_le hle

/-! ### Reading -/

/-- A number that does not end: none of its bytes has the top bit clear. -/
theorem readAll?_eq_none_iff : readAll? bytes = none ↔ ∀ b ∈ bytes, 128 ≤ b.toNat := by
  induction bytes with
  | nil => simp [readAll?]
  -- a byte with the top bit clear is the last one
  | cons b rest ih =>
    rw [readAll?, List.forall_mem_cons]
    split
    · rename_i hlast
      simp only [reduceCtorEq, false_iff, not_and]
      omega
    · rename_i hmore
      rw [Option.map_eq_none_iff, ih]
      exact (and_iff_right (Nat.le_of_not_lt hmore)).symm

theorem Spells.readAll?_append (h : Spells code v) (rest : List UInt8) :
    readAll? (code ++ rest) = some (v, code.length) := by
  induction h with
  | last hlast => exact if_pos hlast
  | more hmore _ ih =>
    rw [List.cons_append, readAll?, if_neg (Nat.not_lt.2 hmore), ih]
    rfl

/-- A code whose end is cut off does not end. -/
theorem Spells.readAll?_take (h : Spells code v) (hn : n < code.length) :
    readAll? (code.take n) = none := by
  induction h generalizing n with
  | last =>
    obtain rfl : n = 0 := Nat.lt_one_iff.1 hn
    rfl
  | more hmore _ ih =>
    -- what is left of the code still goes on, since its last byte is cut off
    cases n with
    | zero => rfl
    | succ n =>
      rw [List.take_succ_cons, readAll?, if_neg (Nat.not_lt.2 hmore),
        ih (Nat.lt_of_succ_lt_succ hn)]
      rfl

theorem spells_of_readAll? (h : readAll? bytes = some (v, n)) :
    n ≤ bytes.length ∧ Spells (bytes.take n) v := by
  induction bytes generalizing v n with
  | nil => cases h
  | cons b rest ih =>
    rw [readAll?] at h
    split at h
    · rename_i hlast
      cases h
      exact ⟨Nat.succ_pos _, .last hlast⟩
    · rename_i hmore
      obtain ⟨⟨high, n⟩, hrest, hv⟩ := Option.map_eq_some_iff.1 h
      cases hv
      obtain ⟨hle, hspells⟩ := ih hrest
      exact ⟨Nat.succ_le_succ hle, .more (Nat.not_lt.1 hmore) hspells⟩

/-- **A code is read in front of anything**, if it is not too long. -/
theorem Spells.read?_append (h : Spells code v) (rest : List UInt8) :
    read? (code ++ rest) = if code.length ≤ 8 then some (v, code.length) else none := by
  rw [read?]
  split
  · -- all of the code is among the bytes that are looked at
    rename_i hle
    rw [List.take_append, List.take_of_length_le hle, h.readAll?_append]
  · -- the end of the code is not
    rename_i hlong
    rw [List.take_append_of_le_length (by omega), h.readAll?_take (by omega)]

/-- **What is read is a code** of at most eight bytes, and every such code is read. -/
theorem read?_eq_some_iff :
    read? bytes = some (v, n) ↔ n ≤ 8 ∧ n ≤ bytes.length ∧ Spells (bytes.take n) v := by
  constructor
  · intro h
    obtain ⟨hle, hspells⟩ := spells_of_readAll? h
    -- only eight bytes are looked at
    rw [List.length_take, Nat.le_min] at hle
    rw [List.take_take, Nat.min_eq_left hle.1] at hspells
    exact ⟨hle.1, hle.2, hspells⟩
  · rintro ⟨hn, hle, hspells⟩
    have hread := hspells.read?_append (bytes.drop n)
    rwa [List.take_append_drop, List.length_take_of_le hle, if_pos hn] at hread

/-! ### Words of 64 bits -/

/-- Read on, when the groups of `i` bytes are in the word. -/
def readInto (word : UInt64) (i : Nat) : List UInt8 → Option (UInt64 × Nat)
  | [] => none
  | b :: rest =>
    let word := word ||| (b &&& 0x7f).toUInt64 <<< UInt64.ofNat (i * 7)
    if b &&& 0x80 = 0 then some (word, i + 1) else readInto word (i + 1) rest

/-- Read a number of at most eight bytes into a word, and count its bytes. -/
def readWord? (bytes : List UInt8) : Option (UInt64 × Nat) :=
  readInto 0 0 (bytes.take 8)

theorem toNat_shiftRight_seven (word : UInt64) : (word >>> 7).toNat = word.toNat / 128 := by
  rw [UInt64.toNat_shiftRight]
  exact Nat.shiftRight_eq_div_pow word.toNat 7

/-- Write a word, from which each byte takes a group off. -/
def writeWord (word : UInt64) : List UInt8 :=
  let byte := (word &&& 0x7f).toUInt8
  let high := word >>> 7
  if high = 0 then [byte] else (byte ||| 0x80) :: writeWord high
termination_by word.toNat
decreasing_by
  rename_i hhigh
  have hne : (word >>> 7).toNat ≠ 0 := fun h => hhigh (UInt64.toNat_inj.1 h)
  rw [toNat_shiftRight_seven] at hne ⊢
  omega

theorem topBit_eq_zero_iff (b : UInt8) : b &&& 0x80 = 0 ↔ b.toNat < 128 := by
  have hall : ∀ v : BitVec 8, UInt8.ofBitVec v &&& 0x80 = 0 ↔ v.toNat < 128 := by
    decide +kernel
  exact hall b.toBitVec

theorem toNat_setTopBit {b : UInt8} (h : b.toNat < 128) :
    (b ||| 0x80).toNat = b.toNat + 128 := by
  rw [UInt8.toNat_or, Nat.or_comm, Nat.add_comm]
  exact (Nat.two_pow_add_eq_or_of_lt (i := 7) h 1).symm

theorem toNat_group (b : UInt8) : (b &&& 0x7f).toNat = b.toNat % 128 := by
  rw [UInt8.toNat_and]
  exact Nat.and_two_pow_sub_one_eq_mod b.toNat 7

theorem toNat_lowGroup (word : UInt64) : (word &&& 0x7f).toUInt8.toNat = word.toNat % 128 := by
  have hgroup : (word &&& 0x7f).toNat = word.toNat % 128 := by
    rw [UInt64.toNat_and]
    exact Nat.and_two_pow_sub_one_eq_mod word.toNat 7
  rw [UInt64.toNat_toUInt8, hgroup]
  omega

/-- A group goes above those that are there, and stays within the word. -/
theorem toNat_or_group {word : UInt64} {i : Nat} (hi : i < 8) (hword : word.toNat < 2 ^ (i * 7))
    (b : UInt8) : (word ||| (b &&& 0x7f).toUInt64 <<< UInt64.ofNat (i * 7)).toNat =
      word.toNat + 2 ^ (i * 7) * (b.toNat % 128) := by
  have hplace : i * 7 < 64 := by omega
  have hshift : (UInt64.ofNat (i * 7)).toNat = i * 7 :=
    UInt64.toNat_ofNat_of_lt' (Nat.lt_trans hplace (by decide))
  have hpow : 2 ^ (i * 7) ≤ 2 ^ 49 := Nat.pow_le_pow_right Nat.two_pos (by omega)
  have hmod : b.toNat % 128 < 128 := Nat.mod_lt _ (by decide)
  have hgroup : b.toNat % 128 * 2 ^ (i * 7) < 2 ^ 64 :=
    Nat.lt_trans (Nat.mul_lt_mul_of_lt_of_le hmod hpow (by decide)) (by decide)
  calc (word ||| (b &&& 0x7f).toUInt64 <<< UInt64.ofNat (i * 7)).toNat
      = word.toNat ||| b.toNat % 128 * 2 ^ (i * 7) % 2 ^ 64 := by
        rw [UInt64.toNat_or, UInt64.toNat_shiftLeft, UInt8.toNat_toUInt64, toNat_group, hshift,
          Nat.mod_eq_of_lt hplace, Nat.shiftLeft_eq]
    -- no bit of the group is shifted out
    _ = 2 ^ (i * 7) * (b.toNat % 128) ||| word.toNat := by
        rw [Nat.mod_eq_of_lt hgroup, Nat.mul_comm, Nat.or_comm]
    -- and none is put on top of another
    _ = word.toNat + 2 ^ (i * 7) * (b.toNat % 128) := by
        rw [← Nat.two_pow_add_eq_or_of_lt hword, Nat.add_comm]

/-- What is there already is below what is still to be read. -/
theorem readInto_eq {word : UInt64} {i : Nat} (hi : i + bytes.length ≤ 8)
    (hword : word.toNat < 2 ^ (i * 7)) :
    (readInto word i bytes).map (Prod.map UInt64.toNat id) =
      (readAll? bytes).map (Prod.map (word.toNat + 2 ^ (i * 7) * ·) (i + ·)) := by
  induction bytes generalizing word i with
  | nil => rfl
  | cons b rest ih =>
    rw [List.length_cons] at hi
    have hput := toNat_or_group (by omega) hword b
    rw [readInto, readAll?]
    by_cases hlast : b.toNat < 128
    · rw [Nat.mod_eq_of_lt hlast] at hput
      rw [if_pos ((topBit_eq_zero_iff b).2 hlast), if_pos hlast, Option.map_some, Prod.map_apply,
        hput]
      rfl
    · -- seven more bits are taken, and the rest goes above them
      have hpow : 2 ^ ((i + 1) * 7) = 2 ^ (i * 7) * 128 := by
        rw [Nat.add_mul, Nat.pow_add]
      have hgroup : 2 ^ (i * 7) * (b.toNat % 128) ≤ 2 ^ (i * 7) * 127 :=
        Nat.mul_le_mul_left _ (by omega)
      rw [if_neg (mt (topBit_eq_zero_iff b).1 hlast), if_neg hlast,
        ih (by omega) (by omega), hput, hpow]
      cases readAll? rest with
      | none => rfl
      | some found =>
        obtain ⟨high, n⟩ := found
        have hvalue : word.toNat + 2 ^ (i * 7) * (b.toNat % 128) + 2 ^ (i * 7) * 128 * high =
            word.toNat + 2 ^ (i * 7) * (b.toNat % 128 + 128 * high) := by
          ring
        have hcount : i + 1 + n = i + (n + 1) := by omega
        exact congrArg some (Prod.ext hvalue hcount)

/-- **A word holds what is read.** -/
theorem readWord?_eq (bytes : List UInt8) :
    (readWord? bytes).map (Prod.map UInt64.toNat id) = read? bytes := by
  -- eight groups of seven bits do not fill a word
  have hlength : 0 + (bytes.take 8).length ≤ 8 := by
    rw [Nat.zero_add]
    exact List.length_take_le 8 bytes
  have hread : (readInto 0 0 (bytes.take 8)).map _ = _ := readInto_eq hlength (by decide)
  have hsame : Prod.map ((0 : UInt64).toNat + 2 ^ (0 * 7) * ·) (0 + ·) =
      (id : Nat × Nat → Nat × Nat) := by
    funext ⟨high, n⟩
    simp
  rwa [hsame, Option.map_id] at hread

/-- **A word is written as its number.** -/
theorem writeWord_eq (word : UInt64) : writeWord word = write word.toNat := by
  -- along the loop: the last group, or a group with more to come
  fun_induction writeWord word with
  | case1 word byte high hhigh =>
    have hbyte : byte.toNat = word.toNat % 128 := toNat_lowGroup word
    have hshift : high.toNat = word.toNat / 128 := toNat_shiftRight_seven word
    rw [hhigh, UInt64.toNat_zero] at hshift
    have hlt : word.toNat < 128 := by omega
    calc [byte] = [UInt8.ofNat (word.toNat % 128)] := by rw [← hbyte, UInt8.ofNat_toNat]
      _ = write word.toNat := by rw [Nat.mod_eq_of_lt hlt, write_of_lt hlt]
  | case2 word byte high hhigh ih =>
    have hbyte : byte.toNat = word.toNat % 128 := toNat_lowGroup word
    have hshift : high.toNat = word.toNat / 128 := toNat_shiftRight_seven word
    have hne : high.toNat ≠ 0 := fun h => hhigh (UInt64.toNat_inj.1 h)
    have hset : (byte ||| 0x80).toNat = word.toNat % 128 + 128 := by
      rw [toNat_setTopBit (by omega), hbyte]
    calc (byte ||| 0x80) :: writeWord high
        = UInt8.ofNat (word.toNat % 128 + 128) :: write (word.toNat / 128) := by
          rw [ih, hshift, ← hset, UInt8.ofNat_toNat]
      _ = write word.toNat := (write_of_ge (by omega)).symm

/-! ### The limit -/

/-- **Numbers are read back below the limit.** A number that is written in front of anything is read
back if it is below 2 ^ 56, with as many bytes as were written, and is not read if it is not. What
is read from any bytes is the number that the first of them spell, eight at most; it is below
2 ^ 56, and written again it takes no more bytes, the same ones exactly if these are not padded.
Words of 64 bits come to the same in reading and in writing. -/
theorem read_back_below_limit :
    -- what was written
    (∀ (v : Nat) (rest : List UInt8),
      read? (write v ++ rest) = if v < 2 ^ 56 then some (v, (write v).length) else none) ∧
    -- what is read
    (∀ (bytes : List UInt8) (v n : Nat),
      read? bytes = some (v, n) ↔ n ≤ 8 ∧ n ≤ bytes.length ∧ Spells (bytes.take n) v) ∧
    (∀ (bytes : List UInt8) (v n : Nat), read? bytes = some (v, n) →
      v < 2 ^ 56 ∧ n ≤ 8 ∧ n ≤ bytes.length ∧ (write v).length ≤ n ∧
        (write v = bytes.take n ↔ ¬IsPadded (bytes.take n))) ∧
    -- in words
    (∀ bytes : List UInt8, (readWord? bytes).map (Prod.map UInt64.toNat id) = read? bytes) ∧
    ∀ word : UInt64, writeWord word = write word.toNat := by
  have hlimit (v : Nat) : (write v).length ≤ 8 ↔ v < 2 ^ 56 := length_write_le_iff
  refine ⟨?written, fun _ _ _ => read?_eq_some_iff, ?read, readWord?_eq, writeWord_eq⟩
  case written =>
    intro v rest
    rw [(spells_write v).read?_append]
    simp only [hlimit]
  case read =>
    intro bytes v n h
    obtain ⟨hn, hle, hspells⟩ := read?_eq_some_iff.1 h
    have hlength : (bytes.take n).length = n := List.length_take_of_le hle
    have hshort : (write v).length ≤ n := hlength ▸ hspells.length_write_le
    -- the shortest code of the number has eight bytes at most, as the one that was read
    have hv : v < 2 ^ 56 := (hlimit v).1 (Nat.le_trans hshort hn)
    exact ⟨hv, hn, hle, hshort, hspells.write_eq_iff⟩

/-- A number of three bytes, the first one that needs nine, and one that is read from a padded
code. -/
theorem read_back_below_limit_padded :
    read? (write 624485 ++ [0xff]) = some (624485, (write 624485).length) ∧
    read? (write (2 ^ 56) ++ [0xff]) = none ∧
    read? [0xe5, 0x8e, 0xa6, 0x00, 0xff] = some (624485, 4) ∧
    Spells [0xe5, 0x8e, 0xa6, 0x00] 624485 ∧ IsPadded [0xe5, 0x8e, 0xa6, 0x00] ∧
    (write 624485).length ≤ 4 ∧ write 624485 ≠ [0xe5, 0x8e, 0xa6, 0x00] ∧
    writeWord 624485 = write 624485 := by
  obtain ⟨hwritten, hspelled, hread, -, hword⟩ := read_back_below_limit
  have hbytes : read? [0xe5, 0x8e, 0xa6, 0x00, 0xff] = some (624485, 4) := by decide
  have hpadded : IsPadded [0xe5, 0x8e, 0xa6, 0x00] := by decide
  obtain ⟨-, -, hspells⟩ := (hspelled _ _ _).1 hbytes
  obtain ⟨-, -, -, hshort, hsame⟩ := hread _ _ _ hbytes
  exact ⟨hwritten 624485 [0xff], hwritten (2 ^ 56) [0xff], hbytes, hspells, hpadded,
    hshort, fun h => hsame.1 h hpadded, hword 624485⟩

end LiveIngest.Leb128
