import Mathlib.Data.List.Induction
import Mathlib.Tactic.Ring
import LiveIngest.Bytes.Endian

/-!
# Integers as bytes, and back

A field that is wide enough gives back the number that was written: `ofBigEndian_bigEndian` and
`ofLittleEndian_littleEndian`. A field that is too narrow keeps the number modulo its range
(`ofBigEndian_bigEndian_mod`). The other way round, a field is always written as it was read:
`bigEndian_ofBigEndian`.
-/

namespace LiveIngest.Bytes

/-- The first byte is the highest digit in base 256. -/
theorem bigEndian_succ (w n : Nat) :
    bigEndian (w + 1) n = UInt8.ofNat (n / 256 ^ w) :: bigEndian w n := by
  rw [bigEndian, Nat.shiftRight_eq_div_pow, Nat.pow_mul]

/-- Reading goes on from the number that was read before. -/
theorem foldl_bigEndian (start w n : Nat) :
    (bigEndian w n).foldl (fun m b => m * 256 + b.toNat) start = start * 256 ^ w + n % 256 ^ w := by
  induction w generalizing start with
  | zero => simp [bigEndian, Nat.mod_one]
  | succ w ih =>
    have hbyte : (UInt8.ofNat (n / 256 ^ w)).toNat = n / 256 ^ w % 256 := UInt8.toNat_ofNat'
    rw [bigEndian_succ, List.foldl_cons, ih, hbyte, Nat.mod_pow_succ, Nat.pow_succ]
    ring

/-- A number that does not fit its bytes loses the upper ones. -/
theorem ofBigEndian_bigEndian_mod (w n : Nat) : ofBigEndian (bigEndian w n) = n % 256 ^ w := by
  rw [ofBigEndian, foldl_bigEndian, Nat.zero_mul, Nat.zero_add]

theorem ofBigEndian_bigEndian {w n : Nat} (h : n < 256 ^ w) :
    ofBigEndian (bigEndian w n) = n := by
  rw [ofBigEndian_bigEndian_mod, Nat.mod_eq_of_lt h]

/-- The last byte is the lowest digit in base 256. -/
theorem bigEndian_concat (w n : Nat) :
    bigEndian (w + 1) n = bigEndian w (n / 256) ++ [UInt8.ofNat n] := by
  induction w with
  | zero => rfl
  | succ w ih =>
    rw [bigEndian_succ, ih, bigEndian_succ w (n / 256), Nat.div_div_eq_div_mul, ← Nat.pow_succ',
      List.cons_append]

theorem ofBigEndian_concat (bytes : List UInt8) (b : UInt8) :
    ofBigEndian (bytes ++ [b]) = ofBigEndian bytes * 256 + b.toNat :=
  List.foldl_append

/-- Bytes are digits. -/
theorem ofBigEndian_lt (bytes : List UInt8) : ofBigEndian bytes < 256 ^ bytes.length := by
  induction bytes using List.reverseRecOn with
  | nil => exact Nat.one_pos
  | append_singleton bytes b ih =>
    have hb := b.toNat_lt
    rw [ofBigEndian_concat, List.length_append, List.length_singleton, Nat.pow_succ]
    omega

/-- **A field is written as it was read.** -/
theorem bigEndian_ofBigEndian (bytes : List UInt8) :
    bigEndian bytes.length (ofBigEndian bytes) = bytes := by
  induction bytes using List.reverseRecOn with
  | nil => rfl
  | append_singleton bytes b ih =>
    -- the last byte is the remainder, the front the quotient
    have hfront : (ofBigEndian bytes * 256 + b.toNat) / 256 = ofBigEndian bytes := by
      have hb := b.toNat_lt
      omega
    have hlast : UInt8.ofNat (ofBigEndian bytes * 256 + b.toNat) = b := by
      refine UInt8.toNat_inj.1 ?_
      have hb := b.toNat_lt
      rw [UInt8.toNat_ofNat']
      omega
    rw [List.length_append, List.length_singleton, bigEndian_concat, ofBigEndian_concat, hfront,
      hlast, ih]

/-- The same with the lowest byte first. -/
theorem ofLittleEndian_littleEndian {w n : Nat} (h : n < 256 ^ w) :
    ofLittleEndian (littleEndian w n) = n := by
  induction w generalizing n with
  | zero =>
    rw [Nat.pow_zero, Nat.lt_one_iff] at h
    rw [h]
    rfl
  | succ w ih =>
    have hrest : n / 256 < 256 ^ w := Nat.div_lt_of_lt_mul (by rwa [Nat.mul_comm, ← Nat.pow_succ])
    have hbyte : (UInt8.ofNat n).toNat = n % 256 := UInt8.toNat_ofNat'
    rw [littleEndian, ofLittleEndian, ih hrest, hbyte]
    exact Nat.mod_add_div n 256

theorem ofNat_ofBigEndian_bigEndian (v : UInt32) :
    UInt32.ofNat (ofBigEndian (bigEndian 4 v.toNat)) = v := by
  rw [ofBigEndian_bigEndian (show v.toNat < 256 ^ 4 from v.toNat_lt), UInt32.ofNat_toNat]

theorem ofNat_ofLittleEndian_littleEndian (v : UInt32) :
    UInt32.ofNat (ofLittleEndian (littleEndian 4 v.toNat)) = v := by
  rw [ofLittleEndian_littleEndian (show v.toNat < 256 ^ 4 from v.toNat_lt), UInt32.ofNat_toNat]

end LiveIngest.Bytes
