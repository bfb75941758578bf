import Mathlib.Tactic.Ring
import LiveIngest.Bits.Basic

/-!
# Bits, numbers and bytes

A field spells the number that was written, modulo its range (`value_field`), and a number spelled
by bits is written as those bits (`field_value`). From this follows what bytes filled up with zeros
spell: the bits that were packed, and the zeros behind them (`ofBytes_pack`).
-/

namespace LiveIngest.Bits

/-! ### Fields -/

/-- Reading goes on from the number that was read before. -/
theorem foldl_eq_value (start : Nat) (bits : List Bool) :
    bits.foldl (fun n b => 2 * n + b.toNat) start = start * 2 ^ bits.length + value bits := by
  induction bits generalizing start with
  | nil => simp [value]
  | cons b rest ih =>
    have hrest : value (b :: rest) = b.toNat * 2 ^ rest.length + value rest := by
      rw [value, List.foldl_cons, ih, Nat.mul_zero, Nat.zero_add]
    rw [List.foldl_cons, ih, hrest, List.length_cons, Nat.pow_succ]
    ring

theorem value_cons (b : Bool) (rest : List Bool) :
    value (b :: rest) = b.toNat * 2 ^ rest.length + value rest := by
  rw [value, List.foldl_cons, foldl_eq_value, Nat.mul_zero, Nat.zero_add]

theorem value_lt (bits : List Bool) : value bits < 2 ^ bits.length := by
  induction bits with
  | nil => exact Nat.one_pos
  | cons b rest ih =>
    have hb : b.toNat * 2 ^ rest.length ≤ 1 * 2 ^ rest.length :=
      Nat.mul_le_mul_right _ (Bool.toNat_le b)
    rw [value_cons, List.length_cons, Nat.pow_succ]
    omega

/-- A field that is too narrow keeps the number modulo its range. -/
theorem value_field (w n : Nat) : value (field w n) = n % 2 ^ w := by
  induction w with
  | zero => rw [Nat.pow_zero, Nat.mod_one]; rfl
  | succ w ih =>
    rw [field, value_cons, length_field, ih, Nat.toNat_testBit, Nat.mod_pow_succ]
    ring

/-- Where a bit of a number stands in its field. -/
theorem getElem?_field {w j : Nat} (h : j < w) (n : Nat) :
    (field w n)[j]? = some (n.testBit (w - 1 - j)) := by
  induction w generalizing j with
  | zero => exact absurd h (Nat.not_lt_zero j)
  | succ w ih =>
    cases j with
    | zero => rfl
    | succ j =>
      have hindex : w - 1 - j = w + 1 - 1 - (j + 1) := by omega
      rw [field, List.getElem?_cons_succ, ih (Nat.lt_of_succ_lt_succ h), hindex]

/-- Bits above a field do not show in it. -/
theorem field_mod_two_pow {w k : Nat} (h : w ≤ k) (n : Nat) : field w (n % 2 ^ k) = field w n := by
  induction w with
  | zero => rfl
  | succ w ih =>
    rw [field, field, ih (Nat.le_of_succ_le h), Nat.testBit_mod_two_pow,
      decide_eq_true (Nat.lt_of_succ_le h), Bool.true_and]

/-- **A number is written as it was read.** -/
theorem field_value (bits : List Bool) : field bits.length (value bits) = bits := by
  induction bits with
  | nil => rfl
  | cons b rest ih =>
    -- the first bit is the highest one of the number, the others are its remainder
    have htop : (value (b :: rest)).testBit rest.length = b := by
      rw [value_cons, Nat.mul_comm, Nat.testBit_two_pow_mul_add _ (value_lt rest),
        if_neg (Nat.lt_irrefl _), Nat.sub_self]
      cases b <;> rfl
    have hlow : value (b :: rest) % 2 ^ rest.length = value rest := by
      rw [value_cons, Nat.add_comm, Nat.add_mul_mod_self_right, Nat.mod_eq_of_lt (value_lt rest)]
    rw [List.length_cons, field, htop, ← field_mod_two_pow (Nat.le_refl _), hlow, ih]

/-! ### Bytes -/

theorem ofBytes_cons (b : UInt8) (rest : List UInt8) :
    ofBytes (b :: rest) = field 8 b.toNat ++ ofBytes rest :=
  List.flatMap_cons

theorem length_ofBytes (bytes : List UInt8) : (ofBytes bytes).length = 8 * bytes.length := by
  induction bytes with
  | nil => rfl
  | cons b rest ih =>
    rw [ofBytes_cons, List.length_append, length_field, ih, List.length_cons]
    omega

/-- Where a bit stands in its byte. -/
theorem getElem?_ofBytes (bytes : List UInt8) {k j : Nat} (h : j < 8) :
    (ofBytes bytes)[8 * k + j]? = bytes[k]?.map fun b => b.toNat.testBit (7 - j) := by
  -- on the bytes, each of which takes eight places
  induction bytes generalizing k with
  | nil => rfl
  | cons b rest ih =>
    rw [ofBytes_cons]
    cases k with
    | zero =>
      have hinside : 8 * 0 + j < (field 8 b.toNat).length := by
        rw [length_field]
        omega
      rw [List.getElem?_append_left hinside, Nat.mul_zero, Nat.zero_add, getElem?_field h]
      rfl
    | succ k =>
      have hbehind : (field 8 b.toNat).length ≤ 8 * (k + 1) + j := by
        rw [length_field]
        omega
      have hindex : 8 * (k + 1) + j - 8 = 8 * k + j := by omega
      rw [List.getElem?_append_right hbehind, length_field, hindex, ih]
      rfl

/-- Eight bits are a byte. -/
theorem field_ofNat_value {octet : List Bool} (h : octet.length = 8) :
    field 8 (UInt8.ofNat (value octet)).toNat = octet := by
  have hlt := value_lt octet
  rw [h] at hlt
  have hbyte : (UInt8.ofNat (value octet)).toNat = value octet := UInt8.toNat_ofNat_of_lt' hlt
  rw [hbyte, ← h]
  exact field_value octet

/-- **Packed bits are read back**, and behind them the zeros that fill up the last byte. -/
theorem ofBytes_pack (bits : List Bool) :
    ofBytes (pack bits) = bits ++ List.replicate ((8 - bits.length % 8) % 8) false := by
  fun_induction pack bits with
  | case1 => rfl
  | case2 b rest octet padding ih =>
    have hoctet : (octet ++ padding).length = 8 := by
      have hlen : octet.length ≤ 8 := List.length_take_le 8 _
      rw [List.length_append, List.length_replicate]
      omega
    rw [ofBytes_cons, field_ofNat_value hoctet, ih]
    by_cases hlong : 8 ≤ (b :: rest).length
    · -- a whole byte, and nothing to fill up
      have hfull : octet.length = 8 := by rw [List.length_take, Nat.min_eq_left hlong]
      have hnone : padding = [] := by rw [← List.length_eq_zero_iff]; simp [padding, hfull]
      rw [hnone, List.append_nil, ← List.append_assoc, List.take_append_drop, List.length_drop]
      congr 2
      omega
    · -- the last byte
      have hdrop : (b :: rest).drop 8 = [] := List.drop_eq_nil_of_le (by omega)
      have htake : octet = b :: rest := List.take_of_length_le (by omega)
      have hzeros : 8 - (b :: rest).length = (8 - (b :: rest).length % 8) % 8 := by
        rw [List.length_cons] at hlong ⊢
        omega
      have hpadding : padding = List.replicate ((8 - (b :: rest).length % 8) % 8) false := by
        rw [← hzeros, ← htake]
      rw [hdrop, htake, hpadding]
      exact List.append_nil _

end LiveIngest.Bits
