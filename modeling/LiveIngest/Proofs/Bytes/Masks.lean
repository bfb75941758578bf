/-!
# Masks

The fields of a byte are cut out with masks, and its reserved bits are set or cleared with them.
Where two masks have no bits in common, or one lies within the other, a field is read as it was
(`or_and_of_disjoint`, `and_and_of_within`). A byte is put together of what is around a field and
the field (`or_and_of_cover`, `and_or_and`), of fields that were shifted down (`field_shiftLeft`),
and of its flags (`flag_shiftLeft`).
-/

namespace LiveIngest.Bytes

/-- A field of two bytes that are put together is put together of their fields. -/
theorem or_and (m b k : UInt8) : (m ||| b) &&& k = (m &&& k) ||| (b &&& k) :=
  UInt8.toBitVec_inj.1 BitVec.and_or_distrib_right

/-- Bits that are set outside of a field do not touch it. -/
theorem or_and_of_disjoint {m k : UInt8} (h : m &&& k = 0) (b : UInt8) :
    (m ||| b) &&& k = b &&& k := by
  rw [or_and, h, UInt8.zero_or]

/-- A mask leaves nothing of a field outside of it. -/
theorem and_and_of_disjoint {m k : UInt8} (h : m &&& k = 0) (b : UInt8) : b &&& m &&& k = 0 := by
  rw [UInt8.and_assoc, h, UInt8.and_zero]

/-- A field lies within what a larger mask leaves of the byte. -/
theorem and_and_of_within {m k : UInt8} (h : m &&& k = k) (b : UInt8) :
    b &&& m &&& k = b &&& k := by
  rw [UInt8.and_assoc, h]

/-- Two fields side by side are one field. -/
theorem and_or_and (b m k : UInt8) : (b &&& m) ||| (b &&& k) = b &&& (m ||| k) := by
  rw [UInt8.and_comm b m, UInt8.and_comm b k, ← or_and, UInt8.and_comm]

/-- All bits are one field. -/
theorem and_all (b : UInt8) : b &&& 0xff = b :=
  UInt8.toBitVec_inj.1 BitVec.and_allOnes

/-- What a field leaves out may be set to ones, whatever it was. -/
theorem or_and_of_cover {m k : UInt8} (h : m ||| k = 0xff) (b : UInt8) :
    m ||| (b &&& k) = m ||| b := by
  have hall : m ||| b = (m ||| b) &&& (m ||| k) := by rw [h, and_all]
  rw [hall]
  refine UInt8.toBitVec_inj.1 (BitVec.eq_of_getLsbD_eq fun i hi => ?_)
  simp [Bool.or_and_distrib_left]

/-- A field that was shifted down is put back where it was. -/
theorem field_shiftLeft (b m i : UInt8) : (b >>> i &&& m) <<< i = b &&& (m <<< i) := by
  refine UInt8.toBitVec_inj.1 (BitVec.eq_of_getLsbD_eq fun k hk => ?_)
  simp only [UInt8.toBitVec_shiftLeft, UInt8.toBitVec_and, UInt8.toBitVec_shiftRight,
    BitVec.shiftLeft_eq', BitVec.ushiftRight_eq', BitVec.getLsbD_shiftLeft, BitVec.getLsbD_and,
    BitVec.getLsbD_ushiftRight]
  generalize (i.toBitVec % 8).toNat = n
  -- the lowest bits are zeros on both sides, and the others come back to where they were
  by_cases hlow : k < n
  · simp [hlow]
  · rw [Nat.add_sub_cancel' (Nat.le_of_not_lt hlow)]
    simp [hlow, hk]

/-- A flag, the one bit of its mask, is set or it is not. -/
theorem flag_cases {m i : UInt8} (h : m = 1 <<< i) (b : UInt8) : b &&& m = 0 ∨ b &&& m = m := by
  have hm : m.toBitVec = BitVec.twoPow 8 (i.toBitVec % 8).toNat := by
    rw [h, UInt8.toBitVec_shiftLeft, BitVec.shiftLeft_eq']
    rfl
  have hand : (b &&& m).toBitVec = b.toBitVec &&& m.toBitVec := UInt8.toBitVec_and b m
  rw [hm, BitVec.and_twoPow, ← hm] at hand
  split at hand
  · exact Or.inr (UInt8.toBitVec_inj.1 hand)
  · exact Or.inl (UInt8.toBitVec_inj.1 hand)

/-- A flag is put back where it was. -/
theorem flag_shiftLeft {m i : UInt8} (h : m = 1 <<< i) (b : UInt8) :
    (b &&& m != 0).toUInt8 <<< i = b &&& m := by
  by_cases hclear : b &&& m = 0
  · rw [hclear]
    exact UInt8.zero_shiftLeft
  · rw [bne_iff_ne.2 hclear, (flag_cases h b).resolve_left hclear, h]
    rfl

end LiveIngest.Bytes
