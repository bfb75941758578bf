import LiveIngest.Codec.Units
import LiveIngest.Proofs.Bytes.Endian

/-!
# Reading units

Units behind a length of two bytes are read exactly as they were written: what the readers of a
record accept, they give back without loss, and nothing else would be read as the same.

Main statement: `readUnits_eq_ok_iff`.
-/

namespace LiveIngest.Codec

variable {record : ConfigRecord} {kind : RecordUnit}

/-- The two bytes of a length, and what is read off them. -/
theorem exists_lengthBytes {n : Nat} (h : n < 256 ^ 2) :
    ∃ high low, Bytes.bigEndian 2 n = [high, low] ∧ Bytes.ofBigEndian [high, low] = n :=
  ⟨_, _, rfl, Bytes.ofBigEndian_bigEndian h⟩

/-- A unit is read exactly off its size of 16 bits and its bytes. -/
theorem readUnit_eq_ok_iff {bytes unit rest : List UInt8} :
    readUnit record kind bytes = .ok (unit, rest) ↔
      unit.length < 256 ^ 2 ∧ bytes = writeUnit unit ++ rest := by
  constructor
  · intro h
    unfold readUnit at h
    split at h
    · rename_i high low behind
      dsimp only at h
      split at h
      · cases h
      · rename_i hwhole
        obtain ⟨hunit, hrest⟩ := Prod.mk.inj (Except.ok.inj h)
        -- what was taken has the length that stands in front of it, and so it fits the two bytes
        have hsize : Bytes.ofBigEndian [high, low] < 256 ^ 2 := Bytes.ofBigEndian_lt [high, low]
        have hle := List.length_take_le (Bytes.ofBigEndian [high, low]) behind
        rw [hunit] at hwhole hle
        have hlength : unit.length = Bytes.ofBigEndian [high, low] := by omega
        have hprefix : Bytes.bigEndian 2 unit.length = [high, low] := by
          rw [hlength]
          exact Bytes.bigEndian_ofBigEndian [high, low]
        refine ⟨hlength ▸ hsize, ?_⟩
        rw [writeUnit, hprefix, List.append_assoc, ← hunit, ← hrest, List.take_append_drop]
        rfl
    · cases h
  · rintro ⟨hlength, rfl⟩
    obtain ⟨high, low, hprefix, hsize⟩ := exists_lengthBytes hlength
    rw [writeUnit, hprefix]
    show readUnit record kind (high :: low :: (unit ++ rest)) = _
    rw [readUnit, hsize, List.take_left' rfl, if_neg (Nat.lt_irrefl _), List.drop_left' rfl]

@[simp] theorem writeUnits_cons (unit : List UInt8) (rest : List (List UInt8)) :
    writeUnits (unit :: rest) = writeUnit unit ++ writeUnits rest :=
  List.flatMap_cons

/-- Units are read exactly off their concatenation, as many as were announced. -/
theorem readUnits_eq_ok_iff {n : Nat} {bytes rest : List UInt8} {units : List (List UInt8)} :
    readUnits record kind n bytes = .ok (units, rest) ↔
      units.length = n ∧ (∀ unit ∈ units, unit.length < 256 ^ 2) ∧
        bytes = writeUnits units ++ rest := by
  -- on how many units are asked for
  induction n generalizing bytes units with
  | zero =>
    constructor
    · intro h
      obtain ⟨rfl, rfl⟩ := Prod.mk.inj (Except.ok.inj h)
      exact ⟨rfl, fun _ hmem => absurd hmem List.not_mem_nil, rfl⟩
    · rintro ⟨hcount, -, rfl⟩
      obtain rfl := List.length_eq_zero_iff.1 hcount
      rfl
  | succ n ih =>
    constructor
    · intro h
      obtain ⟨⟨unit, behind⟩, hunit, h⟩ := ok_of_bind h
      obtain ⟨⟨others, left⟩, hothers, h⟩ := ok_of_bind h
      obtain ⟨rfl, rfl⟩ := Prod.mk.inj (Except.ok.inj h)
      obtain ⟨hlength, rfl⟩ := readUnit_eq_ok_iff.1 hunit
      obtain ⟨rfl, hlengths, rfl⟩ := ih.1 hothers
      refine ⟨rfl, List.forall_mem_cons.2 ⟨hlength, hlengths⟩, ?_⟩
      rw [writeUnits_cons, List.append_assoc]
    · rintro ⟨hcount, hlengths, rfl⟩
      obtain ⟨unit, others, rfl⟩ := List.exists_cons_of_length_eq_add_one hcount
      obtain ⟨hlength, hlengths⟩ := List.forall_mem_cons.1 hlengths
      have hunit : readUnit record kind (writeUnits (unit :: others) ++ rest) =
          .ok (unit, writeUnits others ++ rest) := by
        refine readUnit_eq_ok_iff.2 ⟨hlength, ?_⟩
        rw [writeUnits_cons, List.append_assoc]
      have hothers := ih.2 ⟨Nat.succ.inj hcount, hlengths, rfl⟩
      rw [readUnits, hunit]
      show (readUnits record kind n (writeUnits others ++ rest) >>= _) = _
      rw [hothers]
      rfl

theorem length_writeUnits (units : List (List UInt8)) :
    (writeUnits units).length = unitsSize units := by
  induction units with
  | nil => rfl
  | cons unit rest ih =>
    rw [writeUnits_cons, List.length_append, writeUnit, List.length_append,
      Bytes.length_bigEndian]
    exact congrArg (2 + unit.length + ·) ih

end LiveIngest.Codec
