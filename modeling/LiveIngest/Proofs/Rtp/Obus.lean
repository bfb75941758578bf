import LiveIngest.Proofs.Bits.Leb128
import LiveIngest.Rtp.Av1

/-!
# Walking units

What it means that bytes are units (OBUs), told without the program that cuts them:

* `Walk bytes units left` — from the front of `bytes`, `units` were passed, and `left` is what
  stands behind them;
* `Malformed`, `Overruns` — why a walk cannot go on, though there are bytes left: a header that
  cannot be read (`parse?_eq_none_iff`), or a unit that is larger than what is left;
* `splitObus_eq_some_iff`, `splitObus_eq_none_iff` — a frame is cut into the units of a walk to its
  end, and not at all exactly if a walk is stuck before it;
* `findSequenceHeader?_eq_some_iff` — the sequence header of a record is the first one on a walk.
-/

namespace LiveIngest.Rtp

open Codec

/-! ### Headers that cannot be read -/

/-- How many bytes of extension follow the first byte of a header. -/
def extensionSize (first : UInt8) : Nat :=
  if first &&& 0x04 = 0 then 0 else 1

/-- A header that cannot be read: the forbidden bit is set, the extension is missing, or the size
does not end within the eight bytes it may have. -/
inductive Malformed : List UInt8 → Prop
  | forbiddenBit {first : UInt8} {rest : List UInt8} :
      first &&& 0x80 ≠ 0 → Malformed (first :: rest)
  | extensionMissing {first : UInt8} {rest : List UInt8} :
      rest.length < extensionSize first → Malformed (first :: rest)
  | sizeEndless {first : UInt8} {rest : List UInt8} : first &&& 0x02 ≠ 0 →
      (∀ b ∈ (rest.drop (extensionSize first)).take 8, 128 ≤ b.toNat) → Malformed (first :: rest)

/-- A header is refused exactly where there is none or where its size cannot be read. -/
theorem parse?_eq_none_iff {bytes : List UInt8} :
    Obu.parse? bytes = none ↔ bytes = [] ∨ Malformed bytes := by
  cases bytes with
  | nil => simp [Obu.parse?]
  | cons first rest =>
    -- where the program counts the bytes of the header, there is one beside those of the extension
    have hheader : (if (first &&& 0x04 != 0) = true then 2 else 1) = extensionSize first + 1 := by
      by_cases h : first &&& 0x04 = 0 <;> simp [extensionSize, h]
    have hmalformed : Malformed (first :: rest) ↔ first &&& 0x80 ≠ 0 ∨
        rest.length < extensionSize first ∨ (first &&& 0x02 ≠ 0 ∧
          Leb128.read? (rest.drop (extensionSize first)) = none) := by
      rw [Leb128.read?, Leb128.readAll?_eq_none_iff]
      constructor
      · rintro (h | h | ⟨hsize, h⟩)
        · exact .inl h
        · exact .inr (.inl h)
        · exact .inr (.inr ⟨hsize, h⟩)
      · rintro (h | h | ⟨hsize, h⟩)
        · exact .forbiddenBit h
        · exact .extensionMissing h
        · exact .sizeEndless hsize h
    rw [hmalformed, Obu.parse?]
    simp only [hheader, List.length_cons, List.drop_succ_cons, Nat.add_lt_add_iff_right]
    by_cases hbit : first &&& 0x80 = 0
    · by_cases hextension : rest.length < extensionSize first
      · simp [hextension]
      · by_cases hsize : first &&& 0x02 = 0 <;> simp [hbit, hextension, hsize]
    · simp [hbit]

/-! ### Walks -/

/-- `units` are passed, one after the other, and `left` stands behind them. -/
inductive Walk : List UInt8 → List (Obu × List UInt8) → List UInt8 → Prop
  | stop (left : List UInt8) : Walk left [] left
  | step {o : Obu} {unit bytes left : List UInt8} {units : List (Obu × List UInt8)} :
      Obu.parse? (unit ++ bytes) = some o → unit.length = o.size → Walk bytes units left →
      Walk (unit ++ bytes) ((o, unit) :: units) left

/-- The unit at the front is larger than what is there. -/
def Overruns (bytes : List UInt8) : Prop :=
  ∃ o, Obu.parse? bytes = some o ∧ bytes.length < o.size

/-- A walk meets a header that cannot be read, or a unit that is cut. -/
def Broken (bytes : List UInt8) : Prop :=
  ∃ units left, Walk bytes units left ∧ (Malformed left ∨ Overruns left)

/-- One step of a walk, with the unit written as what is taken off the front. -/
theorem Walk.step_take {o : Obu} {bytes left : List UInt8} {units : List (Obu × List UInt8)}
    (ho : Obu.parse? bytes = some o) (hsize : o.size ≤ bytes.length)
    (h : Walk (bytes.drop o.size) units left) :
    Walk bytes ((o, bytes.take o.size) :: units) left := by
  have hbytes := List.take_append_drop o.size bytes
  have hstep := Walk.step (hbytes.symm ▸ ho) (List.length_take_of_le hsize) h
  rwa [hbytes] at hstep

/-- The bytes are those of the units, and what stands behind them. -/
theorem Walk.eq_append {bytes left : List UInt8} {units : List (Obu × List UInt8)}
    (h : Walk bytes units left) : bytes = units.flatMap (·.2) ++ left := by
  induction h with
  | stop left => rfl
  | step _ _ _ ih => rw [List.flatMap_cons, List.append_assoc, ← ih]

/-! ### Cutting a frame -/

/-- A whole unit in front is split off, and the rest is split on its own. -/
theorem splitObus_append {o : Obu} {unit : List UInt8} {bytes : List UInt8}
    (ho : Obu.parse? (unit ++ bytes) = some o) (hsize : unit.length = o.size) :
    splitObus (unit ++ bytes) = (splitObus bytes).map ((o, unit) :: ·) := by
  -- the unit is all there, so that what is read off the front is the unit
  have hthere : ¬(unit ++ bytes).length < o.size := by
    rw [List.length_append]
    omega
  cases hall : unit ++ bytes with
  | nil =>
    rw [hall] at ho
    cases ho
  | cons first rest =>
    rw [hall] at ho hthere
    rw [splitObus]
    split
    · rename_i hnone
      rw [ho] at hnone
      cases hnone
    · rename_i o' ho'
      obtain rfl := Option.some.inj (ho.symm.trans ho')
      rw [if_neg hthere, ← hall, ← hsize, List.drop_left, List.take_left]

/-- Nothing comes of bytes that begin with a header that cannot be followed. -/
theorem splitObus_of_stuck {bytes : List UInt8} (h : Malformed bytes ∨ Overruns bytes) :
    splitObus bytes = none := by
  cases bytes with
  | nil =>
    rcases h with h | ⟨o, ho, -⟩
    · cases h
    · cases ho
  | cons first rest =>
    rw [splitObus]
    split
    · rfl
    · rename_i o ho
      -- either there is no header, or the unit runs past the end
      rcases h with h | ⟨o', ho', hcut⟩
      · rw [parse?_eq_none_iff.2 (.inr h)] at ho
        cases ho
      · obtain rfl := Option.some.inj (ho.symm.trans ho')
        rw [if_pos hcut]

/-- What is cut from a frame is what a walk passes and what is cut from the rest. -/
theorem splitObus_of_walk {bytes left : List UInt8} {units : List (Obu × List UInt8)}
    (h : Walk bytes units left) : splitObus bytes = (splitObus left).map (units ++ ·) := by
  induction h with
  | stop left => simp
  | step ho hsize _ ih =>
    rw [splitObus_append ho hsize, ih, Option.map_map]
    rfl

/-- A walk can be taken to where the frame ends or where it is stuck. -/
theorem exists_walk (bytes : List UInt8) :
    (∃ units, Walk bytes units []) ∨ Broken bytes := by
  -- each unit takes at least the first byte of its header, so that fewer bytes are left behind it
  induction hn : bytes.length using Nat.strongRecOn generalizing bytes with
  | ind n ih =>
    by_cases hend : bytes = []
    · exact .inl ⟨[], hend ▸ .stop []⟩
    cases ho : Obu.parse? bytes with
    | none =>
      have hmalformed := (parse?_eq_none_iff.1 ho).resolve_left hend
      exact .inr ⟨[], bytes, .stop bytes, .inl hmalformed⟩
    | some o =>
      by_cases hcut : bytes.length < o.size
      · exact .inr ⟨[], bytes, .stop bytes, .inr ⟨o, ho, hcut⟩⟩
      have hsize := Nat.le_of_not_lt hcut
      have hpos := Obu.size_pos ho
      have hrest := ih _ (by rw [List.length_drop]; omega) (bytes.drop o.size) rfl
      rcases hrest with ⟨units, hwalk⟩ | ⟨units, left, hwalk, hstuck⟩
      · exact .inl ⟨_, hwalk.step_take ho hsize⟩
      · exact .inr ⟨_, left, hwalk.step_take ho hsize, hstuck⟩

/-- A walk that breaks later on loses the units in front of the break as well. -/
theorem Broken.splitObus {bytes : List UInt8} (h : Broken bytes) : splitObus bytes = none := by
  obtain ⟨units, left, hwalk, hstuck⟩ := h
  rw [splitObus_of_walk hwalk, splitObus_of_stuck hstuck]
  rfl

/-- **A frame is cut into the units of the walk to its end.** -/
theorem splitObus_eq_some_iff {bytes : List UInt8} {units : List (Obu × List UInt8)} :
    splitObus bytes = some units ↔ Walk bytes units [] := by
  have hcut : ∀ {units}, Walk bytes units [] → splitObus bytes = some units := by
    intro units hwalk
    rw [splitObus_of_walk hwalk, splitObus]
    simp
  refine ⟨fun h => ?_, hcut⟩
  -- there is one walk to the end at most, since the frame is cut into the units of each
  rcases exists_walk bytes with ⟨units', hwalk⟩ | hbroken
  · obtain rfl := Option.some.inj (h.symm.trans (hcut hwalk))
    exact hwalk
  · rw [hbroken.splitObus] at h
    cases h

/-- **A frame is not cut exactly if its walk is broken.** -/
theorem splitObus_eq_none_iff {bytes : List UInt8} : splitObus bytes = none ↔ Broken bytes := by
  refine ⟨fun h => ?_, Broken.splitObus⟩
  rcases exists_walk bytes with ⟨units, hwalk⟩ | hbroken
  · rw [splitObus_eq_some_iff.2 hwalk] at h
    cases h
  · exact hbroken

/-- Units that are walked past have bytes. -/
theorem Walk.ne_nil {bytes left : List UInt8} {units : List (Obu × List UInt8)}
    (h : Walk bytes units left) : ∀ u ∈ units, u.2 ≠ [] := by
  induction h with
  | stop left => simp
  | step ho hsize _ ih =>
    refine List.forall_mem_cons.2 ⟨?_, ih⟩
    exact List.ne_nil_of_length_pos (hsize ▸ Obu.size_pos ho)

/-! ### The sequence header of a record -/

/-- The search stops at the unit in front or passes over it. -/
theorem findSequenceHeader?_append {o : Obu} {unit bytes : List UInt8}
    (ho : Obu.parse? (unit ++ bytes) = some o) (hsize : unit.length = o.size) :
    Obu.findSequenceHeader? (unit ++ bytes) =
      if o.type = Obu.sequenceHeader then some unit else Obu.findSequenceHeader? bytes := by
  have hthere : ¬(unit ++ bytes).length < o.size := by
    rw [List.length_append]
    omega
  rw [Obu.findSequenceHeader?]
  split
  · rename_i hnone
    rw [ho] at hnone
    cases hnone
  · rename_i o' ho'
    obtain rfl := Option.some.inj (ho.symm.trans ho')
    rw [if_neg hthere, ← hsize, List.drop_left, List.take_left]

/-- What is found is the first sequence header of a walk. -/
theorem walk_of_findSequenceHeader? {bytes header : List UInt8}
    (h : Obu.findSequenceHeader? bytes = some header) : ∃ units o left,
      Walk bytes (units ++ [(o, header)]) left ∧ o.type = Obu.sequenceHeader ∧
        ∀ u ∈ units, u.1.type ≠ Obu.sequenceHeader := by
  -- on the number of bytes, since a step drops as many as the header says
  induction hn : bytes.length using Nat.strongRecOn generalizing bytes with
  | ind n ih =>
    have hfind := h
    rw [Obu.findSequenceHeader?] at hfind
    split at hfind
    · cases hfind
    · rename_i o ho
      split at hfind
      · cases hfind
      rename_i hcut
      have hsize := Nat.le_of_not_lt hcut
      split at hfind
      · rename_i htype
        cases hfind
        exact ⟨[], o, _, (Walk.stop _).step_take ho hsize, htype, by simp⟩
      · rename_i htype
        have hpos := Obu.size_pos ho
        obtain ⟨units, o', left, hwalk, htype', hother⟩ :=
          ih _ (by rw [List.length_drop]; omega) hfind rfl
        exact ⟨_, o', left, hwalk.step_take ho hsize, htype',
          List.forall_mem_cons.2 ⟨htype, hother⟩⟩

/-- The first sequence header of a walk is found, whatever stands behind it. -/
theorem findSequenceHeader?_of_walk {bytes left header : List UInt8}
    {units : List (Obu × List UInt8)} {o : Obu} (hwalk : Walk bytes (units ++ [(o, header)]) left)
    (htype : o.type = Obu.sequenceHeader)
    (hother : ∀ u ∈ units, u.1.type ≠ Obu.sequenceHeader) :
    Obu.findSequenceHeader? bytes = some header := by
  induction units generalizing bytes with
  | nil =>
    cases hwalk with
    | step ho hsize _ => rw [findSequenceHeader?_append ho hsize, if_pos htype]
  | cons u units ih =>
    obtain ⟨hhere, hlater⟩ := List.forall_mem_cons.1 hother
    cases hwalk with
    | step ho hsize hrest =>
      rw [findSequenceHeader?_append ho hsize, if_neg hhere]
      exact ih hrest hlater

/-- **The sequence header of a record is the first one on a walk.** -/
theorem findSequenceHeader?_eq_some_iff {bytes header : List UInt8} :
    Obu.findSequenceHeader? bytes = some header ↔ ∃ units o left,
      Walk bytes (units ++ [(o, header)]) left ∧ o.type = Obu.sequenceHeader ∧
        ∀ u ∈ units, u.1.type ≠ Obu.sequenceHeader := by
  constructor
  · exact walk_of_findSequenceHeader?
  · rintro ⟨units, o, left, hwalk, htype, hother⟩
    exact findSequenceHeader?_of_walk hwalk htype hother

end LiveIngest.Rtp
