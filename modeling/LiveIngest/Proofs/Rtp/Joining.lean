import LiveIngest.Proofs.Rtp.Payloads

/-!
# Joining payloads

What a receiver makes of payloads, one after the other. Each of them says whether it begins a unit
and whether it ends one (`Piece`); how it says so depends on the codec. `Piece.join` is strict: it
has no answer for pieces that do not tile a sequence of units.

A cut whose leads say of each payload whether it is the first and whether it is the last one is
joined to the unit that was cut, in front of whatever follows it (`join_cut`), and so are several
units one after the other (`join_flatMap`).
-/

namespace LiveIngest.Rtp

/-- A payload as a part of a unit. -/
structure Piece where
  begins : Bool
  ends : Bool
  bytes : List UInt8
  deriving DecidableEq, Repr

namespace Piece

/-- The units that pieces form, where `begun` is what was received of a unit that has not ended. A
piece must begin a unit exactly where none is open, and at the end none may be open. -/
def join : (begun : Option (List UInt8)) → List Piece → Option (List (List UInt8))
  | begun, [] => if begun.isSome then none else some []
  | begun, p :: rest =>
    if p.begins = begun.isSome then none
    else
      let unit := begun.getD [] ++ p.bytes
      if p.ends then (join none rest).map (unit :: ·) else join (some unit) rest

/-- A piece that is a whole unit. -/
theorem join_whole (unit : List UInt8) (rest : List Piece) :
    join none (⟨true, true, unit⟩ :: rest) = (join none rest).map (unit :: ·) :=
  rfl

variable {lead : (isFirst isLast : Bool) → List UInt8} {size : Nat} {read : Payload → Piece}
  {header : List UInt8}

/-- **A cut is joined to the unit that was cut.** The receiver takes `header` from the first payload
and puts it in front. -/
theorem join_cut
    (hread : ∀ isFirst isLast data, read ⟨lead isFirst isLast, data⟩ =
      ⟨isFirst, isLast, (if isFirst then header else []) ++ data⟩)
    {isFirst : Bool} {bytes : List UInt8} (hne : bytes ≠ []) {begun : Option (List UInt8)}
    (hbegun : begun.isSome = !isFirst) (rest : List Piece) :
    join begun ((cut lead size isFirst bytes).map read ++ rest) =
      (join none rest).map
        ((begun.getD [] ++ ((if isFirst then header else []) ++ bytes)) :: ·) := by
  induction isFirst, bytes using cut_induction size generalizing begun with
  | nil isFirst => exact absurd rfl hne
  | step isFirst bytes _ ih =>
    have hopen : isFirst ≠ begun.isSome := by
      rw [hbegun]
      cases isFirst <;> simp
    rw [cut_of_ne_nil hne, List.map_cons, hread, List.cons_append, join, if_neg hopen]
    -- the last payload ends the unit, and any other one leaves it open
    by_cases hlast : bytes.length ≤ max size 1
    · simp [hlast, cut_nil, List.take_of_length_le hlast, List.drop_of_length_le hlast]
    · have hmore : bytes.drop (max size 1) ≠ [] := by
        rwa [Ne, List.drop_eq_nil_iff]
      simp only [hlast, decide_false, Bool.false_eq_true, if_false]
      rw [ih hmore rfl]
      simp

/-- A unit that was cut from its first byte on, behind a header that its payloads do not repeat. -/
theorem join_unit
    (hread : ∀ isFirst isLast data, read ⟨lead isFirst isLast, data⟩ =
      ⟨isFirst, isLast, (if isFirst then header else []) ++ data⟩)
    {bytes : List UInt8} (hne : bytes ≠ []) (rest : List Piece) :
    join none ((cut lead size true bytes).map read ++ rest) =
      (join none rest).map ((header ++ bytes) :: ·) :=
  join_cut hread hne rfl rest

/-- Units that are each sent as pieces that are joined to it. -/
theorem join_flatMap {sent : List UInt8 → List Payload} {units : List (List UInt8)}
    (hjoin : ∀ unit ∈ units, ∀ rest, join none ((sent unit).map read ++ rest) =
      (join none rest).map (unit :: ·)) (rest : List Piece) :
    join none ((units.flatMap sent).map read ++ rest) = (join none rest).map (units ++ ·) := by
  induction units with
  | nil => simp
  | cons unit units ih =>
    obtain ⟨hfirst, hothers⟩ := List.forall_mem_cons.1 hjoin
    rw [List.flatMap_cons, List.map_append, List.append_assoc, hfirst, ih hothers, Option.map_map]
    rfl

end Piece

end LiveIngest.Rtp
