import LiveIngest.Proofs.Bits.Reading

/-!
# How large the numbers of bit fields are

A field of `n` bits is below 2 ^ n (`bits_lt`). An Exp-Golomb code is limited by its zeros: with 31
of them at most it is below 2 ^ 32 - 1 (`ue_lt`).

The zeros are counted at once in `BitTake.ue`, which looks at the next 32 bits first. Bit by bit
(`countZeros`) they come to the same (`ue_eq`).
-/

namespace LiveIngest.BitTake

/-- A successful reader put together of two. -/
theorem exists_of_bind_ok {α β : Type} {reader : BitTake α} {next : α → BitTake β}
    {c c' : BitCursor} {b : β} (h : (reader >>= next) c = .ok b c') :
    ∃ a c₁, reader c = .ok a c₁ ∧ next a c₁ = .ok b c' := by
  change EStateM.bind reader next c = .ok b c' at h
  unfold EStateM.bind at h
  split at h
  · rename_i a c₁ hfront
    exact ⟨a, c₁, hfront, h⟩
  · cases h

/-- One more bit takes as much room as it gives. -/
theorem mul_two_pow_le (high : Nat) (b : Bool) (n : Nat) :
    (2 * high + b.toNat + 1) * 2 ^ n ≤ (high + 1) * 2 ^ (n + 1) := by
  have hb := Bool.toNat_le b
  calc (2 * high + b.toNat + 1) * 2 ^ n ≤ (2 * (high + 1)) * 2 ^ n :=
        Nat.mul_le_mul_right _ (by omega)
    _ = (high + 1) * 2 ^ (n + 1) := by ring

/-- Every bit doubles the range. -/
theorem bitsInto_lt {n high : Nat} {c c' : BitCursor} {v : Nat} (h : bitsInto n high c = .ok v c') :
    v < (high + 1) * 2 ^ n := by
  induction n generalizing high c with
  | zero =>
    cases h
    omega
  | succ n ih =>
    obtain ⟨b, c₁, -, hrest⟩ := exists_of_bind_ok h
    exact lt_of_lt_of_le (ih hrest) (mul_two_pow_le high b n)

/-- A field keeps within its range. -/
theorem bits_lt {n v : Nat} {c c' : BitCursor} (h : bits n c = .ok v c') : v < 2 ^ n := by
  unfold bits at h
  split at h
  · cases h
  · have hinto := bitsInto_lt h
    omega

/-- The zeros before the next one, of which `zeros` were counted, bit by bit. -/
def countZeros (zeros : Nat) : BitTake Nat := do
  if ← bit then return zeros
  if _h : 31 < zeros + 1 then throw .golombTooLong
  else countZeros (zeros + 1)
termination_by 32 - zeros

theorem countZeros_nil (zeros position : Nat) :
    countZeros zeros ⟨[], position⟩ = .error .bitsPastEnd ⟨[], position⟩ := by
  rw [countZeros]
  rfl

theorem countZeros_true (zeros : Nat) (rest : List Bool) (position : Nat) :
    countZeros zeros ⟨true :: rest, position⟩ = .ok zeros ⟨rest, position + 1⟩ := by
  rw [countZeros]
  rfl

/-- The 32nd zero is one too many. -/
theorem countZeros_false (zeros : Nat) (rest : List Bool) (position : Nat) :
    countZeros zeros ⟨false :: rest, position⟩ =
      if 31 < zeros + 1 then .error .golombTooLong ⟨rest, position + 1⟩
      else countZeros (zeros + 1) ⟨rest, position + 1⟩ := by
  rw [countZeros]
  show (if _ : 31 < zeros + 1 then _ else _ : BitTake Nat) ⟨rest, position + 1⟩ = _
  split <;> rfl

theorem advance_succ (b : Bool) (rest : List Bool) (position n : Nat) :
    BitCursor.advance ⟨b :: rest, position⟩ (n + 1) = BitCursor.advance ⟨rest, position + 1⟩ n := by
  unfold BitCursor.advance
  dsimp only
  rw [List.drop_succ_cons, Nat.add_assoc, Nat.add_comm 1]

/-- Without a limit, all zeros count. -/
theorem leadingZeros_false (rest : List Bool) (position : Nat) :
    leadingZeros ⟨false :: rest, position⟩ =
      match leadingZeros ⟨rest, position + 1⟩ with
      | .ok zeros c => .ok (zeros + 1) c
      | .error f c => .error f c := by
  unfold leadingZeros
  dsimp only
  rw [List.takeWhile_cons_of_pos (by rfl), List.length_cons, List.drop_succ_cons, advance_succ,
    advance_succ]
  cases rest.drop (rest.takeWhile (!·)).length <;> rfl

/-- The zeros one by one. -/
theorem leadingZeros_eq : leadingZeros = (do
    if ← bit then return 0
    let more ← leadingZeros
    return more + 1) := by
  funext ⟨rest, position⟩
  cases rest with
  | nil => rfl
  | cons b rest =>
    cases b with
    | true => rfl
    | false =>
      rw [leadingZeros_false]
      show _ = EStateM.bind leadingZeros _ _
      unfold EStateM.bind
      cases leadingZeros ⟨rest, position + 1⟩ <;> rfl

/-- Zeros of which `zeros` were counted are too many if the `room` that is left is all zeros. -/
theorem countZeros_eq {zeros room : Nat} (h : zeros + (room + 1) = 32) (rest : List Bool)
    (position : Nat) :
    countZeros zeros ⟨rest, position⟩ =
      if (rest.take (room + 1)).length = room + 1 && (rest.take (room + 1)).all (!·) then
        .error .golombTooLong (BitCursor.advance ⟨rest, position⟩ (room + 1))
      else
        match leadingZeros ⟨rest, position⟩ with
        | .ok more c => .ok (zeros + more) c
        | .error f c => .error f c := by
  -- on the bits; the counter gives up at 32 where the zeros that are counted freely would go on
  induction rest generalizing zeros room position with
  | nil =>
    rw [countZeros_nil]
    rfl
  | cons b rest ih =>
    cases b with
    | true =>
      rw [countZeros_true, List.take_succ_cons, List.all_cons, Bool.not_true, Bool.false_and,
        Bool.and_false, if_neg Bool.false_ne_true]
      rfl
    | false =>
      rw [countZeros_false]
      cases room with
      | zero =>
        -- the 32nd zero
        rw [if_pos (by omega)]
        rfl
      | succ room =>
        -- one zero more, and room for one less
        have hroom : zeros + 1 + (room + 1) = 32 := by omega
        rw [if_neg (by omega), ih hroom, leadingZeros_false, advance_succ]
        simp only [List.take_succ_cons, List.length_cons, List.all_cons, Bool.not_false,
          Bool.true_and, Nat.add_right_cancel_iff]
        cases leadingZeros ⟨rest, position + 1⟩ with
        | ok more c =>
          dsimp only
          rw [Nat.add_assoc, Nat.add_comm 1]
        | error f c => rfl

/-- A code is its zeros, a one, and as many bits as there were zeros. -/
theorem ue_eq : ue = (do
    let zeros ← countZeros 0
    let low ← bits zeros
    return 1 <<< zeros - 1 + low) := by
  funext ⟨rest, position⟩
  show (if (rest.take 32).length = 32 && (rest.take 32).all (!·) then _ else _ : BitTake Nat) _ =
    EStateM.bind (countZeros 0) _ _
  unfold EStateM.bind
  -- all of the 32 bits to come, none of them counted yet
  rw [countZeros_eq (show 0 + (31 + 1) = 32 from rfl)]
  split
  · rfl
  · show EStateM.bind leadingZeros _ _ = _
    unfold EStateM.bind
    cases leadingZeros ⟨rest, position⟩ with
    | ok zeros c =>
      dsimp only
      rw [Nat.zero_add]
    | error f c => rfl

/-- A code that is read has at most 31 zeros. -/
theorem countZeros_lt {zeros k : Nat} (h : zeros < 32) {c c' : BitCursor}
    (hk : countZeros zeros c = .ok k c') : k < 32 := by
  obtain ⟨rest, position⟩ := c
  -- on the bits
  induction rest generalizing zeros position with
  | nil =>
    rw [countZeros_nil] at hk
    cases hk
  | cons b rest ih =>
    cases b with
    | true =>
      rw [countZeros_true] at hk
      cases hk
      exact h
    | false =>
      rw [countZeros_false] at hk
      split at hk
      · cases hk
      · exact ih (by omega) _ hk

/-- A code of 31 zeros at most is less than 2 ^ 32 - 1. -/
theorem ue_lt {n : Nat} {c c' : BitCursor} (h : ue c = .ok n c') : n < 2 ^ 32 - 1 := by
  rw [ue_eq] at h
  obtain ⟨zeros, c₁, hzeros, h⟩ := exists_of_bind_ok h
  obtain ⟨low, c₂, hlow, h⟩ := exists_of_bind_ok h
  cases h
  have hlt := bits_lt hlow
  have hpower : 2 ^ zeros ≤ 2 ^ 31 :=
    Nat.pow_le_pow_right Nat.two_pos (Nat.le_of_lt_succ (countZeros_lt (by decide) hzeros))
  rw [Nat.one_shiftLeft]
  omega

end LiveIngest.BitTake
