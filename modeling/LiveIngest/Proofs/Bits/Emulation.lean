import Mathlib.Data.List.DropRight
import Mathlib.Data.List.Induction
import LiveIngest.Bits.Emulation

/-!
# Inserting emulation prevention

The writer's side of emulation prevention: a byte 3 is put wherever two zeros in the output would be
followed by a byte up to 3, and behind two zeros at the end. No zero counts twice across an inserted
byte, so that a run of zeros gets a byte 3 behind every second one.

What was inserted is removed again (`remove_insert`). The two sides count the same zeros: at every
byte of the payload, the zeros directly in front are as many in what was written as in what has been
read so far.

A writer that counts is one way to follow the rule, which speaks of the output alone. `written` is
the rule as it stands, byte by byte of the payload, and comes to the same bytes (`insert_eq`).

Main statement: `remove_written` — the rule is undone, its output holds no start code, and bytes
are left as they are exactly if a byte 3 stands nowhere behind two zeros.
-/

namespace LiveIngest.Emulation

/-- Insert bytes, when `zeros` zero bytes stand directly in front. -/
def insertAfter (zeros : Nat) : List UInt8 → List UInt8
  | [] => if 2 ≤ zeros then [3] else []
  | b :: rest =>
    if 2 ≤ zeros ∧ b ≤ 3 then 3 :: b :: insertAfter (if b = 0 then 1 else 0) rest
    else b :: insertAfter (if b = 0 then zeros + 1 else 0) rest

/-- A payload as it stands in a NAL unit. -/
def insert (payload : List UInt8) : List UInt8 :=
  insertAfter 0 payload

/-- Removing undoes inserting, with the same count of zeros before both. -/
theorem removeAfter_insertAfter (zeros : Nat) (payload : List UInt8) :
    removeAfter zeros (insertAfter zeros payload) = payload := by
  induction payload generalizing zeros with
  | nil =>
    rw [insertAfter]
    split
    · rename_i hzeros
      rw [removeAfter, if_pos ⟨hzeros, rfl⟩]
      rfl
    · rfl
  | cons b rest ih =>
    rw [insertAfter]
    split
    · -- the inserted byte starts the count again, and `b` is the first byte behind it
      rename_i hinsert
      rw [removeAfter, if_pos ⟨hinsert.1, rfl⟩, removeAfter, if_neg (by simp)]
      split <;> rw [ih]
    · rename_i hplain
      have hkeep : ¬(2 ≤ zeros ∧ b = 3) := fun h =>
        hplain ⟨h.1, h.2 ▸ UInt8.le_refl 3⟩
      rw [removeAfter, if_neg hkeep, ih]

/-- **Inserted bytes are removed again**, and nothing else is. -/
theorem remove_insert (payload : List UInt8) : remove (insert payload) = payload :=
  removeAfter_insertAfter 0 payload

/-- Bytes are only left out. -/
theorem removeAfter_sublist (zeros : Nat) (bytes : List UInt8) :
    (removeAfter zeros bytes).Sublist bytes := by
  induction bytes generalizing zeros with
  | nil => exact .slnil
  | cons b rest ih =>
    rw [removeAfter]
    split
    · exact (ih 0).cons b
    · exact (ih _).cons_cons b

/-- Bytes are only left out. -/
theorem remove_sublist (bytes : List UInt8) : (remove bytes).Sublist bytes :=
  removeAfter_sublist 0 bytes

/-! ### The rule without a count -/

/-- Write a byte of the payload behind the output so far. -/
def writeByte (output : List UInt8) (b : UInt8) : List UInt8 :=
  if [0, 0] <:+ output ∧ b ≤ 3 then output ++ [3, b] else output ++ [b]

/-- End the output, which must not end in two zeros. -/
def close (output : List UInt8) : List UInt8 :=
  if [0, 0] <:+ output then output ++ [3] else output

/-- **A payload as the rule has it**, of which each byte looks at the output in front of it. -/
def written (payload : List UInt8) : List UInt8 :=
  close (payload.foldl writeByte [])

/-- How many zeros stand at the end. -/
def zerosBehind (output : List UInt8) : Nat :=
  (output.rtakeWhile (· = 0)).length

theorem concat_isSuffix_iff {front output : List UInt8} {a b : UInt8} :
    front ++ [a] <:+ output ++ [b] ↔ front <:+ output ∧ a = b := by
  rw [List.suffix_append_inj_of_length_eq (show [a].length = [b].length from rfl),
    List.singleton_inj]

theorem zerosBehind_concat (output : List UInt8) (b : UInt8) :
    zerosBehind (output ++ [b]) = if b = 0 then zerosBehind output + 1 else 0 := by
  unfold zerosBehind
  rw [List.rtakeWhile_concat]
  by_cases hb : b = 0 <;> simp [hb]

/-- The output ends in as many zeros as were counted. -/
theorem replicate_isSuffix_iff (n : Nat) (output : List UInt8) :
    List.replicate n 0 <:+ output ↔ n ≤ zerosBehind output := by
  -- by induction from the back, where the zeros are counted
  induction output using List.reverseRecOn generalizing n with
  | nil => simp [zerosBehind]
  | append_singleton output b ih =>
    cases n with
    | zero => simp
    | succ n =>
      rw [zerosBehind_concat, List.replicate_succ', concat_isSuffix_iff, ih]
      by_cases hb : b = 0
      · simp [hb]
      · simp [hb, Ne.symm hb]

theorem endsInZeros_iff (output : List UInt8) : [0, 0] <:+ output ↔ 2 ≤ zerosBehind output :=
  replicate_isSuffix_iff 2 output

/-- Behind any output, the rule goes on as a writer that has counted its zeros. -/
theorem close_foldl_writeByte (output payload : List UInt8) :
    close (payload.foldl writeByte output) =
      output ++ insertAfter (zerosBehind output) payload := by
  induction payload generalizing output with
  | nil =>
    rw [List.foldl_nil, close, insertAfter]
    by_cases hzeros : 2 ≤ zerosBehind output
    · rw [if_pos ((endsInZeros_iff output).2 hzeros), if_pos hzeros]
    · rw [if_neg (mt (endsInZeros_iff output).1 hzeros), if_neg hzeros, List.append_nil]
  | cons b rest ih =>
    rw [List.foldl_cons, ih, writeByte, insertAfter]
    by_cases hinsert : [0, 0] <:+ output ∧ b ≤ 3
    · -- the byte 3 is no zero, so that the count starts with `b`
      have hpair : output ++ [3, b] = output ++ [3] ++ [b] := by simp
      have hthree : zerosBehind (output ++ [3]) = 0 := by
        rw [zerosBehind_concat, if_neg (by decide)]
      have hcount := hinsert.imp_left (endsInZeros_iff output).1
      rw [if_pos hinsert, if_pos hcount, hpair, zerosBehind_concat, hthree]
      simp
    · have hcount := mt (And.imp_left (endsInZeros_iff output).2) hinsert
      rw [if_neg hinsert, if_neg hcount, zerosBehind_concat, List.append_assoc]
      rfl

/-- A writer that counts follows the rule. -/
theorem insert_eq (payload : List UInt8) : insert payload = written payload :=
  (close_foldl_writeByte [] payload).symm

/-! ### Start codes -/

/-- Two zeros are nowhere followed by a byte below 3. -/
def Guarded (output : List UInt8) : Prop :=
  ∀ b : UInt8, [0, 0, b] <:+: output → 3 ≤ b

/-- A byte behind two zeros has to be at least 3. -/
theorem Guarded.concat {output : List UInt8} (h : Guarded output) {b : UInt8}
    (hb : [0, 0] <:+ output → 3 ≤ b) : Guarded (output ++ [b]) := by
  intro x hx
  obtain hend | hinside := List.infix_concat_iff.1 hx
  · -- the pattern is at the end: its last byte is the one that was written
    have hsplit : [0, 0] ++ [x] <:+ output ++ [b] := hend
    obtain ⟨hzeros, rfl⟩ := concat_isSuffix_iff.1 hsplit
    exact hb hzeros
  · exact h x hinside

/-- So the rule writes a 3 before a smaller one. -/
theorem Guarded.writeByte {output : List UInt8} (h : Guarded output) (b : UInt8) :
    Guarded (writeByte output b) := by
  unfold Emulation.writeByte
  split
  -- behind the 3 nothing ends in two zeros, so any byte may follow
  · have hthree : Guarded (output ++ [3]) := h.concat fun _ => UInt8.le_refl 3
    have hpair : output ++ [3, b] = output ++ [3] ++ [b] := by simp
    rw [hpair]
    refine hthree.concat fun hzeros => ?_
    have hsplit : [0] ++ [0] <:+ output ++ [3] := hzeros
    exact absurd (concat_isSuffix_iff.1 hsplit).2 (by decide)
  -- no 3 is written before a byte that is no smaller
  · rename_i hplain
    refine h.concat fun hzeros => ?_
    exact UInt8.le_of_lt (UInt8.not_le.1 fun hle => hplain ⟨hzeros, hle⟩)

/-- **What the rule writes is guarded**, byte by byte. -/
theorem guarded_written (payload : List UInt8) : Guarded (written payload) := by
  have hall : ∀ output, Guarded output → Guarded (payload.foldl writeByte output) := by
    induction payload with
    | nil => exact fun _ h => h
    | cons b rest ih => exact fun _ h => ih _ (h.writeByte b)
  have hbytes := hall [] fun b hb => absurd (List.infix_nil.1 hb) (List.cons_ne_nil _ _)
  unfold written close
  split
  · exact hbytes.concat fun _ => UInt8.le_refl 3
  · exact hbytes

/-! ### Bytes that stay as they are -/

/-- Zeros in front of another byte hold no pattern that goes on behind it. -/
theorem pattern_isInfix_iff {zeros : Nat} {b : UInt8} (hb : b ≠ 0) (h : ¬(2 ≤ zeros ∧ b = 3))
    (rest : List UInt8) :
    [0, 0, 3] <:+: List.replicate zeros 0 ++ b :: rest ↔ [0, 0, 3] <:+: rest := by
  induction zeros with
  | zero =>
    rw [List.replicate_zero, List.nil_append, List.infix_cons_iff]
    exact or_iff_right fun hfront => hb (List.cons_prefix_cons.1 hfront).1.symm
  | succ zeros ih =>
    rw [List.replicate_succ, List.cons_append, List.infix_cons_iff,
      ih fun hless => h ⟨Nat.le_succ_of_le hless.1, hless.2⟩]
    refine or_iff_right fun hfront => ?_
    -- the pattern would have to end at `b` or at a zero
    obtain ⟨-, hfront⟩ := List.cons_prefix_cons.1 hfront
    match zeros with
    | 0 => exact hb (List.cons_prefix_cons.1 hfront).1.symm
    | 1 =>
      obtain ⟨-, hthree⟩ := List.cons_prefix_cons.1 hfront
      exact h ⟨Nat.le_refl 2, (List.cons_prefix_cons.1 hthree).1.symm⟩
    | zeros + 2 =>
      obtain ⟨-, hthree⟩ := List.cons_prefix_cons.1 hfront
      exact absurd (List.cons_prefix_cons.1 hthree).1 (by decide)

/-- **Bytes are left as they are** if no 3 stands behind two zeros. The zeros before them count too.
-/
theorem removeAfter_eq_self_iff (zeros : Nat) (bytes : List UInt8) :
    removeAfter zeros bytes = bytes ↔ ¬[0, 0, 3] <:+: List.replicate zeros 0 ++ bytes := by
  induction bytes generalizing zeros with
  | nil =>
    refine iff_of_true rfl fun hpattern => ?_
    have hmem : (3 : UInt8) ∈ List.replicate zeros 0 ++ [] := hpattern.subset (by simp)
    rw [List.append_nil] at hmem
    exact absurd (List.eq_of_mem_replicate hmem) (by decide)
  | cons b rest ih =>
    rw [removeAfter]
    by_cases hdrop : 2 ≤ zeros ∧ b = 3
    · -- a byte is left out, and the pattern is the two zeros in front of it and the byte
      obtain ⟨hzeros, rfl⟩ := hdrop
      rw [if_pos ⟨hzeros, rfl⟩]
      refine iff_of_false (fun heq => ?_) (not_not_intro ?_)
      · have hle := (removeAfter_sublist 0 rest).length_le
        rw [heq, List.length_cons] at hle
        omega
      · have hpair :
            List.replicate (zeros - 2) (0 : UInt8) ++ [0, 0] = List.replicate zeros 0 := by
          have hjoin : List.replicate (zeros - 2) (0 : UInt8) ++ List.replicate 2 0 = _ :=
            List.replicate_append_replicate
          rwa [Nat.sub_add_cancel hzeros] at hjoin
        exact ⟨List.replicate (zeros - 2) 0, rest, by rw [← hpair]; simp⟩
    · rw [if_neg hdrop, List.cons_inj_right, ih]
      refine not_congr ?_
      by_cases hb : b = 0
      · rw [hb, if_pos rfl, List.replicate_succ', List.append_assoc, List.singleton_append]
      · rw [if_neg hb, pattern_isInfix_iff hb hdrop]
        rfl

/-- **Emulation prevention is undone.** What the rule makes of a payload holds no start code, and
gives back the payload. And bytes are left as they are exactly if a byte 3 stands nowhere behind two
zeros.

Zeros are counted without a limit here. A count that is a signed number of 32 bits comes to the same
unless there are 2 ^ 31 zeros in a row, where it overflows (`Emulation.removeCounting_cases`). -/
theorem remove_written :
    (∀ payload : List UInt8, Guarded (written payload) ∧ remove (written payload) = payload) ∧
    ∀ bytes : List UInt8, remove bytes = bytes ↔ ¬[0, 0, 3] <:+: bytes := by
  refine ⟨fun payload => ⟨guarded_written payload, ?_⟩, removeAfter_eq_self_iff 0⟩
  rw [← insert_eq]
  exact remove_insert payload

example : written [0, 0, 0, 0, 0, 3, 0, 0] = [0, 0, 3, 0, 0, 3, 0, 3, 0, 0, 3] := by decide

end LiveIngest.Emulation
