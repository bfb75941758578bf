import LiveIngest.Proofs.Bits.Bounds

/-!
# What a reader took

`Reads` goes from bits to what is read off them. `Took` is the way back: a reader that succeeded
took certain bits off the front, and reads the same off them in front of anything else. With fields
of fixed width there is only one way to write what was read, so that the bits are known from the
result (`took_bits`).

A reader with a value to fall back on does what the reader without it does, where that one succeeds
(`Allows`).
-/

namespace LiveIngest.BitTake

open Bits

variable {α β : Type} {reader : BitTake α} {next : α → BitTake β} {c c₁ c' : BitCursor}

/-- From `c` to `c'` a reader took `bits`, and `bits` alone tell what it read. -/
structure Took (reader : BitTake α) (bits : List Bool) (a : α) (c c' : BitCursor) : Prop where
  rest : c.rest = bits ++ c'.rest
  position : c'.position = c.position + bits.length
  reads : Reads reader bits a

theorem Took.pure (a : α) (c : BitCursor) : Took (pure a) [] a c c :=
  ⟨rfl, rfl, Reads.pure a⟩

/-- One reader behind another takes both their bits. -/
theorem Took.bind {front back : List Bool} {a : α} {b : β} (hfront : Took reader front a c c₁)
    (hback : Took (next a) back b c₁ c') : Took (reader >>= next) (front ++ back) b c c' where
  rest := by rw [hfront.rest, hback.rest, List.append_assoc]
  position := by rw [hback.position, hfront.position, List.length_append, Nat.add_assoc]
  reads := hfront.reads.bind hback.reads

/-- What was read last may be wrapped. -/
theorem Took.map {bits : List Bool} {a : α} (h : Took reader bits a c c') (f : α → β) :
    Took (reader >>= fun x => Pure.pure (f x)) bits (f a) c c' :=
  { h with reads := h.reads.map f }

/-- A bit is taken as it is written. -/
theorem took_bit {b : Bool} (h : bit c = .ok b c') : Took bit (flag b) b c c' := by
  obtain ⟨rest, position⟩ := c
  cases rest with
  | nil => cases h
  | cons b rest =>
    cases h
    exact ⟨rfl, rfl, Reads.bit b⟩

/-- A field took as many bits as it is wide. -/
theorem exists_of_bitsInto_ok {n high v : Nat} (h : bitsInto n high c = .ok v c') :
    ∃ taken, taken.length = n ∧ c.rest = taken ++ c'.rest ∧ c'.position = c.position + n := by
  induction n generalizing high c with
  | zero =>
    cases h
    exact ⟨[], rfl, rfl, rfl⟩
  | succ n ih =>
    obtain ⟨b, c₁, hbit, hrest⟩ := exists_of_bind_ok h
    obtain ⟨taken, hlength, hbits, hposition⟩ := ih hrest
    have hb := took_bit hbit
    refine ⟨b :: taken, congrArg (· + 1) hlength, ?_, ?_⟩
    · rw [hb.rest, hbits]
      rfl
    · rw [hposition, hb.position, Nat.add_assoc, Nat.add_comm n]
      rfl

/-- The bits of a field are those that would be written. -/
theorem took_bits {n v : Nat} (h : bits n c = .ok v c') : Took (bits n) (field n v) v c c' := by
  have hwidth : n ≤ 32 := by
    by_contra hwide
    rw [bits, if_pos (Nat.not_le.1 hwide)] at h
    cases h
  have hinto : bitsInto n 0 c = .ok v c' := by
    rwa [bits, if_neg (Nat.not_lt.2 hwidth)] at h
  -- what was taken are the bits of a value, which reading gives back
  obtain ⟨taken, rfl, hrest, hposition⟩ := exists_of_bitsInto_ok hinto
  have hread := Reads.value taken hwidth c'.rest c.position
  rw [← hrest, h] at hread
  have hvalue : v = value taken := (EStateM.Result.ok.inj hread).1
  have hfield : field taken.length v = taken := by rw [hvalue, field_value]
  refine ⟨by rw [hfield, hrest], by rw [hfield, hposition], ?_⟩
  rw [hfield, hvalue]
  exact Reads.value taken hwidth

/-! ### Readers with a value to fall back on -/

/-- Where a reader succeeds, so does one that is more lenient, with the same. -/
def Allows (strict lenient : BitTake α) : Prop :=
  ∀ c a c', strict c = .ok a c' → lenient c = .ok a c'

theorem Allows.refl (reader : BitTake α) : Allows reader reader :=
  fun _ _ _ h => h

/-- A reader that allows more may be followed by one that allows more. -/
theorem Allows.bind {strict lenient : BitTake α} {nextStrict nextLenient : α → BitTake β}
    (h : Allows strict lenient) (hnext : ∀ a, Allows (nextStrict a) (nextLenient a)) :
    Allows (strict >>= nextStrict) (lenient >>= nextLenient) := by
  intro c b c' hb
  obtain ⟨a, c₁, hfront, hback⟩ := exists_of_bind_ok hb
  show EStateM.bind lenient nextLenient c = _
  rw [EStateM.bind, h _ _ _ hfront]
  exact hnext a _ _ _ hback

/-- A value in place of a failure is more than nothing. -/
theorem Allows.orElse (reader : BitTake α) (fallback : α) :
    Allows reader (reader.orElse fallback) := by
  intro c a c' h
  rw [BitTake.orElse, h]

/-- What is read strictly is read. -/
theorem Reads.allow {strict lenient : BitTake α} {bits : List Bool} {a : α}
    (hreads : Reads strict bits a) (h : Allows strict lenient) : Reads lenient bits a :=
  fun rest position => h _ _ _ (hreads rest position)

/-- What comes of a lenient reader was read or is what it falls back on. -/
theorem of_orElse_ok {fallback a : α} (h : reader.orElse fallback c = .ok a c') :
    reader c = .ok a c' ∨ a = fallback := by
  unfold BitTake.orElse at h
  split at h
  · rename_i hread
    cases h
    exact .inl hread
  · cases h
    exact .inr rfl

end LiveIngest.BitTake
