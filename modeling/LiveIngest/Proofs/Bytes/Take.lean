import LiveIngest.Bytes.Take
import LiveIngest.Proofs.Bytes.Endian

/-!
# Readers of fields

What a reader makes of a whole body: a reader made of two goes on with what the first leaves, or
ends where the first does (`from?_bind_of_ok`, `from?_bind_of_error`). A field that is there is read
back in front of whatever follows it (`bytes_append`, `nat_bigEndian` and one lemma for each width).
A field that is not there is a short read, and nothing else keeps a field from being read
(`uint16_cases`, `uint32_cases`).
-/

namespace LiveIngest.Take

variable {α β : Type}

/-- What is read first is left out of what is read then. -/
theorem from?_bind_of_ok {first : Take α} {next : α → Take β} {body left : List UInt8} {a : α}
    (h : first body = .ok a left) : (first >>= next).from? body = (next a).from? left := by
  simp only [from?, bind, EStateM.bind, h]

/-- What fails first fails the whole. -/
theorem from?_bind_of_error {first : Take α} {next : α → Take β} {body left : List UInt8}
    {f : Fault} (h : first body = .error f left) : (first >>= next).from? body = .error f := by
  simp only [from?, bind, EStateM.bind, h]

/-- What was read may be wrapped. -/
theorem from?_map (reader : Take α) (g : α → β) (body : List UInt8) :
    (reader >>= fun a => pure (g a)).from? body = (reader.from? body).map g := by
  simp only [from?, bind, EStateM.bind]
  cases reader body <;> rfl

/-- Bytes that are there are taken off the front. -/
theorem bytes_append (front rest : List UInt8) :
    bytes front.length (front ++ rest) = .ok front rest := by
  unfold bytes
  rw [List.take_left, List.drop_left]
  exact if_pos rfl

/-- An integer field is read back, modulo its range. -/
theorem nat_bigEndian (w n : Nat) (rest : List UInt8) :
    nat w (Bytes.bigEndian w n ++ rest) = .ok (n % 256 ^ w) rest := by
  have hbytes := bytes_append (Bytes.bigEndian w n) rest
  rw [Bytes.length_bigEndian] at hbytes
  simp only [nat, bind, EStateM.bind, pure, EStateM.pure, hbytes, Bytes.ofBigEndian_bigEndian_mod]

theorem uint8_cons (b : UInt8) (rest : List UInt8) : uint8 (b :: rest) = .ok b rest := by
  simp [uint8, nat, bytes, bind, EStateM.bind, pure, EStateM.pure, Bytes.ofBigEndian]

theorem uint16_bigEndian (n : Nat) (rest : List UInt8) :
    uint16 (Bytes.bigEndian 2 n ++ rest) = .ok (UInt16.ofNat n) rest := by
  simp only [uint16, bind, EStateM.bind, pure, EStateM.pure, nat_bigEndian]
  rw [show 256 ^ 2 = 2 ^ 16 from rfl, UInt16.ofNat_mod_size]

theorem uint32_bigEndian_ofNat (n : Nat) (rest : List UInt8) :
    uint32 (Bytes.bigEndian 4 n ++ rest) = .ok (UInt32.ofNat n) rest := by
  simp only [uint32, bind, EStateM.bind, pure, EStateM.pure, nat_bigEndian]
  rw [show 256 ^ 4 = 2 ^ 32 from rfl, UInt32.ofNat_mod_size]

/-- A field of four bytes is read back. -/
theorem uint32_bigEndian (v : UInt32) (rest : List UInt8) :
    uint32 (Bytes.bigEndian 4 v.toNat ++ rest) = .ok v rest := by
  rw [uint32_bigEndian_ofNat, UInt32.ofNat_toNat]

theorem binary64_bigEndian (n : Binary64) (rest : List UInt8) :
    binary64 (Bytes.bigEndian 8 n.bits.toNat ++ rest) = .ok n rest := by
  simp only [binary64, bind, EStateM.bind, pure, EStateM.pure, nat_bigEndian]
  rw [show 256 ^ 8 = 2 ^ 64 from rfl, UInt64.ofNat_mod_size, UInt64.ofNat_toNat]

/-- Too few bytes are no number. -/
theorem nat_of_short {w : Nat} {left : List UInt8} (h : left.length < w) :
    nat w left = .error .shortRead left := by
  have hbytes : bytes w left = .error .shortRead left := by
    refine if_neg fun hlen => ?_
    rw [List.length_take, Nat.min_eq_right h.le] at hlen
    exact Nat.ne_of_lt h hlen
  simp only [nat, bind, EStateM.bind, hbytes]

/-- Bytes in front are a number. -/
theorem exists_bigEndian {w : Nat} {left : List UInt8} (h : w ≤ left.length) :
    ∃ n < 256 ^ w, ∃ rest, left = Bytes.bigEndian w n ++ rest := by
  have hlen : (left.take w).length = w := by rw [List.length_take, Nat.min_eq_left h]
  have hlt := Bytes.ofBigEndian_lt (left.take w)
  have hfield := Bytes.bigEndian_ofBigEndian (left.take w)
  rw [hlen] at hlt hfield
  exact ⟨_, hlt, left.drop w, by rw [hfield, List.take_append_drop]⟩

/-- Two bytes are a number of 16 bits, and less are none. -/
theorem uint16_cases (left : List UInt8) :
    (left.length < 2 ∧ uint16 left = .error .shortRead left) ∨
    ∃ v rest, left = Bytes.bigEndian 2 v.toNat ++ rest ∧ uint16 left = .ok v rest := by
  by_cases hshort : left.length < 2
  · refine .inl ⟨hshort, ?_⟩
    simp only [uint16, bind, EStateM.bind, nat_of_short hshort]
  · obtain ⟨n, hn, rest, rfl⟩ := exists_bigEndian (Nat.not_lt.1 hshort)
    have hvalue : (UInt16.ofNat n).toNat = n := UInt16.toNat_ofNat_of_lt' hn
    exact .inr ⟨UInt16.ofNat n, rest, by rw [hvalue], uint16_bigEndian n rest⟩

/-- Four bytes are a number of 32 bits, and less are none. -/
theorem uint32_cases (left : List UInt8) :
    (left.length < 4 ∧ uint32 left = .error .shortRead left) ∨
    ∃ v rest, left = Bytes.bigEndian 4 v.toNat ++ rest ∧ uint32 left = .ok v rest := by
  by_cases hshort : left.length < 4
  · refine .inl ⟨hshort, ?_⟩
    simp only [uint32, bind, EStateM.bind, nat_of_short hshort]
  · obtain ⟨n, hn, rest, rfl⟩ := exists_bigEndian (Nat.not_lt.1 hshort)
    have hvalue : (UInt32.ofNat n).toNat = n := UInt32.toNat_ofNat_of_lt' hn
    exact .inr ⟨UInt32.ofNat n, rest, by rw [hvalue], uint32_bigEndian_ofNat n rest⟩

/-- Bytes that were taken are as many as were asked for. -/
theorem length_of_bytes {n : Nat} {left front rest : List UInt8}
    (h : bytes n left = .ok front rest) : front.length = n := by
  unfold bytes at h
  dsimp only at h
  split at h
  · rename_i hlen
    cases h
    exact hlen
  · cases h

end LiveIngest.Take
