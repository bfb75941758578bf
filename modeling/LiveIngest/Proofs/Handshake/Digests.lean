import LiveIngest.Proofs.Handshake.Packets

/-!
# What is signed is verified

The digest of a packet stands inside the very bytes it is computed from, at a place that four of
these bytes say. This works out because the place is behind the four bytes and inside the packet
(`Scheme.base_add_le`, `Scheme.offset_add_le`): writing a digest moves no digest
(`Scheme.offset_putDigest`), and the code covers the other bytes only (`packetDigest_putDigest`).

* `Scheme.holds_putDigest` — a packet that gets its digest holds it, under any key;
* `verify_eq_some_iff`, `verify_eq_none_iff` — the scheme under which a client's packet is accepted;
* `reply_of_verify`, `reply_of_plain` — the answer to a client that proved itself, and to any other;
* `digests_agree` — all of this for one packet.

Nothing is assumed about the authentication code but that it has 32 bytes.
-/

namespace LiveIngest.Handshake

variable {crypto : Crypto} {packet digest key : List UInt8} {offset : Nat} {s : Scheme}

/-- The packet holds the digest of its other bytes under a key. -/
def Scheme.Holds (crypto : Crypto) (key packet : List UInt8) (s : Scheme) : Prop :=
  slot packet (s.offset packet) = packetDigest crypto key packet (s.offset packet)

instance (crypto : Crypto) (key packet : List UInt8) (s : Scheme) :
    Decidable (s.Holds crypto key packet) :=
  inferInstanceAs (Decidable (_ = _))

/-! ### The place of a digest -/

/-- A digest stands behind the four bytes that say where it is. -/
theorem Scheme.base_add_le (s : Scheme) (packet : List UInt8) : s.base + 4 ≤ s.offset packet := by
  unfold Scheme.offset
  omega

/-- The place depends on nothing behind the four bytes. -/
theorem Scheme.offset_congr {other : List UInt8}
    (h : packet.take (s.base + 4) = other.take (s.base + 4)) : s.offset packet = s.offset other := by
  have hwindow : (packet.drop s.base).take 4 = (other.drop s.base).take 4 := by
    rw [List.take_drop, List.take_drop, h]
  unfold Scheme.offset
  rw [hwindow]

/-- Nothing in front of the slot is touched. -/
theorem take_putDigest (h : offset ≤ packet.length) :
    (putDigest packet digest offset).take offset = packet.take offset := by
  unfold putDigest
  rw [List.append_assoc, List.take_left' (List.length_take_of_le h)]

/-- The digest is in the slot. -/
theorem slot_putDigest (h : offset ≤ packet.length) (hdigest : digest.length = digestSize) :
    slot (putDigest packet digest offset) offset = digest := by
  unfold slot putDigest
  rw [List.append_assoc, List.drop_left' (List.length_take_of_le h), List.take_left' hdigest]

/-- Nothing behind the slot is touched. -/
theorem drop_putDigest (h : offset ≤ packet.length) (hdigest : digest.length = digestSize) :
    (putDigest packet digest offset).drop (offset + digestSize) =
      packet.drop (offset + digestSize) := by
  have hfront : (packet.take offset ++ digest).length = offset + digestSize := by
    rw [List.length_append, List.length_take_of_le h, hdigest]
  unfold putDigest
  exact List.drop_left' hfront

/-- **Writing a digest does not move it.** -/
theorem Scheme.offset_putDigest (h : s.offset packet ≤ packet.length) :
    s.offset (putDigest packet digest (s.offset packet)) = s.offset packet := by
  refine Scheme.offset_congr ?_
  have hfront : (putDigest packet digest (s.offset packet)).take (s.offset packet) =
      packet.take (s.offset packet) := take_putDigest h
  have htake := congrArg (List.take (s.base + 4)) hfront
  rwa [List.take_take, List.take_take, Nat.min_eq_left (s.base_add_le packet)] at htake

/-- The authentication code does not cover the digest. -/
theorem packetDigest_putDigest (h : offset ≤ packet.length)
    (hdigest : digest.length = digestSize) :
    packetDigest crypto key (putDigest packet digest offset) offset =
      packetDigest crypto key packet offset := by
  unfold packetDigest
  rw [take_putDigest h, drop_putDigest h hdigest]

/-- **A packet that gets its digest holds it.** -/
theorem Scheme.holds_putDigest (h : s.offset packet ≤ packet.length) :
    s.Holds crypto key (putDigest packet
      (packetDigest crypto key packet (s.offset packet)) (s.offset packet)) := by
  have hdigest : (packetDigest crypto key packet (s.offset packet)).length = digestSize :=
    crypto.length_hmac _ _
  unfold Scheme.Holds
  rw [Scheme.offset_putDigest h, slot_putDigest h hdigest, packetDigest_putDigest h hdigest]

/-! ### Clients -/

theorem Scheme.verify_of_holds (h : s.Holds crypto clientKeyText packet) :
    s.verify crypto packet = some (slot packet (s.offset packet)) := by
  unfold Scheme.verify
  dsimp only
  rw [if_pos h.symm, h]

theorem Scheme.verify_of_not_holds (h : ¬ s.Holds crypto clientKeyText packet) :
    s.verify crypto packet = none :=
  if_neg fun heq => h heq.symm

/-- The schemes in the order in which they are tried. -/
theorem verify_eq (crypto : Crypto) (packet : List UInt8) :
    verify crypto packet =
      if Scheme.one.Holds crypto clientKeyText packet then
        some (.one, slot packet (Scheme.one.offset packet))
      else if Scheme.two.Holds crypto clientKeyText packet then
        some (.two, slot packet (Scheme.two.offset packet))
      else none := by
  unfold verify
  rw [List.findSome?_cons, List.findSome?_cons, List.findSome?_nil]
  -- the schemes are tried in this order
  by_cases hone : Scheme.one.Holds crypto clientKeyText packet
  · rw [if_pos hone, Scheme.verify_of_holds hone]
    rfl
  · rw [if_neg hone, Scheme.verify_of_not_holds hone]
    by_cases htwo : Scheme.two.Holds crypto clientKeyText packet
    · rw [if_pos htwo, Scheme.verify_of_holds htwo]
      rfl
    · rw [if_neg htwo, Scheme.verify_of_not_holds htwo]
      rfl

/-- **The accepted scheme**: one under which the packet holds its digest, and the first such. -/
theorem verify_eq_some_iff :
    verify crypto packet = some (s, digest) ↔
      s.Holds crypto clientKeyText packet ∧ digest = slot packet (s.offset packet) ∧
        (s = .two → ¬ Scheme.one.Holds crypto clientKeyText packet) := by
  rw [verify_eq]
  -- the first scheme is tried first, and hides the second one
  by_cases hone : Scheme.one.Holds crypto clientKeyText packet
  · rw [if_pos hone]
    cases s <;> simp [hone, eq_comm]
  · rw [if_neg hone]
    by_cases htwo : Scheme.two.Holds crypto clientKeyText packet
    · rw [if_pos htwo]
      cases s <;> simp [hone, htwo, eq_comm]
    · rw [if_neg htwo]
      cases s <;> simp [hone, htwo]

/-- Nothing is verified exactly if the packet holds in neither scheme. -/
theorem verify_eq_none_iff :
    verify crypto packet = none ↔ ∀ s : Scheme, ¬ s.Holds crypto clientKeyText packet := by
  constructor
  · intro hnone
    rw [verify_eq] at hnone
    have hone : ¬ Scheme.one.Holds crypto clientKeyText packet := fun h => by simp [h] at hnone
    have htwo : ¬ Scheme.two.Holds crypto clientKeyText packet :=
      fun h => by simp [hone, h] at hnone
    intro s
    cases s with
    | one => exact hone
    | two => exact htwo
  · intro hall
    rw [verify_eq, if_neg (hall .one), if_neg (hall .two)]

/-! ### The server's answer -/

/-- What was signed holds. -/
theorem Scheme.holds_sign (crypto : Crypto) (s : Scheme) {s1 : List UInt8}
    (h : s1.length = packetSize) : s.Holds crypto serverKeyText (s.sign crypto s1) := by
  have hfits := s.offset_add_le s1
  exact Scheme.holds_putDigest (by omega)

/-- **S2 answers the client's digest**: its last bytes are the code of the ones before. -/
theorem drop_signReply (crypto : Crypto) (digest : List UInt8) {s2 : List UInt8}
    (h : s2.length = packetSize) :
    (signReply crypto digest s2).drop (packetSize - digestSize) =
      crypto.hmac (crypto.hmac serverKey [digest])
        [(signReply crypto digest s2).take (packetSize - digestSize)] := by
  have hbody : (s2.take (packetSize - digestSize)).length = packetSize - digestSize :=
    List.length_take_of_le (by omega)
  unfold signReply
  rw [h, List.drop_left' hbody, List.take_left' hbody]

/-- The answer to a client that names a version and holds a digest. -/
theorem reply_of_verify (wall : Nat) (hlength : packet.length = packetSize)
    (hversion : namesVersion packet = true) (hverify : verify crypto packet = some (s, digest)) :
    ∃ s1 s2, reply crypto wall packet = (.digest s, version :: (s1 ++ s2)) ∧
      s1.length = packetSize ∧ s2.length = packetSize ∧ s.Holds crypto serverKeyText s1 ∧
      s2.drop (packetSize - digestSize) =
        crypto.hmac (crypto.hmac serverKey [digest]) [s2.take (packetSize - digestSize)] := by
  have hs1 := length_unsignedS1 crypto wall packet
  have hs2 : (crypto.random packet).length = packetSize :=
    (crypto.length_random packet).trans hlength
  refine ⟨s.sign crypto (unsignedS1 crypto wall packet),
    signReply crypto digest (crypto.random packet), ?_, length_sign crypto s hs1,
    length_signReply crypto digest hs2, s.holds_sign crypto hs1, drop_signReply crypto digest hs2⟩
  simp only [reply, detect, hversion, hverify, if_true]

/-- Every other client gets its own bytes back. -/
theorem reply_of_plain (wall : Nat)
    (hplain : namesVersion packet = false ∨ verify crypto packet = none) :
    reply crypto wall packet =
      (.plain, version :: (unsignedS1 crypto wall packet ++ packet)) := by
  have hdetect : detect crypto packet = (.plain, none) := by
    unfold detect
    obtain hversion | hverify := hplain
    · rw [hversion]
      rfl
    · rw [hverify, ite_self]
  unfold reply
  rw [hdetect]

/-- **Signing and verifying agree**, whatever the authentication code is.

Under both schemes a digest stands inside the packet and behind the four bytes that say where, so
that writing it moves nothing, and a packet that the server signs holds its digest. A client's
packet is accepted under the first scheme whose digest it holds, and refused only when it holds
none. A client that names a version and is accepted is answered under its own scheme, with a code
in S2 under the key that its digest leads to; every other client gets its packet back as S2. -/
theorem digests_agree (crypto : Crypto) {packet : List UInt8}
    (hlength : packet.length = packetSize) :
    (∀ s : Scheme,
      s.base + 4 ≤ s.offset packet ∧ s.offset packet + digestSize ≤ packet.length ∧
      (∀ digest, digest.length = digestSize →
        s.offset (putDigest packet digest (s.offset packet)) = s.offset packet) ∧
      s.Holds crypto serverKeyText (s.sign crypto packet)) ∧
    (∀ s digest, verify crypto packet = some (s, digest) ↔
      s.Holds crypto clientKeyText packet ∧ digest = slot packet (s.offset packet) ∧
        (s = .two → ¬ Scheme.one.Holds crypto clientKeyText packet)) ∧
    (verify crypto packet = none ↔ ∀ s : Scheme, ¬ s.Holds crypto clientKeyText packet) ∧
    ∀ wall,
      (∀ s digest, namesVersion packet = true → verify crypto packet = some (s, digest) →
        ∃ s1 s2, reply crypto wall packet = (.digest s, version :: (s1 ++ s2)) ∧
          s1.length = packetSize ∧ s2.length = packetSize ∧ s.Holds crypto serverKeyText s1 ∧
          s2.drop (packetSize - digestSize) =
            crypto.hmac (crypto.hmac serverKey [digest])
              [s2.take (packetSize - digestSize)]) ∧
      (namesVersion packet = false ∨ verify crypto packet = none →
        ∃ s1, reply crypto wall packet = (.plain, version :: (s1 ++ packet)) ∧
          s1.length = packetSize) := by
  refine ⟨fun s => ?_, fun s digest => verify_eq_some_iff, verify_eq_none_iff, fun wall =>
    ⟨fun s digest => reply_of_verify wall hlength, fun hplain => ?_⟩⟩
  · have hfits := s.offset_add_le packet
    have hinside : s.offset packet ≤ packet.length := by omega
    exact ⟨s.base_add_le packet, hlength ▸ hfits, fun digest _ => Scheme.offset_putDigest hinside,
      s.holds_sign crypto hlength⟩
  · exact ⟨unsignedS1 crypto wall packet, reply_of_plain wall hplain,
      length_unsignedS1 crypto wall packet⟩

/-- A code that only counts the parts of its message. -/
def counting : Crypto where
  hmac _ parts := List.replicate 32 (UInt8.ofNat parts.length)
  random buffer := List.replicate buffer.length 7
  length_hmac _ _ := List.length_replicate
  length_random _ := List.length_replicate

/-- A packet with a version that holds the right digest under the second scheme only. -/
def secondSchemePacket : List UInt8 :=
  List.replicate 7 0 ++ 1 :: List.replicate 768 0 ++ List.replicate 32 2 ++ List.replicate 728 0

/-- Such a client is answered under the second scheme. -/
theorem digests_agree_secondScheme :
    secondSchemePacket.length = packetSize ∧
      verify counting secondSchemePacket = some (.two, List.replicate 32 2) ∧
      ∃ s1 s2, reply counting 0 secondSchemePacket = (.digest .two, version :: (s1 ++ s2)) ∧
        Scheme.two.Holds counting serverKeyText s1 ∧
        s2.drop (packetSize - digestSize) = List.replicate 32 1 := by
  have hlength : secondSchemePacket.length = packetSize := by decide +kernel
  obtain ⟨-, hverify, -, hreply⟩ := digests_agree counting hlength
  have haccepted : verify counting secondSchemePacket = some (.two, List.replicate 32 2) :=
    (hverify .two _).mpr (by decide +kernel)
  obtain ⟨s1, s2, hs, -, -, hs1, hs2⟩ :=
    (hreply 0).1 .two _ (by decide +kernel) haccepted
  exact ⟨hlength, haccepted, s1, s2, hs, hs1, hs2⟩

end LiveIngest.Handshake
