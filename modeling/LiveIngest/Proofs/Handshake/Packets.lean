import LiveIngest.Handshake.Reply

/-!
# The sizes of handshake packets

A digest stands inside its packet under either scheme (`Scheme.offset_add_le`), so that signing
replaces bytes and adds none. The answer to a packet C1 of the right size has therefore always the
same size, whatever it holds: `length_reply`.
-/

namespace LiveIngest.Handshake

/-- **A digest stands inside its packet.** -/
theorem Scheme.offset_add_le (s : Scheme) (packet : List UInt8) :
    s.offset packet + digestSize ≤ packetSize := by
  unfold Scheme.offset
  have hbase : s.base ≤ 772 := by cases s <;> decide
  have hmod := Nat.mod_lt
    (((packet.drop s.base).take 4).foldr (fun b sum => b.toNat + sum) 0) (by decide : 0 < 728)
  show _ + 32 ≤ 1536
  omega

/-- Putting a digest in replaces as many bytes as the digest has. -/
theorem length_putDigest {packet digest : List UInt8} {offset : Nat}
    (hdigest : digest.length = digestSize) (hfits : offset + digestSize ≤ packet.length) :
    (putDigest packet digest offset).length = packet.length := by
  unfold putDigest
  rw [List.length_append, List.length_append, List.length_take, List.length_drop, hdigest]
  omega

/-- Signing keeps the size of a packet. -/
theorem length_sign (crypto : Crypto) (s : Scheme) {s1 : List UInt8}
    (h : s1.length = packetSize) : (s.sign crypto s1).length = packetSize := by
  have hfits : s.offset s1 + digestSize ≤ s1.length := by
    rw [h]
    exact s.offset_add_le s1
  exact (length_putDigest (crypto.length_hmac _ _) hfits).trans h

/-- Signing a reply keeps the size of a packet. -/
theorem length_signReply (crypto : Crypto) (clientDigest : List UInt8) {s2 : List UInt8}
    (h : s2.length = packetSize) :
    (signReply crypto clientDigest s2).length = packetSize := by
  unfold signReply
  rw [List.length_append, List.length_take, crypto.length_hmac, h]
  rfl

/-- The packet to be signed has its full size. -/
theorem length_unsignedS1 (crypto : Crypto) (wall : Nat) (c1 : List UInt8) :
    (unsignedS1 crypto wall c1).length = packetSize := by
  have hversion : (if namesVersion c1 then serverVersion else [0, 0, 0, 0]).length = 4 := by
    split <;> rfl
  unfold unsignedS1
  rw [List.length_append, List.length_append, Bytes.length_bigEndian, hversion,
    crypto.length_random, List.length_replicate]
  rfl

/-- **The answer has one size**: the version, S1 and S2. -/
theorem length_reply (crypto : Crypto) (wall : Nat) {c1 : List UInt8}
    (h : c1.length = packetSize) :
    (reply crypto wall c1).2.length = 1 + packetSize + packetSize := by
  have hs1 := length_unsignedS1 crypto wall c1
  unfold reply
  dsimp only
  -- a packet with a digest is signed in place, another one is echoed
  split
  · rename_i scheme digest _
    have hs2 : (signReply crypto digest (crypto.random c1)).length = packetSize :=
      length_signReply crypto digest ((crypto.length_random c1).trans h)
    rw [List.length_cons, List.length_append, length_sign crypto scheme hs1, hs2]
    rfl
  · rw [List.length_cons, List.length_append, hs1, h]
    rfl

end LiveIngest.Handshake
