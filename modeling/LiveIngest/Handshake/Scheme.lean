import LiveIngest.Digest.Hmac

/-!
# Digests in handshake packets

A handshake packet has 1536 bytes. A client that wants to prove itself hides an authentication code
of 32 bytes somewhere in the packet: four bytes of the packet, summed up, say where. There are two
**schemes**, which differ in where these four bytes are. The code covers the packet without the 32
bytes that hold it.

* `Scheme.offset` — where a packet keeps its digest;
* `verify` — the first scheme under which a client's packet holds the right digest;
* `Scheme.sign`, `signReply` — put the server's digests into its own packets.

Hashing and randomness are a parameter, `Crypto`.
-/

namespace LiveIngest.Handshake

/-- What the handshake needs from cryptography. -/
structure Crypto where
  /-- The authentication code, under a key, of a message that is given in parts. -/
  hmac : (key : List UInt8) → (parts : List (List UInt8)) → List UInt8
  /-- Fill a buffer with random bytes. -/
  random : (buffer : List UInt8) → List UInt8
  length_hmac : ∀ key parts, (hmac key parts).length = 32
  length_random : ∀ buffer, (random buffer).length = buffer.length

namespace Crypto

/-- HMAC-SHA256 with bytes that go up by seven from a seed in place of random ones. -/
def seeded (seed : Nat) : Crypto where
  hmac key parts := Hmac.sha256 key parts.flatten
  random buffer := (List.range buffer.length).map fun i => UInt8.ofNat (seed + 7 * i)
  length_hmac key parts := Hmac.length_sha256 key parts.flatten
  length_random buffer := by simp

end Crypto

/-- The size of each of the packets C1, S1, C2 and S2. -/
def packetSize : Nat := 1536

def digestSize : Nat := 32

def keyTail : List UInt8 := [
  0xf0, 0xee, 0xc2, 0x4a, 0x80, 0x68, 0xbe, 0xe8, 0x2e, 0x00, 0xd0, 0xd1, 0x02, 0x9e, 0x7e, 0x57,
  0x6e, 0xec, 0x5d, 0x2d, 0x29, 0x80, 0x6f, 0xab, 0x93, 0xb8, 0xe6, 0x36, 0xcf, 0xeb, 0x31, 0xae]

def clientKeyText : List UInt8 :=
  "Genuine Adobe Flash Player 001".toByteArray.data.toList

def serverKeyText : List UInt8 :=
  "Genuine Adobe Flash Media Server 001".toByteArray.data.toList

/-- The server's full key, from which the key of a reply is derived. -/
def serverKey : List UInt8 :=
  serverKeyText ++ keyTail

/-- Where the bytes are that say where a packet keeps its digest. -/
inductive Scheme
  | one
  | two
  deriving DecidableEq, Repr

namespace Scheme

def base : Scheme → Nat
  | one => 8
  | two => 772

/-- The place of the digest: behind the four bytes, by their sum modulo 728. -/
def offset (s : Scheme) (packet : List UInt8) : Nat :=
  ((packet.drop s.base).take 4).foldr (fun b sum => b.toNat + sum) 0 % 728 + s.base + 4

end Scheme

/-- The authentication code of a packet whose digest is at `offset`. -/
def packetDigest (crypto : Crypto) (key packet : List UInt8) (offset : Nat) : List UInt8 :=
  crypto.hmac key [packet.take offset, packet.drop (offset + digestSize)]

/-- The digest that a packet holds at `offset`. -/
def slot (packet : List UInt8) (offset : Nat) : List UInt8 :=
  (packet.drop offset).take digestSize

/-- The packet with a digest put in at `offset`. -/
def putDigest (packet digest : List UInt8) (offset : Nat) : List UInt8 :=
  packet.take offset ++ digest ++ packet.drop (offset + digestSize)

/-- The digest of a client's packet under a scheme, if it is the right one. -/
def Scheme.verify (crypto : Crypto) (c1 : List UInt8) (s : Scheme) : Option (List UInt8) :=
  let offset := s.offset c1
  let expected := packetDigest crypto clientKeyText c1 offset
  if expected = slot c1 offset then some expected else none

/-- The scheme and digest of a client's packet. The first scheme is tried before the second. -/
def verify (crypto : Crypto) (c1 : List UInt8) : Option (Scheme × List UInt8) :=
  [Scheme.one, Scheme.two].findSome? fun s => (s.verify crypto c1).map (s, ·)

/-- The server's packet S1 with its digest. -/
def Scheme.sign (crypto : Crypto) (s : Scheme) (s1 : List UInt8) : List UInt8 :=
  let offset := s.offset s1
  putDigest s1 (packetDigest crypto serverKeyText s1 offset) offset

/-- The server's packet S2, whose last 32 bytes answer the client's digest. -/
def signReply (crypto : Crypto) (clientDigest s2 : List UInt8) : List UInt8 :=
  let body := s2.take (s2.length - digestSize)
  body ++ crypto.hmac (crypto.hmac serverKey [clientDigest]) [body]

end LiveIngest.Handshake
