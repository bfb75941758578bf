import LiveIngest.Bytes.Endian
import LiveIngest.Handshake.Scheme

/-!
# The server's answer

The server answers a client's packet C1 in one piece: its version byte, S1 and S2. A client that
announces a version and holds a digest is answered with digests under the same scheme; every other
client gets its own bytes back.
-/

namespace LiveIngest.Handshake

def version : UInt8 := 3

/-- The version that S1 names to a client that named one. -/
def serverVersion : List UInt8 := [3, 5, 1, 1]

/-- The kind of handshake that a client asked for. -/
inductive Format
  /-- Random bytes and no digests. -/
  | plain
  | digest (scheme : Scheme)
  deriving DecidableEq, Repr

/-- True when the packet names a client version. -/
def namesVersion (c1 : List UInt8) : Bool :=
  c1.getD 7 0 != 0

/-- The kind of handshake that C1 asks for, and the client's digest. -/
def detect (crypto : Crypto) (c1 : List UInt8) : Format × Option (List UInt8) :=
  if namesVersion c1 then
    match verify crypto c1 with
    | some (scheme, digest) => (.digest scheme, some digest)
    | none => (.plain, none)
  else (.plain, none)

/-- S1 before it is signed. -/
def unsignedS1 (crypto : Crypto) (wall : Nat) (c1 : List UInt8) : List UInt8 :=
  Bytes.bigEndian 4 wall ++ (if namesVersion c1 then serverVersion else [0, 0, 0, 0]) ++
    crypto.random (List.replicate (packetSize - 8) 0)

/-- The whole answer to C1 at a wall clock time in milliseconds, which is sent modulo 2 ^ 32. -/
def reply (crypto : Crypto) (wall : Nat) (c1 : List UInt8) : Format × List UInt8 :=
  let s1 := unsignedS1 crypto wall c1
  match detect crypto c1 with
  | (.digest scheme, some digest) =>
    (.digest scheme,
      version :: (scheme.sign crypto s1 ++ signReply crypto digest (crypto.random c1)))
  | (format, _) => (format, version :: (s1 ++ c1))

end LiveIngest.Handshake
