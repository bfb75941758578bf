import LiveIngest.Fault
import LiveIngest.Handshake.Reply

/-!
# The handshake as a machine

The client sends a version byte and two packets, C1 and C2; the server answers C1. The machine can
be stopped behind any byte and goes on where it was: `Machine.parse` takes of a slice what the
handshake still misses, and leaves alone what follows C2.
-/

namespace LiveIngest.Handshake

/-- How far the handshake has come. -/
inductive Stage
  | c0
  /-- C1, of which `missing` bytes have not come; the others are here, the last one first. -/
  | c1 (missing : Nat) (seen : List UInt8)
  /-- C2, of which `missing` bytes have not come. -/
  | c2 (missing : Nat)
  | done
  deriving DecidableEq, Repr

namespace Stage

def label : Stage → String
  | c0 => "WaitC0"
  | c1 _ _ => "WaitC1"
  | c2 _ => "WaitC2"
  | done => "Connected"

def isDone : Stage → Bool
  | done => true
  | _ => false

end Stage

/-- The server's side of a handshake. -/
structure Machine where
  stage : Stage
  /-- What the client asked for; plain until C1 has come. -/
  format : Format
  deriving DecidableEq, Repr

namespace Machine

def initial : Machine := ⟨.c0, .plain⟩

def isDone (m : Machine) : Bool :=
  m.stage.isDone

/-- The outcome of reading a slice. -/
structure Reading where
  machine : Machine
  consumed : Nat
  reply : List UInt8
  fault : Option Fault

/-- The reading with bytes taken, and an answer given, in front of it. -/
def Reading.after (r : Reading) (n : Nat) (reply : List UInt8) : Reading :=
  { r with consumed := n + r.consumed, reply := reply ++ r.reply }

/-- Read C2, of which `missing` bytes have not come. -/
def parseC2 (m : Machine) (missing : Nat) (slice : List UInt8) : Reading :=
  let n := min missing slice.length
  ⟨{ m with stage := if n < missing then .c2 (missing - n) else .done }, n, [], none⟩

/-- Read C1, of which `missing` bytes have not come, at a wall clock time. -/
def parseC1 (crypto : Crypto) (wall : Nat) (m : Machine) (missing : Nat)
    (seen slice : List UInt8) : Reading :=
  let run := slice.take missing
  let seen := run.reverse ++ seen
  if run.length < missing then
    ⟨{ m with stage := .c1 (missing - run.length) seen }, run.length, [], none⟩
  else
    -- The last byte of C1: the whole answer goes out at once.
    let (format, bytes) := reply crypto wall seen.reverse
    (parseC2 ⟨.c2 packetSize, format⟩ packetSize (slice.drop missing)).after run.length bytes

def parseC0 (crypto : Crypto) (wall : Nat) (m : Machine) (slice : List UInt8) : Reading :=
  match slice with
  | [] => ⟨m, 0, [], none⟩
  | b :: rest =>
    if b = version then (m.parseC1 crypto wall packetSize [] rest).after 1 []
    else ⟨m, 0, [], some (.unsupportedVersion b version)⟩

/-- Read a slice up to the end of the handshake or a fault in it. -/
def parse (crypto : Crypto) (wall : Nat) (m : Machine) (slice : List UInt8) : Reading :=
  match m.stage with
  | .c0 => m.parseC0 crypto wall slice
  | .c1 missing seen => m.parseC1 crypto wall missing seen slice
  | .c2 missing => m.parseC2 missing slice
  | .done => ⟨m, 0, [], none⟩

end Machine

end LiveIngest.Handshake
