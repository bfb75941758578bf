import Mathlib.Logic.Function.Basic
import LiveIngest.Message.Packet
import LiveIngest.Proofs.Chunk.Frame

/-!
# Chunk streams one record at a time

What chunks mean, told without bytes. Every chunk stream has a `Record` of its own, which its chunks
and no others read and write:

* a header of format 0 sets the time and forgets the distance, formats 1 and 2 go a distance on and
  remember it, and each of them starts a message, whatever was under way;
* a chunk of format 3 goes on with the message under way, or starts one that repeats every field, a
  distance later;
* the payload of a chunk is as long as the chunk size allows and the message needs, and the message
  is handed over when it is complete.

`Records.Accepts` says which chunk may come next, and `Records.deliver` which messages come out of a
sequence of them.
-/

namespace LiveIngest.Chunk

/-- What is known of a chunk stream. -/
structure Record where
  timestamp : UInt32
  /-- How much later than the one before a message is that says nothing of its time. -/
  delta : UInt32
  length : Nat
  type : UInt8
  streamId : UInt32
  /-- The payload so far of the message under way. -/
  pending : Option (List UInt8)
  deriving DecidableEq, Repr

namespace Record

def soFar (r : Record) : List UInt8 :=
  r.pending.getD []

/-- How many bytes the message under way still misses. -/
def missing (r : Record) : Nat :=
  r.length - r.soFar.length

/-- The record after the headers of a chunk. Only format 0 may come first on a chunk stream. -/
def open? (r : Option Record) : Heading → Option Record
  | .full time length type streamId =>
    some ⟨time.value, 0, length, type, streamId, some []⟩
  | .sameStream time length type => r.map fun r =>
    { r with timestamp := r.timestamp + time.value, delta := time.value, length, type,
             pending := some [] }
  | .sameKind time => r.map fun r =>
    { r with timestamp := r.timestamp + time.value, delta := time.value, pending := some [] }
  | .bare => r.map fun r =>
    match r.pending with
    | some _ => r
    | none => { r with timestamp := r.timestamp + r.delta, pending := some [] }

/-- The message of a record with a payload. -/
def packet (r : Record) (chunkStream : UInt32) (payload : List UInt8) : Packet where
  timestamp := r.timestamp
  length := r.length
  type := r.type
  streamId := r.streamId
  chunkStream
  payload

/-- Take the payload of a chunk; a message that is complete is handed over. -/
def extend (r : Record) (chunkStream : UInt32) (payload : List UInt8) : Record × Option Packet :=
  if r.missing ≤ payload.length then
    ({ r with pending := none }, some (r.packet chunkStream (r.soFar ++ payload)))
  else ({ r with pending := some (r.soFar ++ payload) }, none)

end Record

/-- The records of all chunk streams. -/
abbrev Records := UInt32 → Option Record

namespace Records

def initial : Records := fun _ => none

/-- Take a chunk. Returns the records and the message that it completes. -/
def read (records : Records) (f : Frame) : Records × Option Packet :=
  match Record.open? (records f.chunkStream) f.heading with
  | some r =>
    (Function.update records f.chunkStream (some (r.extend f.chunkStream f.payload).1),
      (r.extend f.chunkStream f.payload).2)
  | none => (records, none)

/-- A chunk may come next: its headers have their sizes, its chunk stream was opened if it leans on
it, and its payload is what the chunk size allows of the bytes still missing. -/
def Accepts (size : Nat) (records : Records) (f : Frame) : Prop :=
  f.Fits ∧
    match Record.open? (records f.chunkStream) f.heading with
    | some r => f.payload.length = min size r.missing
    | none => False

instance (size : Nat) (records : Records) (f : Frame) : Decidable (records.Accepts size f) := by
  unfold Accepts
  cases Record.open? (records f.chunkStream) f.heading <;>
    exact inferInstanceAs (Decidable (_ ∧ _))

/-- Each chunk of a sequence may come after those before it. -/
def AcceptAll (size : Nat) (records : Records) : List Frame → Prop
  | [] => True
  | f :: rest => records.Accepts size f ∧ AcceptAll size (records.read f).1 rest

instance decidableAcceptAll (size : Nat) :
    (records : Records) → (frames : List Frame) → Decidable (records.AcceptAll size frames)
  | _, [] => isTrue trivial
  | records, f :: rest =>
    have := decidableAcceptAll size (records.read f).1 rest
    inferInstanceAs (Decidable (records.Accepts size f ∧ _))

/-- The messages that come out of a sequence of chunks, in order. -/
def deliver (records : Records) : List Frame → List Packet
  | [] => []
  | f :: rest => (records.read f).2.toList ++ deliver (records.read f).1 rest

def readAll (records : Records) (frames : List Frame) : Records :=
  frames.foldl (fun records f => (records.read f).1) records

/-- A chunk that may come next opens its record. -/
theorem Accepts.exists_open {size : Nat} {records : Records} {f : Frame}
    (h : records.Accepts size f) :
    ∃ r, Record.open? (records f.chunkStream) f.heading = some r ∧
      f.payload.length = min size r.missing ∧
      records.read f =
        (Function.update records f.chunkStream (some (r.extend f.chunkStream f.payload).1),
          (r.extend f.chunkStream f.payload).2) := by
  obtain ⟨-, h⟩ := h
  unfold read
  cases hopen : Record.open? (records f.chunkStream) f.heading with
  | none => exact absurd h (by rw [hopen]; exact id)
  | some r =>
    rw [hopen] at h
    exact ⟨r, rfl, h, rfl⟩

end Records

end LiveIngest.Chunk
