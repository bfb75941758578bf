import LiveIngest.Keyed
import LiveIngest.Chunk.Lane
import LiveIngest.Chunk.Meter
import LiveIngest.Message.Control

/-!
# From messages to bytes

Everything that waits to be sent on a connection: raw bytes of the handshake first, then one lane
for each chunk stream. Lanes are served in ascending order of their ids, so that the id of a chunk
stream is its priority.

* `Mux.next?` — the next chunk of the lowest lane that has one;
* `Mux.serialize` — as many bytes as fit a budget. Raw bytes may be cut anywhere, chunks go out
  whole, and the pass ends where a chunk of full size would not be sure to fit;
* `Mux.reset` — drop the messages of a message stream, and tell the peer to give up those that were
  cut in the middle.

A chunk size that is announced holds for the chunks behind the announcement.
-/

namespace LiveIngest.Chunk

/-- The sending side of a connection. -/
structure Mux where
  raw : List UInt8
  lanes : Keyed UInt32 Lane
  /-- The largest payload of a chunk, at least 1. -/
  chunkSize : Nat
  meter : Meter
  deriving DecidableEq, Repr

/-- The next chunk of the first lane that has one. -/
def nextOfLanes? (size : Nat) :
    Keyed UInt32 Lane → Option (Keyed UInt32 Lane × List UInt8 × Option Packet)
  | [] => none
  | (id, l) :: rest =>
    match l.next? size with
    | some w => some ((id, w.lane) :: rest, w.bytes, w.finished)
    | none => (nextOfLanes? size rest).map fun (rest, written) => ((id, l) :: rest, written)

def lanesBacklog (lanes : Keyed UInt32 Lane) : Nat :=
  lanes.foldr (fun l size => l.2.backlog + size) 0

/-- A chunk makes the backlog smaller. -/
theorem lanesBacklog_nextOfLanes?_lt {size : Nat} {lanes lanes' : Keyed UInt32 Lane}
    {bytes : List UInt8} {finished : Option Packet}
    (h : nextOfLanes? size lanes = some (lanes', bytes, finished)) :
    lanesBacklog lanes' < lanesBacklog lanes := by
  induction lanes generalizing lanes' with
  | nil => simp [nextOfLanes?] at h
  | cons e rest ih =>
    obtain ⟨id, l⟩ := e
    -- the first lane with data is the one that is served
    unfold nextOfLanes? at h
    split at h
    · rename_i w hw
      have := Lane.backlog_next?_lt hw
      simp only [Option.some.injEq, Prod.mk.injEq] at h
      obtain ⟨rfl, -, -⟩ := h
      simp only [lanesBacklog, List.foldr_cons]
      omega
    · obtain ⟨⟨rest', written⟩, hr, he⟩ := Option.map_eq_some_iff.1 h
      simp only [Prod.mk.injEq] at he
      obtain ⟨rfl, rfl⟩ := he
      have := ih hr
      simp only [lanesBacklog, List.foldr_cons] at this ⊢
      omega

namespace Mux

/-- A connection that sent nothing and has nothing to send. -/
def initial : Mux where
  raw := []
  lanes := []
  chunkSize := defaultSize
  meter := .initial

def pushRaw (m : Mux) (bytes : List UInt8) : Mux :=
  { m with raw := m.raw ++ bytes }

/-- Put a message on the lane of its chunk stream. -/
def enqueue (m : Mux) (p : Packet) : Mux :=
  let lane := (m.lanes.get? p.chunkStream).getD (.fresh p.chunkStream)
  { m with lanes := m.lanes.put p.chunkStream (lane.enqueue p) }

def hasData (m : Mux) : Bool :=
  !m.raw.isEmpty || m.lanes.any fun l => l.2.hasData

/-- The message that tells the peer to give up a message under way. -/
def abortPacket (chunkStream : UInt32) : Packet :=
  let abort := Control.abort chunkStream
  .ofPayload 0 abort.type 0 Priority.control.chunkStream abort.serialize

/-- Drop everything that waits for a message stream. Chunk streams that were cut in the middle of a
message are returned in ascending order, and an abort for each is put on the control lane. -/
def reset (m : Mux) (streamId : UInt32) : Mux × List UInt32 :=
  -- Every lane is reset before the first abort is queued, so that no abort is dropped again.
  let served := m.lanes.map fun (id, l) => (id, l.reset streamId)
  let cut := (served.filter fun e => e.2.2).map fun e => e.2.1.chunkStream
  let m := { m with lanes := served.map fun e => (e.1, e.2.1) }
  (cut.foldl (fun m id => m.enqueue (abortPacket id)) m, cut)

/-- The chunk size after a message was sent. -/
def sizeAfter (size : Nat) (sent : Option Packet) : Nat :=
  match sent with
  | some p =>
    if p.type = 1 then
      match Control.parse 1 p.payload with
      | .ok (.setChunkSize n) => max n.toNat 1
      | _ => size
    else size
  | none => size

def next? (m : Mux) : Option (Mux × List UInt8) :=
  (nextOfLanes? m.chunkSize m.lanes).map fun (lanes, bytes, finished) =>
    ({ m with lanes, chunkSize := sizeAfter m.chunkSize finished }, bytes)

def backlog (m : Mux) : Nat :=
  lanesBacklog m.lanes

theorem backlog_next?_lt {m m' : Mux} {bytes : List UInt8} (h : m.next? = some (m', bytes)) :
    m'.backlog < m.backlog := by
  unfold next? at h
  obtain ⟨⟨lanes, written, finished⟩, hn, he⟩ := Option.map_eq_some_iff.1 h
  simp only [Prod.mk.injEq] at he
  obtain ⟨rfl, rfl⟩ := he
  exact lanesBacklog_nextOfLanes?_lt hn

/-- Write chunks while one of full size fits `room`. `pieces` holds what was written before, the
last piece first. -/
def fill (m : Mux) (room : Nat) (pieces : List (List UInt8)) : Mux × List (List UInt8) :=
  match _h : m.next? with
  | none => (m, pieces)
  | some (m', bytes) =>
    -- The size before the chunk decides, also where the chunk changes it.
    if room < m.chunkSize + maxHeaderSize then (m, pieces)
    else m'.fill (room - bytes.length) (bytes :: pieces)
termination_by m.backlog
decreasing_by exact backlog_next?_lt _h

/-- Filling leaves the raw bytes alone, and either writes nothing or makes the backlog smaller. -/
theorem fill_cases (m : Mux) (room : Nat) (pieces : List (List UInt8)) :
    (m.fill room pieces).1.raw = m.raw ∧
      (m.fill room pieces = (m, pieces) ∨ (m.fill room pieces).1.backlog < m.backlog) := by
  fun_induction m.fill room pieces with
  | case1 => simp
  | case2 => simp
  | case3 m room pieces m' bytes h _ ih =>
    have hlt := backlog_next?_lt h
    refine ⟨ih.1.trans ?_, Or.inr ?_⟩
    · unfold next? at h
      obtain ⟨_, _, he⟩ := Option.map_eq_some_iff.1 h
      simp only [Prod.mk.injEq] at he
      rw [← he.1]
    · rcases ih.2 with h | h
      · rw [h]; exact hlt
      · omega

/-- Take out at most `budget` bytes to be sent now. -/
def serialize (m : Mux) (now budget : Nat) : Mux × List UInt8 :=
  -- No chunk goes out in front of raw bytes: what is left of the budget is for chunks.
  let raw := m.raw.take budget
  let (m, pieces) := { m with raw := m.raw.drop budget }.fill (budget - raw.length) [raw]
  let out := pieces.reverse.flatten
  if out.isEmpty then (m, out) else ({ m with meter := m.meter.record now out.length }, out)

def load (m : Mux) : Nat :=
  m.raw.length + m.backlog

/-- Taking something out makes the load smaller. -/
theorem load_serialize_lt {m : Mux} {now budget : Nat} (h : (m.serialize now budget).2 ≠ []) :
    (m.serialize now budget).1.load < m.load := by
  obtain ⟨hraw, hcases⟩ := fill_cases { m with raw := m.raw.drop budget }
    (budget - (m.raw.take budget).length) [m.raw.take budget]
  rcases hfill : fill { m with raw := m.raw.drop budget }
    (budget - (m.raw.take budget).length) [m.raw.take budget] with ⟨m', pieces⟩
  have hser : m.serialize now budget = if pieces.reverse.flatten.isEmpty
      then (m', pieces.reverse.flatten)
      else ({ m' with meter := m'.meter.record now pieces.reverse.flatten.length },
        pieces.reverse.flatten) := by
    unfold serialize
    simp only [hfill]
  have hload : (m.serialize now budget).1.load = m'.load := by
    rw [hser]
    split <;> rfl
  have hout : pieces.reverse.flatten ≠ [] := by
    rw [hser] at h
    split at h <;> exact h
  rw [hload]
  rw [hfill] at hraw hcases
  have hdrop : m'.raw.length = m.raw.length - budget := by
    rw [hraw, List.length_drop]
  -- either raw bytes alone were taken, or the lanes have lost some of their load
  rcases hcases with he | hlt
  · obtain ⟨rfl, rfl⟩ := Prod.mk.inj he
    have htake : m.raw.take budget ≠ [] := by simpa using hout
    have hpos := List.length_pos_iff.2 htake
    simp only [List.length_take, load, backlog] at *
    omega
  · simp only [load, backlog] at *
    omega

end Mux

end LiveIngest.Chunk
