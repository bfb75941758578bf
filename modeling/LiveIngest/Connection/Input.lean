import LiveIngest.Connection.Calls
import LiveIngest.Message.Aggregate
import LiveIngest.Message.Basic

/-!
# What a peer sends

A connection takes its input in slices, `Connection.parse`. A slice is counted first, which may call
for an acknowledgement, and then taken in parts: what the handshake misses, and after it chunks up
to the end of a message each.

Each packet is taken apart into its leaves, and each leaf that can be interpreted is acted upon.
What cannot be interpreted is dropped, and so is every fault of acting on a message that is not
fatal. A fatal fault, or lost framing, is the outcome of the call; the connection is then to be
finished.
-/

namespace LiveIngest

variable {σ : Type}

/-- The hook for media or metadata on a stream. -/
def Service.onContent (s : Service σ) (stream : UInt32) : MediaTag ⊕ Metadata →
    Hook σ (Except Fault Unit)
  | .inl tag => s.media stream tag
  | .inr values => s.metadata stream values

namespace Connection

def onControl (env : Environment σ) : Control → Handling σ Unit
  | .setChunkSize size => modify fun c => { c with demux := c.demux.setChunkSize size.toNat }
  | .abort chunkStream => modify fun c => { c with demux := c.demux.abort chunkStream }
  | .windowSize size => modify fun c => { c with intake := { c.intake with window := size } }
  | .user (.pingRequest timestamp) => send (.ofEvent (.pingResponse timestamp))
  | .user (.pingResponse timestamp) =>
    -- The peer sends back the time that it was asked at.
    modify fun c => { c with roundTrip := some (env.now.stamp - timestamp) }
  | _ => pure ()

/-- Media or metadata on a message stream; what comes on an unknown stream is dropped. -/
def onContent (env : Environment σ) (stream : UInt32) (content : MediaTag ⊕ Metadata) :
    Handling σ Unit := do
  if stream ∈ (← get).streams then
    match ← calling env (env.service.onContent stream content) with
    | .ok () => return
    | .error f => throw f

def dispatch (env : Environment σ) (m : Message) : Handling σ Unit :=
  match m.body with
  | .control control => onControl env control
  | .command command => onCommand env m.streamId command
  | .metadata values => onContent env m.streamId (.inr values)
  | .media tag => onContent env m.streamId (.inl tag)

/-- Act on a packet that holds one message. -/
def onLeaf (env : Environment σ) (p : Packet) : Handling σ Unit :=
  match Message.ofPacket p with
  | .ok m => tryCatch (dispatch env m) fun f => if f.isFatal then throw f else pure ()
  | .error _ => pure ()

/-- Act on what a packet holds: on its leaves, one after the other, up to a fault that ends the
connection. This is not written as the recursion over aggregates that it amounts to, in which the
parts of an aggregate are acted upon in turn and each of them may be one again; `acts_onPacket`
shows that it is that recursion. -/
def onPacket (env : Environment σ) (p : Packet) : Handling σ Unit :=
  p.leaves.forM (onLeaf env)

/-- Take what the handshake misses. What it answers goes out even on a closed link. -/
def takeHandshake (env : Environment σ) (slice : List UInt8) : Handling σ Nat := do
  let c ← get
  let r := c.handshake.parse env.crypto env.now.wall slice
  match r.fault with
  | none =>
    let c := { c with handshake := r.machine, link := c.link.pushRaw r.reply }
    set (if r.machine.isDone then c.advance .connected else c)
    return r.consumed
  | some f => throw f

/-- Take chunks up to the end of a message, and act on it. -/
def takeChunks (env : Environment σ) (slice : List UInt8) : Handling σ Nat := do
  let c ← get
  let r := c.demux.parse slice
  set { c with demux := r.demux }
  match r.event with
  | .packet p =>
    onPacket env p
    return r.consumed
  | .fault f => throw f
  | .quiet | .stalled => return r.consumed

/-- Take a part of a slice. Answers how many bytes were taken. -/
def take (env : Environment σ) (slice : List UInt8) : Handling σ Nat := do
  if (← get).handshake.isDone then takeChunks env slice else takeHandshake env slice

/-- The outcome of a call, and the connection after it. -/
abbrev Outcome (σ α : Type) := Except Fault α × Connection σ

/-- Take a slice part by part until the connection is closing, after `taken` bytes. -/
def takeAll (env : Environment σ) (c : Connection σ) (taken : Nat) (slice : List UInt8) :
    Outcome σ Nat :=
  if _hs : slice = [] then (.ok taken, c)
  else
    match take env slice c with
    | (.ok n, c) =>
      -- A message in the middle of a slice may have rejected the peer. Where nothing was taken, the
      -- demultiplexer stalls, and nothing more can be taken.
      if _hn : c.phase = .closing ∨ n = 0 then (.ok (taken + n), c)
      else c.takeAll env (taken + n) (slice.drop n)
    | (.error f, c) => (.error f, c)
termination_by slice.length
decreasing_by
  have hpos := List.length_pos_iff.2 _hs
  rw [List.length_drop]
  omega

/-- Count a slice, and acknowledge if it is time. -/
def acknowledge (n : Nat) : Handling σ Unit := do
  let c ← get
  let (intake, due) := c.intake.count n
  set { c with intake }
  match due with
  | some total => send (.ofControl (.acknowledgement total))
  | none => return

/-- Take a slice of input. Answers how many bytes were taken: all of them, unless the connection is
closing or closed. -/
def parse (env : Environment σ) (slice : List UInt8) (c : Connection σ) : Outcome σ Nat :=
  if c.phase.isEnding then (.ok 0, c)
  else
    -- The slice counts as received before any byte of it is looked at.
    match acknowledge slice.length c with
    | (.ok (), c) => takeAll env c 0 slice
    | (.error f, c) => (.error f, c)

/-- Take slices up to the first fault, after `taken` bytes. Answers how many bytes were taken in the
slices before it. -/
def parseAll (env : Environment σ) (c : Connection σ) (taken : Nat) :
    List (List UInt8) → Connection σ × Nat × Option Fault
  | [] => (c, taken, none)
  | slice :: rest =>
    match c.parse env slice with
    | (.ok n, c) => parseAll env c (taken + n) rest
    | (.error f, c) => (c, taken, some f)

end Connection

end LiveIngest
