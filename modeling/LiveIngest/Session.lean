import LiveIngest.Bytes.Slices
import LiveIngest.Connection.Input

/-!
# Sessions

A session drives a connection over a socket, until the peer goes away, the link is closed or a fault
ends the connection. It is a machine, and its steps are the actions that nothing else can come
between:

* `Session.arrive` — take what the socket has;
* `Session.pull` — take a piece of what is queued, to be written;
* `Session.write` — the socket took the piece, or failed;
* `Session.check` — end if the link was closed, or wait again;
* `Session.act` — anyone else sends on the link or closes it.

What was queued goes out after everything that arrives, and before the link is looked at. Whatever
ends a session, its connection is finished. `Session.run` makes the steps over a socket that is
known in advance.
-/

namespace LiveIngest

/-- The sizes of a session's buffers, in bytes. -/
structure BufferSizes where
  read : Nat
  write : Nat
  deriving DecidableEq, Repr

/-- What a waiting session gets. -/
inductive Arrival
  | bytes (slice : List UInt8)
  /-- The peer sends nothing more. -/
  | ended
  | failed (fault : Fault)
  /-- Nothing came, but something was queued or the link was closed. -/
  | nothing
  deriving DecidableEq, Repr

/-- What a session is about to do. -/
inductive Activity
  | waiting
  /-- Take pieces of what is queued until nothing is left. A fault that is given then ends the
  session. -/
  | flushing (cause : Option Fault)
  | writing (piece : List UInt8) (cause : Option Fault)
  | checking
  | over (outcome : Except Fault Unit)
  deriving DecidableEq

/-- A connection at work on a socket. -/
structure Session (σ : Type) where
  connection : Connection σ
  activity : Activity
  /-- The pieces that were written, the last one first. -/
  written : List (List UInt8)

namespace Session

variable {σ : Type}

def start (c : Connection σ) : Session σ := ⟨c, .waiting, []⟩

def output (s : Session σ) : List UInt8 :=
  s.written.reverse.flatten

def load (s : Session σ) : Nat :=
  s.connection.link.mux.load

def conclude (env : Environment σ) (s : Session σ) (outcome : Except Fault Unit) : Session σ :=
  { s with connection := s.connection.finish env, activity := .over outcome }

/-- Take what the socket has. A fault of the connection ends the session after what is queued went
out. -/
def arrive (env : Environment σ) (s : Session σ) (a : Arrival) : Session σ :=
  match s.activity, a with
  | .waiting, .bytes slice =>
    match s.connection.parse env slice with
    | (.ok _, connection) => { s with connection, activity := .flushing none }
    | (.error f, connection) => { s with connection, activity := .flushing (some f) }
  | .waiting, .ended => s.conclude env (.ok ())
  | .waiting, .failed f => s.conclude env (.error f)
  | .waiting, .nothing => { s with activity := .flushing none }
  | _, _ => s

/-- The size of the next piece: a chunk of full size always fits. -/
def budget (sizes : BufferSizes) (s : Session σ) : Nat :=
  max sizes.write (s.connection.link.mux.chunkSize + Chunk.maxHeaderSize)

def pull (env : Environment σ) (sizes : BufferSizes) (s : Session σ) : Session σ :=
  match s.activity with
  | .flushing cause =>
    let (link, piece) := s.connection.link.serialize env.now (s.budget sizes)
    let s := { s with connection := { s.connection with link } }
    -- An empty piece means that nothing is queued any more.
    match piece, cause with
    | [], none => { s with activity := .checking }
    | [], some f => s.conclude env (.error f)
    | piece, cause => { s with activity := .writing piece cause }
  | _ => s

/-- The socket took the piece, or failed with a fault. A fault that ends the session anyway stays
its outcome. -/
def write (env : Environment σ) (s : Session σ) (result : Except Fault Unit) : Session σ :=
  match s.activity, result with
  | .writing piece cause, .ok () =>
    { s with written := piece :: s.written, activity := .flushing cause }
  | .writing _ cause, .error f => s.conclude env (.error (cause.getD f))
  | _, _ => s

/-- End if the link was closed, or wait again. -/
def check (env : Environment σ) (s : Session σ) : Session σ :=
  match s.activity with
  | .checking =>
    if s.connection.link.isClosed then s.conclude env (.ok ()) else { s with activity := .waiting }
  | _ => s

def act (s : Session σ) (a : Act) : Session σ :=
  { s with connection := { s.connection with link := s.connection.link.act a } }

/-- A piece makes the load smaller. -/
theorem load_pull_lt {env : Environment σ} {sizes : BufferSizes} {s : Session σ}
    {cause cause' : Option Fault} {piece : List UInt8} (hs : s.activity = .flushing cause)
    (hp : (s.pull env sizes).activity = .writing piece cause') :
    (s.pull env sizes).load < s.load := by
  have hlt := @Chunk.Mux.load_serialize_lt s.connection.link.mux env.now.uptime (s.budget sizes)
  unfold pull Link.serialize at hp ⊢
  rw [hs] at hp ⊢
  revert hp hlt
  generalize s.connection.link.mux.serialize env.now.uptime (s.budget sizes) = taken
  obtain ⟨mux, out⟩ := taken
  intro hp hlt
  rcases out with _ | ⟨b, rest⟩
  · cases cause <;> simp [conclude] at hp
  · exact hlt (List.cons_ne_nil b rest)

/-- Write everything that is queued. `refusal` is the fault, if any, that a write meets after so
many bytes. -/
def flush (env : Environment σ) (sizes : BufferSizes) (refusal : Nat → Option Fault)
    (s : Session σ) : Session σ :=
  match _hs : s.activity, _hp : (s.pull env sizes).activity with
  | .flushing _, .writing _ _ =>
    match refusal s.output.length with
    | some f => (s.pull env sizes).write env (.error f)
    | none => flush env sizes refusal ((s.pull env sizes).write env (.ok ()))
  | _, _ => s.pull env sizes
termination_by s.load
decreasing_by
  have hlt := load_pull_lt _hs _hp
  simpa [write, _hp, load] using hlt

/-- Serve arrivals until the session is over. A closed link is noticed before anything is read. -/
def serve (env : Environment σ) (sizes : BufferSizes) (refusal : Nat → Option Fault)
    (s : Session σ) : List Arrival → Session σ
  | [] => s
  | a :: rest =>
    let a := if s.connection.link.isClosed then .nothing else a
    (((s.arrive env a).flush env sizes refusal).check env).serve env sizes refusal rest

end Session

namespace Arrival

/-- What arrives through a buffer, which holds at least one byte. -/
def through (size : Nat) : Arrival → List Arrival
  | .bytes l => (Bytes.slices size l).map .bytes
  | a => [a]

end Arrival

namespace Session

variable {σ : Type}

/-- Run a session over a socket that has `arrivals` and refuses writes as told. -/
def run (env : Environment σ) (sizes : BufferSizes) (arrivals : List Arrival)
    (refusal : Nat → Option Fault) (c : Connection σ) : Session σ :=
  (start c).serve env sizes refusal (arrivals.flatMap (Arrival.through sizes.read))

end Session

end LiveIngest
