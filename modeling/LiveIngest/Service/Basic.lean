import LiveIngest.Message.Outgoing
import LiveIngest.Connection.Link

/-!
# Services

What a server does with its connections is up to a **service**: it decides which applications a peer
may connect to and which streams it may create, and it gets everything that the peer does on a
stream. A connection calls the hooks of its service one at a time.

A hook is a function of the service's own state and of a view of the link. It answers with a value,
a new state and a list of **acts** on the link: messages to send, streams to reset, closing. Nothing
else can be done to a connection from within a hook, and two calls of a hook with equal arguments
answer equally.

Hooks compose as a monad, in which a later part sees the link as the acts before it leave it.
-/

namespace LiveIngest

/-- What a hook sees of the connection that calls it. -/
structure View where
  connection : Nat
  status : LinkStatus
  now : Moment
  deriving DecidableEq, Repr

/-- What a hook does to the link. -/
inductive Act
  | send (p : Packet)
  | reset (streamId : UInt32)
  | close
  deriving DecidableEq, Repr

namespace View

def after (v : View) : Act → View
  | .close => { v with status := v.status.close }
  | _ => v

def fault? (v : View) : Option Fault :=
  v.status.fault? v.connection

/-- True once the link was closed or its connection is gone. -/
def isClosed (v : View) : Bool :=
  v.status ≠ .live

end View

namespace Link

def view (l : Link) (now : Moment) : View :=
  ⟨l.id, l.status, now⟩

/-- Do one act. What a closed link refuses is left undone. -/
def act (l : Link) : Act → Link
  | .send p => (l.send p).toOption.getD l
  | .reset streamId => ((l.reset streamId).toOption.map (·.1)).getD l
  | .close => l.close

end Link

/-- The answer of a hook. -/
structure Answer (σ α : Type) where
  value : α
  state : σ
  acts : List Act

/-- A hook over service states of type `σ`. -/
def Hook (σ α : Type) : Type := View → σ → Answer σ α

namespace Hook

variable {σ α β : Type}

protected def pure (a : α) : Hook σ α := fun _ s => ⟨a, s, []⟩

protected def bind (h : Hook σ α) (f : α → Hook σ β) : Hook σ β := fun v s =>
  let first := h v s
  let second := f first.value (first.acts.foldl View.after v) first.state
  ⟨second.value, second.state, first.acts ++ second.acts⟩

instance : Monad (Hook σ) where
  pure := Hook.pure
  bind := Hook.bind

def view : Hook σ View := fun v s => ⟨v, s, []⟩

def get : Hook σ σ := fun _ s => ⟨s, s, []⟩

def modify (f : σ → σ) : Hook σ Unit := fun _ s => ⟨(), f s, []⟩

def perform (a : Act) : Hook σ Unit := fun _ s => ⟨(), s, [a]⟩

/-- Run a hook on a part of the state. -/
def on {τ : Type} (part : σ → τ) (put : τ → σ → σ) (h : Hook τ α) : Hook σ α := fun v s =>
  let answer := h v (part s)
  ⟨answer.value, put answer.state s, answer.acts⟩

/-- Send a packet, if it could be made and the link takes it. -/
def send (p : Except Fault Packet) : Hook σ (Except Fault Unit) := do
  match p with
  | .error f => return .error f
  | .ok p =>
    match (← view).fault? with
    | some f => return .error f
    | none =>
      perform (.send p)
      return .ok ()

/-- Notify the peer of the status of a stream. -/
def sendStatus (stream : UInt32) (level code description : String) :
    Hook σ (Except Fault Unit) := do
  let v ← view
  send (Packet.ofCommand v.now.stamp stream (.onStatus level code description))

end Hook

/-- The hooks of a service with states of type `σ`. Hooks on a stream get its id. -/
structure Service (σ : Type) where
  /-- A peer asks for an application. The answer says whether it is accepted. -/
  connect : (application : String) → Hook σ Bool
  disconnect : (connection : Nat) → σ → σ
  /-- A peer asks for a stream. The answer says whether it is created. -/
  createStream : (stream : UInt32) → (audioCodecs videoCodecs : Binary64) → Hook σ Bool
  deleteStream : (stream : UInt32) → Hook σ Unit
  /-- The peer leaves its application; its streams were deleted before. -/
  leave : Hook σ Unit
  play : (stream : UInt32) → (url : String) → Hook σ (Except Fault Unit)
  publish : (stream : UInt32) → (name : String) → Hook σ (Except Fault Unit)
  seek : (stream millis : UInt32) → Hook σ (Except Fault Unit)
  pause : (stream millis : UInt32) → Hook σ (Except Fault Unit)
  resume : (stream millis : UInt32) → Hook σ (Except Fault Unit)
  close : (stream : UInt32) → Hook σ (Except Fault Unit)
  /-- A command on a stream that has no hook of its own. -/
  command : (stream : UInt32) → Command → Hook σ (Except Fault Unit)
  media : (stream : UInt32) → MediaTag → Hook σ (Except Fault Unit)
  metadata : (stream : UInt32) → Metadata → Hook σ (Except Fault Unit)

namespace Service

/-- The service that accepts everything and does nothing. -/
def silent (σ : Type) : Service σ where
  connect _ := pure true
  disconnect _ s := s
  createStream _ _ _ := pure true
  deleteStream _ := pure ()
  leave := pure ()
  play _ _ := pure (.ok ())
  publish _ _ := pure (.ok ())
  seek _ _ := pure (.ok ())
  pause _ _ := pure (.ok ())
  resume _ _ := pure (.ok ())
  close _ := pure (.ok ())
  command _ _ := pure (.ok ())
  media _ _ := pure (.ok ())
  metadata _ _ := pure (.ok ())

end Service

end LiveIngest
