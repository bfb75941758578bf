import LiveIngest.Chunk.Demux
import LiveIngest.Connection.Intake
import LiveIngest.Connection.Phase
import LiveIngest.Handshake.Machine
import LiveIngest.Service.Basic

/-!
# Connections

The receiving end of one peer, without a socket. What the peer sends is read by the handshake and
then by the demultiplexer; what the service answers is queued on the link. A connection keeps the
state of its service and the ids of the streams that the service created.

What a connection does is written in `Handling`: a part may fail, and what was done before the
failure stays done.

* `Connection.call` — call a hook of the service and do what it asks for;
* `Connection.send`, `Connection.sendCommand` — queue a message, or fail on a link that is not live;
* `Connection.finish` — release streams and application. It may be done again, with no effect.
-/

namespace LiveIngest

/-- What the service announces to a peer that connects. -/
structure Terms where
  chunkSize : UInt32
  windowSize : UInt32
  bandwidth : UInt32
  /-- How the peer is to take the bandwidth: 0 hard, 1 soft, 2 dynamic. -/
  limitType : UInt8
  deriving DecidableEq, Repr

namespace Terms

/-- The terms of a service that sets none. -/
def standard : Terms := ⟨4096, 2500000, 2500000, 2⟩

end Terms

/-- What surrounds a connection while it works. -/
structure Environment (σ : Type) where
  service : Service σ
  crypto : Handshake.Crypto
  now : Moment

/-- One connection of a service with states of type `σ`. -/
structure Connection (σ : Type) where
  terms : Terms
  phase : Phase
  handshake : Handshake.Machine
  demux : Chunk.Demux
  link : Link
  served : σ
  isBound : Bool
  /-- The name of the application that accepted the peer. -/
  application : String
  /-- The codecs that the peer announced when it connected. -/
  audioCodecs : Binary64
  videoCodecs : Binary64
  /-- The ids of the live streams, each once, in the order in which the streams were created. -/
  streams : List UInt32
  /-- The id that was given out last. -/
  lastStream : UInt32
  intake : Intake
  /-- The round trip time that the last answer to a ping showed, in milliseconds. -/
  roundTrip : Option UInt32

/-- What a connection does: it may fail, and keeps what was done before. -/
abbrev Handling (σ α : Type) : Type := ExceptT Fault (StateM (Connection σ)) α

namespace Connection

variable {σ α : Type}

def initial (id : Nat) (terms : Terms) (service : σ) : Connection σ where
  terms
  phase := .handshaking
  handshake := .initial
  demux := .initial
  link := .initial id
  served := service
  isBound := false
  application := ""
  audioCodecs := .zero
  videoCodecs := .zero
  streams := []
  lastStream := 0
  intake := .initial
  roundTrip := none

/-- Make a step of life, where the step may be made. -/
def advance (c : Connection σ) (next : Phase) : Connection σ :=
  { c with phase := c.phase.advance next }

/-- Call a hook, and do on the link what it asks for. -/
def call (env : Environment σ) (h : Hook σ α) (c : Connection σ) : α × Connection σ :=
  let answer := h (c.link.view env.now) c.served
  (answer.value,
    { c with served := answer.state, link := answer.acts.foldl Link.act c.link })

/-- Call a hook as a part of something larger. -/
def calling (env : Environment σ) (h : Hook σ α) : Handling σ α :=
  fun c => ((c.call env h).map .ok id)

def send (p : Packet) : Handling σ Unit := do
  let c ← get
  match c.link.send p with
  | .ok link => set { c with link }
  | .error f => throw f

def sendCommand (env : Environment σ) (stream : UInt32) (command : Command) : Handling σ Unit := do
  match Packet.ofCommand env.now.stamp stream command with
  | .ok p => send p
  | .error f => throw f

/-- Release a stream: the application hears of it before the stream is gone. -/
def release (env : Environment σ) (c : Connection σ) (stream : UInt32) : Connection σ :=
  -- A stream without an application cannot be: only an application's peer creates streams.
  let c := if c.isBound then (c.call env (env.service.deleteStream stream)).2 else c
  { c with streams := c.streams.erase stream }

def leave (env : Environment σ) (c : Connection σ) : Connection σ :=
  if c.isBound then { (c.call env env.service.leave).2 with isBound := false } else c

/-- End the connection: every stream is released, then the application, and what was received in
part is dropped. What is queued may still be sent.

Streams are released in the order of their creation. A service may not count on any order among
them: all that is promised is that they go before the application does. -/
def finish (env : Environment σ) (c : Connection σ) : Connection σ :=
  if c.phase = .closed then c
  else
    -- Streams go before their application, and the service hears of the end last.
    let c := (c.streams.foldl (release env) c).leave env
    { c with
      served := env.service.disconnect c.link.id c.served
      demux := .initial
      link := c.link.close }.advance .closed

end Connection

end LiveIngest
