import LiveIngest.Rtp.Router
import LiveIngest.Service.Basic

/-!
# Publishing streams

A stream that takes what a peer publishes and packetizes it. Between `publish` and `close` the
stream has a name, and only then it takes media; metadata is passed on at any time. Playing is
refused.

What comes out is a list of **deliveries** to whoever sends the stream on.
-/

namespace LiveIngest

/-- What a publishing stream passes on. -/
inductive Delivery
  | frame (frame : Rtp.Output)
  | metadata (values : Metadata)
  /-- The peer stopped publishing. -/
  | closed

/-- A publishing stream. -/
structure Publisher where
  stream : UInt32
  name : Option String
  router : Rtp.Router

namespace Publisher

/-- A stream that nothing was published on, with RTP payloads of at most `limit` bytes. -/
def initial (stream : UInt32) (limit : Nat) : Publisher :=
  ⟨stream, none, .initial limit⟩

/-- What a hook of a publishing stream answers. -/
abbrev Handled := List Delivery × Except Fault Unit

def play (url : String) : Hook Publisher Handled := do
  let p ← Hook.get
  let sent ← Hook.sendStatus p.stream "error" "NetStream.Play.StreamNotFound"
    (url ++ " is not available")
  return ([], sent)

/-- Begin to publish under a name. The name stands even where the peer cannot be told. -/
def publish (name : String) : Hook Publisher Handled := do
  Hook.modify fun p => { p with name := some name }
  let p ← Hook.get
  let sent ← Hook.sendStatus p.stream "status" "NetStream.Publish.Start"
    (name ++ " is now published")
  return ([], sent)

def close : Hook Publisher Handled := do
  let p ← Hook.get
  match p.name with
  | none => return ([], .ok ())
  | some name =>
    Hook.modify fun p => { p with name := none }
    -- There is nobody to tell on a closed link, which is no fault.
    if (← Hook.view).isClosed then
      return ([.closed], .ok ())
    else
      let sent ← Hook.sendStatus p.stream "status" "NetStream.Unpublish.Success"
        (name ++ " is now unpublished")
      return ([.closed], sent)

def media (tag : MediaTag) : Hook Publisher Handled := do
  let p ← Hook.get
  match p.name with
  | none => return ([], .ok ())
  | some _ =>
    let (router, out) := p.router.add tag
    Hook.modify fun p => { p with router }
    return (out.toList.map .frame, .ok ())

def metadata (m : Metadata) : Hook Publisher Handled :=
  pure ([.metadata m.unwrapped], .ok ())

end Publisher

end LiveIngest
