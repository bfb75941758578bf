import LiveIngest.Keyed
import LiveIngest.Service.Noted

/-!
# A service that keeps a journal

A service for rehearsals: it writes down every call of a hook, and can be told to misbehave. It may
reject the connection, refuse streams, close the link from within a hook, or fail a hook with a
fault of any layer. Its streams are of several kinds: plain ones, which can echo what they get, ones
that do nothing, and publishing streams, of which it writes down the deliveries.

A rehearsal shows what a connection does with a service. What holds of every service is not proved
of this one again: theorems speak of its lines only (`JournalLine`), in which `Service.noted` keeps
the calls of any service.
-/

namespace LiveIngest

/-- The hooks that can be told to misbehave. -/
inductive Callback
  | connect
  | createStream
  | play
  | publish
  | seek
  | pause
  | resume
  | close
  | command
  | media
  | metadata
  deriving DecidableEq, Repr

namespace Callback

/-- The name that a rehearsal knows a hook by. -/
def label : Callback → String
  | connect => "connect"
  | createStream => "create_stream"
  | play => "play"
  | publish => "publish"
  | seek => "seek"
  | pause => "pause"
  | resume => "resume"
  | close => "close"
  | command => "command"
  | media => "media"
  | metadata => "meta"

end Callback

/-- What the streams of a journal are. -/
inductive StreamKind
  /-- Streams that are written down. -/
  | plain
  /-- Streams that do nothing, of an application that does nothing. -/
  | silent
  /-- Publishing streams whose deliveries are written down. -/
  | publishing
  /-- Publishing streams of whose deliveries only the times of frames are written down. -/
  | timing
  /-- No stream is ever created. -/
  | refused
  deriving DecidableEq, Repr

/-- How a journal behaves. -/
structure Rehearsal where
  rejects : Bool
  kind : StreamKind
  limit : Nat
  /-- True for a hook that closes the link. -/
  closesOn : Callback → Bool
  /-- The layer of the fault that a hook fails with. -/
  failsWith : Callback → Option Layer
  echoes : Bool

/-- A journal and the publishing streams it knows. -/
structure Journal where
  /-- The lines, the last one first. -/
  lines : List JournalLine
  publishers : Keyed UInt32 Publisher

namespace Journal

def empty : Journal := ⟨[], []⟩

def write (line : JournalLine) : Hook Journal Unit :=
  Hook.modify fun j => { j with lines := line :: j.lines }

/-- Close the link, if this is the hook that does. -/
def mayClose (r : Rehearsal) (c : Callback) : Hook Journal Unit := do
  if r.closesOn c then Hook.perform .close

/-- A hook of a plain stream: write a line, close or fail if told to, and go on with `next`. -/
def plain (r : Rehearsal) (c : Callback) (line : JournalLine)
    (next : Hook Journal (Except Fault Unit)) : Hook Journal (Except Fault Unit) := do
  write line
  mayClose r c
  match r.failsWith c with
  | some layer => return .error (.reported layer "injected")
  | none => next

def deliver (r : Rehearsal) (stream : UInt32) : List Delivery → Hook Journal Unit
  | [] => pure ()
  | d :: rest => do
    match r.kind, d with
    -- Whoever takes times only is told neither of metadata nor of the end.
    | .timing, .frame frame => write (.frameTime stream frame.timestamp)
    | .timing, _ => pure ()
    | _, d => write (.delivery stream d)
    deliver r stream rest

def publishing (r : Rehearsal) (stream : UInt32) (hook : Hook Publisher Publisher.Handled) :
    Hook Journal (Except Fault Unit) := do
  let (deliveries, result) ← hook.on
    (fun j => (j.publishers.get? stream).getD (.initial stream r.limit))
    (fun p j => { j with publishers := j.publishers.put stream p })
  deliver r stream deliveries
  return result

/-- A hook of a stream of any kind: publishing streams answer with `hook` and plain streams as told,
going on with `next`. -/
def onStream (r : Rehearsal) (c : Callback) (stream : UInt32) (line : JournalLine)
    (hook : Hook Publisher Publisher.Handled) (next : Hook Journal (Except Fault Unit)) :
    Hook Journal (Except Fault Unit) :=
  match r.kind with
  | .plain => plain r c line next
  | .publishing | .timing => publishing r stream hook
  | .silent | .refused => pure (.ok ())

/-- Send back what came in, if told to. -/
def mayEcho (r : Rehearsal) (p : Except Fault Packet) : Hook Journal (Except Fault Unit) :=
  if r.echoes then Hook.send p else pure (.ok ())

/-- Write a line unless the application does nothing. -/
def note (r : Rehearsal) (line : JournalLine) : Hook Journal Unit :=
  if r.kind = .silent then pure () else write line

/-- The answer of a publishing stream to a hook it has no use for. -/
def ignored : Hook Publisher Publisher.Handled :=
  pure ([], .ok ())

def service (r : Rehearsal) : Service Journal where
  connect application := do
    write (.connect application (← Hook.view).connection)
    mayClose r .connect
    return !r.rejects
  disconnect connection j := { j with lines := .disconnect connection :: j.lines }
  createStream stream audioCodecs videoCodecs := do
    note r (.createStream stream audioCodecs videoCodecs)
    if r.kind ≠ .silent then mayClose r .createStream
    return r.kind ≠ .refused
  deleteStream stream := note r (.deleteStream stream)
  leave := do
    let v ← Hook.view
    note r (.leave v.connection v.isClosed)
  play stream url := onStream r .play stream (.play stream url) (Publisher.play url) (pure (.ok ()))
  publish stream name :=
    onStream r .publish stream (.publish stream name) (Publisher.publish name)
      (Hook.sendStatus stream "status" "NetStream.Publish.Start" "publishing")
  seek stream millis := onStream r .seek stream (.seek stream millis) ignored (pure (.ok ()))
  pause stream millis := onStream r .pause stream (.pause stream millis) ignored (pure (.ok ()))
  resume stream millis := onStream r .resume stream (.resume stream millis) ignored (pure (.ok ()))
  close stream := onStream r .close stream (.close stream) Publisher.close (pure (.ok ()))
  command stream c := onStream r .command stream (.command stream c) ignored (pure (.ok ()))
  media stream tag :=
    onStream r .media stream (.media stream tag) (Publisher.media tag)
      (mayEcho r (.ok (Packet.ofMedia stream tag)))
  metadata stream m :=
    onStream r .metadata stream (.metadata stream m) (Publisher.metadata m)
      (mayEcho r (Packet.ofMetadata 0 stream m))

end Journal

end LiveIngest
