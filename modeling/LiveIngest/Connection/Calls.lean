import LiveIngest.Connection.Basic

/-!
# Remote calls

Commands on message stream 0 are calls of the connection itself: the peer connects to an
application, and creates and deletes streams. Each of them but `deleteStream` is answered with one
reply under the transaction of the call. Commands on other streams go to the hooks of the service,
whose faults do not concern the connection.
-/

namespace LiveIngest

variable {σ : Type}

/-- The hook for a command on a stream. To publish without a name is to stop, and to pause with
`false` is to resume. -/
def Service.onCommand (s : Service σ) (stream : UInt32) (c : Command) :
    Hook σ (Except Fault Unit) :=
  match c.name with
  | "play" =>
    match (c.argument? 0).bind Amf.Value.text? with
    | some url => s.play stream url
    | none => pure (.error .playWithoutName)
  | "publish" =>
    match (c.argument? 0).bind Amf.Value.text? with
    | some name => s.publish stream name
    | none => s.close stream
  | "seek" => s.seek stream (c.unsignedArgument 0)
  | "pause" =>
    match (c.argument? 0).bind Amf.Value.boolean? with
    | some false => s.resume stream (c.unsignedArgument 1)
    | _ => s.pause stream (c.unsignedArgument 1)
  | "closeStream" => s.close stream
  | _ => s.command stream c

namespace Connection

/-- The object of the reply to a peer that was accepted: what the service is. -/
def serviceObject : Amf.Value :=
  .ofFields [("fmsVer", .string "FMS/3,5,1,525"), ("capabilities", .number (.ofUInt32 31)),
    ("mode", .number (.ofUInt32 1))]

/-- The status of a peer that was accepted. -/
def connectedObject (objectEncoding : Binary64) : Amf.Value :=
  .ofFields [("level", .string "status"), ("code", .string "NetConnection.Connect.Success"),
    ("description", .string "Connection succeeded."), ("objectEncoding", .number objectEncoding),
    ("data", .ecmaArray [("version", .string "3,5,1,525")])]

def refuse (env : Environment σ) (stream : UInt32) (call : Command) (code description : String) :
    Handling σ Unit :=
  sendCommand env stream
    (.error call.transaction .null (Command.statusObject "error" code description))

/-- A peer was accepted: announce the terms, answer the call and ask for the round trip time. -/
def welcome (env : Environment σ) (call : Command) (objectEncoding : Binary64) :
    Handling σ Unit := do
  let terms := (← get).terms
  send (.ofEvent (.streamBegin 0))
  send (.ofControl (.windowSize terms.windowSize))
  send (.ofControl (.peerBandwidth terms.bandwidth terms.limitType))
  -- Behind this message, on every lane, chunks have the announced size.
  send (.ofControl (.setChunkSize terms.chunkSize))
  sendCommand env 0 (.result call.transaction serviceObject (connectedObject objectEncoding))
  send (.ofEvent (.pingRequest env.now.stamp))
  modify (·.advance .appConnected)

/-- The peer asks for an application. The codecs it announces hold for the streams it will create. A
peer that is rejected hears of it before the link closes. -/
def onConnect (env : Environment σ) (call : Command) : Handling σ Unit := do
  if (← get).isBound then
    refuse env 0 call "NetConnection.Connect.Failed" "Already connected"
  else
    -- What the peer leaves out, or announces as another kind of value, counts as zero.
    let number (name : String) : Binary64 :=
      ((call.object.property? name).bind Amf.Value.number?).getD .zero
    let application := ((call.object.property? "app").bind Amf.Value.text?).getD ""
    modify fun c =>
      { c with audioCodecs := number "audioCodecs", videoCodecs := number "videoCodecs" }
    if ← calling env (env.service.connect application) then
      -- The application is bound before the answer is sent: where sending fails, it is released
      -- with the connection like any other.
      modify fun c => { c with isBound := true, application }
      welcome env call (number "objectEncoding")
    else
      refuse env 0 call "NetConnection.Connect.Rejected" "Connection rejected"
      modify fun c => { c with link := c.link.close }.advance .closing

/-- The peer asks for a stream. Ids are given out one after the other. They are 32 bits wide and
nothing looks whether there are any left: behind the last one they come round, and a stream then
takes the place of the one that lives under its id. -/
def onCreateStream (env : Environment σ) (call : Command) : Handling σ Unit := do
  let c ← get
  if c.isBound then
    -- The id is spent even if the service refuses the stream.
    let stream := c.lastStream + 1
    set { c with lastStream := stream }
    if ← calling env (env.service.createStream stream c.audioCodecs c.videoCodecs) then
      modify fun c => { c with streams := c.streams.erase stream ++ [stream] }
      sendCommand env 0 (.result call.transaction .null (.number (.ofUInt32 stream)))
    else
      refuse env 0 call "NetConnection.Call.Failed" "Stream creation refused"
  else
    refuse env 0 call "NetConnection.Call.Failed" "Not connected"

/-- The peer gives up a stream. What is queued for it is dropped, and the peer is told the end. -/
def onDeleteStream (env : Environment σ) (call : Command) : Handling σ Unit := do
  let stream := call.unsignedArgument 0
  if stream ∈ (← get).streams then
    modify (·.release env stream)
    -- What the service queued while it heard of the release is dropped as well.
    let c ← get
    match c.link.reset stream with
    | .ok (link, _) => set { c with link }
    | .error f => throw f
    send (.ofEvent (.streamEof stream))

def onCommand (env : Environment σ) (stream : UInt32) (c : Command) : Handling σ Unit := do
  if stream = 0 then
    match c.name with
    | "connect" => onConnect env c
    | "createStream" | "initStream" => onCreateStream env c
    | "deleteStream" => onDeleteStream env c
    -- These answer something, and an answer is not answered.
    | "_result" | "_error" | "onStatus" => return
    | _ => refuse env 0 c "NetConnection.Call.Failed" "Unsupported command"
  else if stream ∈ (← get).streams then
    -- A fault of the hook concerns the stream alone.
    let _ ← calling env (env.service.onCommand stream c)
  else
    refuse env stream c "NetStream.Failed" "Unknown stream"

end Connection

end LiveIngest
