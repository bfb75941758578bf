import LiveIngest.Connection.Input
import LiveIngest.Proofs.Amf.Encode
import LiveIngest.Proofs.Connection.Handling

/-!
# The moves of a connection

Acting on a message is a chain of **moves**. `Move` lists all of them, each with what has to hold of
the connection for the move to be made: an application is asked for only while none is bound, a
stream is created only while one is, a hook of a stream is called only while the stream is live, and
so on. What holds of every move holds of everything that a peer can do with a message.

The moves that have to do with streams are also told apart by themselves, as `StreamMove`: apart
from a call for an application, no message makes any others.

What acting on a message fails with is **blamed** on someone (`Blamed`): a fault that ends the
connection comes from a link that is not live, or from the hook that takes media and metadata.

Main statements: `leads_dispatch` — a message is acted upon in moves; `leads_onPacket` — and so is a
packet, in which faults that do not end the connection are dropped.
-/

namespace LiveIngest

open Handling

variable {σ α : Type}

/-- A hook for media or metadata may fail with the fault. -/
def Service.Raises (s : Service σ) (f : Fault) : Prop :=
  ∃ stream content v t, (s.onContent stream content v t).value = .error f

namespace Connection

/-- The connection that is about to give out the next stream id. -/
def spend (c : Connection σ) : Connection σ :=
  { c with lastStream := c.lastStream + 1 }

/-- The answer of the service to a peer that asks for an application. -/
def askApplication (env : Environment σ) (application : String) (c : Connection σ) :
    Bool × Connection σ :=
  c.call env (env.service.connect application)

/-- The answer of the service to a peer that asks for a stream. -/
def askStream (env : Environment σ) (c : Connection σ) : Bool × Connection σ :=
  c.spend.call env (env.service.createStream c.spend.lastStream c.audioCodecs c.videoCodecs)

/-- A move that has to do with streams, or that queues something. -/
inductive StreamMove (env : Environment σ) (c : Connection σ) : Connection σ → Prop
  /-- A message is queued, but never an acknowledgement, which would be of type 3. -/
  | send (hlive : c.link.status = .live) (p : Packet) (htype : p.type ≠ 3) :
      StreamMove env c { c with link := { c.link with mux := c.link.mux.enqueue p } }
  /-- What is queued for a stream is dropped. -/
  | reset (hlive : c.link.status = .live) (stream : UInt32) :
      StreamMove env c { c with link := { c.link with mux := (c.link.mux.reset stream).1 } }
  | create (hbound : c.isBound = true) (hcreated : (c.askStream env).1 = true) :
      StreamMove env c { (c.askStream env).2 with
        streams := (c.askStream env).2.streams.erase c.spend.lastStream ++ [c.spend.lastStream] }
  | refuse (hbound : c.isBound = true) (hrefused : (c.askStream env).1 = false) :
      StreamMove env c (c.askStream env).2
  | release {stream : UInt32} (hlive : stream ∈ c.streams) :
      StreamMove env c (c.release env stream)
  | command {stream : UInt32} (hlive : stream ∈ c.streams) (command : Command) :
      StreamMove env c (c.call env (env.service.onCommand stream command)).2
  | content {stream : UInt32} (hlive : stream ∈ c.streams) (content : MediaTag ⊕ Metadata) :
      StreamMove env c (c.call env (env.service.onContent stream content)).2

/-- A move that a connection makes while it acts on a message. -/
inductive Move (env : Environment σ) (c : Connection σ) : Connection σ → Prop
  | stream {d : Connection σ} (h : StreamMove env c d) : Move env c d
  /-- A control message is obeyed. -/
  | obey (demux : Chunk.Demux) (window : UInt32) (roundTrip : Option UInt32) :
      Move env c { c with demux, intake := { c.intake with window }, roundTrip }
  /-- A peer announces its codecs. -/
  | announce (hfree : c.isBound = false) (audioCodecs videoCodecs : Binary64) :
      Move env c { c with audioCodecs, videoCodecs }
  | accept (hfree : c.isBound = false) {application : String}
      (haccepted : (c.askApplication env application).1 = true) :
      Move env c { (c.askApplication env application).2 with isBound := true, application }
  | reject (hfree : c.isBound = false) {application : String}
      (hrejected : (c.askApplication env application).1 = false) :
      Move env c (c.askApplication env application).2
  /-- A peer that was accepted has been told so. -/
  | welcome (hbound : c.isBound = true) : Move env c (c.advance .appConnected)
  /-- A peer that was rejected has been told so. -/
  | close (hfree : c.isBound = false) :
      Move env c ({ c with link := c.link.close }.advance .closing)

/-- A move that leaves the receiving side alone. No other moves are made for commands. -/
def Detached (env : Environment σ) (c d : Connection σ) : Prop :=
  Move env c d ∧ d.demux = c.demux

/-- A fault that ends the connection comes from a link that is not live, or from the service. -/
def Blamed (env : Environment σ) (f : Fault) (c : Connection σ) : Prop :=
  f.isFatal = true → c.link.status ≠ .live ∨ env.service.Raises f

variable {env : Environment σ} {c d : Connection σ}

/-! ### What moves leave alone -/

section Release

variable (env : Environment σ) (c : Connection σ) (stream : UInt32)

/-- A stream is released with the link and the service, and nothing else is concerned. -/
theorem exists_release : ∃ link served,
    c.release env stream = { c with link, served, streams := c.streams.erase stream } := by
  unfold release
  dsimp only
  split
  · exact ⟨_, _, rfl⟩
  · exact ⟨c.link, c.served, rfl⟩

/-- Releasing a stream changes the link, the service and the streams, and nothing else. -/
theorem phase_release : (c.release env stream).phase = c.phase := by
  obtain ⟨link, served, h⟩ := exists_release env c stream
  rw [h]

theorem isBound_release : (c.release env stream).isBound = c.isBound := by
  obtain ⟨link, served, h⟩ := exists_release env c stream
  rw [h]

theorem streams_release : (c.release env stream).streams = c.streams.erase stream := by
  obtain ⟨link, served, h⟩ := exists_release env c stream
  rw [h]

theorem lastStream_release : (c.release env stream).lastStream = c.lastStream := by
  obtain ⟨link, served, h⟩ := exists_release env c stream
  rw [h]

theorem demux_release : (c.release env stream).demux = c.demux := by
  obtain ⟨link, served, h⟩ := exists_release env c stream
  rw [h]

theorem handshake_release : (c.release env stream).handshake = c.handshake := by
  obtain ⟨link, served, h⟩ := exists_release env c stream
  rw [h]

theorem intake_release : (c.release env stream).intake = c.intake := by
  obtain ⟨link, served, h⟩ := exists_release env c stream
  rw [h]

end Release

theorem StreamMove.phase (h : StreamMove env c d) : d.phase = c.phase := by
  cases h with
  | release => exact phase_release env c _
  | _ => rfl

theorem StreamMove.isBound (h : StreamMove env c d) : d.isBound = c.isBound := by
  cases h with
  | release => exact isBound_release env c _
  | _ => rfl

/-- What has to do with streams says nothing about the application. -/
theorem StreamMove.detached (h : StreamMove env c d) : Detached env c d := by
  refine ⟨.stream h, ?_⟩
  cases h with
  | release => exact demux_release env c _
  | _ => rfl

/-- No move is a part of the handshake. -/
theorem Move.handshake (h : Move env c d) : d.handshake = c.handshake := by
  cases h with
  | stream h =>
    cases h with
    | release => exact handshake_release env c _
    | _ => rfl
  | _ => rfl

theorem isBound_of_streamMoves (h : Relation.ReflTransGen (StreamMove env) c d) :
    d.isBound = c.isBound :=
  chain_induction (I := fun e => e.isBound = c.isBound) (fun _ _ ih hmove => hmove.isBound.trans ih)
    rfl h

/-! ### Sending and asking -/

/-- A fault that does not end the connection is nobody's. -/
theorem blamed_of_not_isFatal {f : Fault} (h : f.isFatal = false) : Blamed env f c :=
  fun hfatal => absurd (h.symm.trans hfatal) Bool.false_ne_true

/-- A message is queued, or a link that is not live refuses it. -/
theorem leads_send {p : Packet} (htype : p.type ≠ 3) :
    Leads (StreamMove env) (Blamed env) c (send p) := by
  cases hstatus : c.link.status with
  | live =>
    have hfault : c.link.status.fault? c.link.id = none := by
      rw [hstatus]
      rfl
    unfold Leads
    rw [send_of_none hfault]
    exact ⟨.single (.send hstatus p htype), fun _ he => by cases he⟩
  | closed | gone =>
    -- nothing is queued, and the link is to blame
    obtain ⟨f, hfault⟩ : ∃ f, c.link.status.fault? c.link.id = some f := by
      rw [hstatus]
      exact ⟨_, rfl⟩
    unfold Leads
    rw [send_of_some hfault]
    refine ⟨.refl, fun _ _ _ => Or.inl ?_⟩
    rw [hstatus]
    exact LinkStatus.noConfusion

/-- Any control message but an acknowledgement may be sent: those belong to the count of what was
received. -/
theorem leads_sendControl {control : Control} (h : ∀ total, control ≠ .acknowledgement total) :
    Leads (StreamMove env) (Blamed env) c (send (.ofControl control)) := by
  have htype : (Packet.ofControl control).type = control.type := rfl
  refine leads_send ?_
  rw [htype]
  cases control with
  | acknowledgement total => exact absurd rfl (h total)
  | _ => simp [Control.type]

/-- A command that cannot be written is not sent. -/
theorem leads_sendCommand (stream : UInt32) (command : Command) :
    Leads (StreamMove env) (Blamed env) c (sendCommand env stream command) := by
  unfold sendCommand
  cases hmade : Packet.ofCommand env.now.stamp stream command with
  | ok p =>
    have hcommand : p.type = 20 := Packet.type_of_ofCommand hmade
    exact leads_send (by simp [hcommand])
  | error f => exact .throw (blamed_of_not_isFatal (Packet.isFatal_of_ofCommand hmade))

theorem leads_refuse (stream : UInt32) (call : Command) (code description : String) :
    Leads (StreamMove env) (Blamed env) c (refuse env stream call code description) :=
  leads_sendCommand stream _

theorem leads_detached {x : Handling σ α}
    (h : Leads (StreamMove env) (Blamed env) c x) : Leads (Detached env) (Blamed env) c x :=
  h.imp (fun _ _ h => h.detached) fun _ _ => id

theorem leads_moves {x : Handling σ α}
    (h : Leads (Detached env) (Blamed env) c x) : Leads (Move env) (Blamed env) c x :=
  h.imp (fun _ _ h => h.1) fun _ _ => id

/-- A hook leads where its call does, since it does not fail. -/
theorem leads_calling {G : Connection σ → Connection σ → Prop} {F : Fault → Connection σ → Prop}
    {h : Hook σ α} (hcall : G c (c.call env h).2) : Leads G F c (calling env h) :=
  ⟨.single hcall, fun _ he => by cases he⟩

/-- The service is asked something, and its answer says what is done next. -/
theorem asking_apply (env : Environment σ) (h : Hook σ Bool) (x y : Handling σ α)
    (c : Connection σ) :
    (calling env h >>= fun ok => if ok = true then x else y) c =
      if (c.call env h).1 = true then x (c.call env h).2 else y (c.call env h).2 := by
  rw [bind_apply]
  show (if (c.call env h).1 = true then x else y) (c.call env h).2 = _
  split <;> rfl

/-- A change of the connection comes before what is done then. -/
theorem modify_bind_apply (f : Connection σ → Connection σ) (x : Handling σ α)
    (c : Connection σ) : (modify f >>= fun _ => x) c = x (f c) := by
  rw [bind_apply]
  rfl

/-! ### Commands -/

/-- The messages of a welcome leave the application bound, so that it is when the last one is
queued. -/
theorem leads_welcome (hbound : c.isBound = true) (call : Command) (objectEncoding : Binary64) :
    Leads (Detached env) (Blamed env) c (welcome env call objectEncoding) := by
  have hthen : ∀ {x y : Handling σ Unit} {d : Connection σ}, d.isBound = true →
      Leads (StreamMove env) (Blamed env) d x →
      (∀ e : Connection σ, e.isBound = true → Leads (Detached env) (Blamed env) e y) →
      Leads (Detached env) (Blamed env) d (x >>= fun _ => y) :=
    fun hd hx hy => (leads_detached hx).bind fun _ e hout =>
      hy e ((isBound_of_streamMoves (hx.steps hout)).trans hd)
  unfold welcome
  refine .get_bind ?_
  -- four control messages, and none of them is an acknowledgement
  refine hthen hbound (leads_sendControl (by exact nofun)) fun _ h => ?_
  refine hthen h (leads_sendControl (by exact nofun)) fun _ h => ?_
  refine hthen h (leads_sendControl (by exact nofun)) fun _ h => ?_
  refine hthen h (leads_sendControl (by exact nofun)) fun _ h => ?_
  refine hthen h (leads_sendCommand _ _) fun _ h => ?_
  refine hthen h (leads_sendControl (by exact nofun)) fun _ h => ?_
  exact .modify ⟨.welcome h, rfl⟩

/-- What is done with a peer that asks for an application, where none is bound: its codecs are kept,
the service is asked, and the peer is told. -/
theorem onConnect_of_free (env : Environment σ) (hfree : c.isBound = false) (call : Command) :
    ∃ d objectEncoding application,
      (∃ audioCodecs videoCodecs, d = { c with audioCodecs, videoCodecs }) ∧
      onConnect env call c =
        if (askApplication env application d).1 = true then
          welcome env call objectEncoding
            { (askApplication env application d).2 with isBound := true, application }
        else
          (refuse env 0 call "NetConnection.Connect.Rejected" "Connection rejected" >>= fun _ =>
            modify fun c => { c with link := c.link.close }.advance .closing)
            (askApplication env application d).2 := by
  let number (name : String) : Binary64 :=
    ((call.object.property? name).bind Amf.Value.number?).getD .zero
  refine ⟨_, number "objectEncoding", ((call.object.property? "app").bind Amf.Value.text?).getD "",
    ⟨number "audioCodecs", number "videoCodecs", rfl⟩, ?_⟩
  unfold onConnect askApplication
  rw [bind_apply, get_apply]
  dsimp only
  rw [if_neg (Bool.eq_false_iff.1 hfree), modify_bind_apply, asking_apply, modify_bind_apply]

/-- A call for an application asks the service, and welcomes the peer or refuses and closes. -/
theorem leads_onConnect (call : Command) :
    Leads (Detached env) (Blamed env) c (onConnect env call) := by
  cases hbound : c.isBound with
  | true =>
    unfold onConnect
    refine .get_bind ?_
    rw [hbound, if_pos rfl]
    exact leads_detached (leads_refuse _ _ _ _)
  | false =>
    obtain ⟨d, objectEncoding, application, ⟨audioCodecs, videoCodecs, hd⟩, happly⟩ :=
      onConnect_of_free env hbound call
    have hannounce : Detached env c d := by
      rw [hd]
      exact ⟨.announce hbound audioCodecs videoCodecs, rfl⟩
    have hfree : d.isBound = false := by
      rw [hd]
      exact hbound
    cases hanswer : (askApplication env application d).1 with
    | true =>
      rw [hanswer, if_pos rfl] at happly
      exact .behind happly (.tail (.single hannounce) ⟨.accept hfree hanswer, rfl⟩)
        (leads_welcome rfl call objectEncoding)
    | false =>
      rw [hanswer, if_neg Bool.false_ne_true] at happly
      refine .behind happly (.tail (.single hannounce) ⟨.reject hfree hanswer, rfl⟩) ?_
      have hrefuse := @leads_refuse σ env (askApplication env application d).2 0 call
        "NetConnection.Connect.Rejected" "Connection rejected"
      -- the reply binds no application, so none is bound when the link is closed
      refine (leads_detached hrefuse).bind fun _ _ hout => .modify ⟨.close ?_, rfl⟩
      exact (isBound_of_streamMoves (hrefuse.steps hout)).trans hfree

/-- A stream that is created is there before the peer is told. -/
theorem leads_create (hbound : c.isBound = true) {created refused : Handling σ Unit}
    (hcreated : ∀ d, Leads (StreamMove env) (Blamed env) d created)
    (hrefused : ∀ d, Leads (StreamMove env) (Blamed env) d refused) :
    Leads (StreamMove env) (Blamed env) c
      (set c.spend >>= fun _ =>
        calling env (env.service.createStream (c.lastStream + 1) c.audioCodecs c.videoCodecs) >>=
          fun ok => if ok = true then
            modify (fun d => { d with
              streams := d.streams.erase (c.lastStream + 1) ++ [c.lastStream + 1] }) >>= fun _ => created
          else refused) := by
  have happly := asking_apply env
    (env.service.createStream (c.lastStream + 1) c.audioCodecs c.videoCodecs)
    (modify (fun d => { d with
      streams := d.streams.erase (c.lastStream + 1) ++ [c.lastStream + 1] }) >>= fun _ => created)
    refused c.spend
  -- the id is spent before the application answers, whatever it answers
  cases hanswer : (c.askStream env).1 with
  | true =>
    exact .behind ((happly.trans (if_pos hanswer)).trans (modify_bind_apply _ _ _))
      (.single (.create hbound hanswer)) (hcreated _)
  | false =>
    exact .behind (happly.trans (if_neg (Bool.eq_false_iff.1 hanswer)))
      (.single (.refuse hbound hanswer)) (hrefused _)

/-- A call for a stream asks the service, and replies. -/
theorem leads_onCreateStream (call : Command) :
    Leads (StreamMove env) (Blamed env) c (onCreateStream env call) := by
  unfold onCreateStream
  refine .get_bind ?_
  by_cases hbound : c.isBound = true
  · rw [if_pos hbound]
    exact leads_create hbound (fun _ => leads_sendCommand _ _) fun _ => leads_refuse _ _ _ _
  · rw [if_neg hbound]
    exact leads_refuse _ _ _ _

/-- What is queued for a stream is dropped when the stream is gone, unless the link is not live. -/
theorem leads_onDeleteStream (call : Command) :
    Leads (StreamMove env) (Blamed env) c (onDeleteStream env call) := by
  unfold onDeleteStream
  refine .get_bind ?_
  dsimp only
  split
  · rename_i hlive
    refine Leads.bind (.modify (.release hlive)) fun _ d _ => .get_bind ?_
    -- the service may have closed the link while it was told of the deletion
    by_cases hstatus : d.link.status = .live
    · rw [Link.reset_of_live hstatus]
      exact Leads.bind (.set (.reset hstatus _)) fun _ _ _ => leads_sendControl (by exact nofun)
    · obtain ⟨f, hfault⟩ := Link.exists_error_reset hstatus (call.unsignedArgument 0)
      rw [hfault]
      exact Leads.bind (.throw fun _ => Or.inl hstatus) fun _ _ _ =>
        leads_sendControl (by exact nofun)
  · exact .pure _

/-- A command calls for an application. -/
def callsApplication (stream : UInt32) (command : Command) : Prop :=
  stream = 0 ∧ command.name = "connect"

/-- Any other command makes moves that have to do with streams. -/
theorem leads_onCommand_stream {stream : UInt32} {command : Command}
    (h : ¬ callsApplication stream command) :
    Leads (StreamMove env) (Blamed env) c (onCommand env stream command) := by
  unfold onCommand
  split
  · -- stream 0: all handlers but that of a connect
    rename_i hzero
    split
    · rename_i hname
      exact absurd ⟨hzero, hname⟩ h
    · exact leads_onCreateStream command
    · exact leads_onCreateStream command
    · exact leads_onDeleteStream command
    · exact .pure _
    · exact .pure _
    · exact .pure _
    · exact leads_refuse _ _ _ _
  · -- another stream, if it is there
    refine .get_bind ?_
    split
    · rename_i hlive
      exact (leads_calling (.command hlive command)).bind fun _ _ _ => .pure _
    · exact leads_refuse _ _ _ _

/-- Only on stream 0 is an application asked for. -/
theorem onCommand_of_callsApplication {stream : UInt32} {command : Command}
    (h : callsApplication stream command) :
    onCommand env stream command = onConnect env command := by
  unfold onCommand
  rw [if_pos h.1, h.2]
  rfl

/-- **Commands** make no other moves. -/
theorem leads_onCommand (stream : UInt32) (command : Command) :
    Leads (Detached env) (Blamed env) c (onCommand env stream command) := by
  by_cases h : callsApplication stream command
  · rw [onCommand_of_callsApplication h]
    exact leads_onConnect command
  · exact leads_detached (leads_onCommand_stream h)

/-! ### Messages -/

/-- **Content** reaches a stream that is live, or nothing. -/
theorem leads_onContent (stream : UInt32) (content : MediaTag ⊕ Metadata) :
    Leads (StreamMove env) (Blamed env) c (onContent env stream content) := by
  unfold onContent
  refine .get_bind ?_
  split
  · rename_i hlive
    refine (leads_calling (.content hlive content)).bind fun answer d hd => ?_
    cases answer with
    | ok _ => exact .pure _
    | error f =>
      -- the service failed, which is what the blame is for
      have hanswer := Except.ok.inj (congrArg Prod.fst hd)
      exact .throw fun _ => Or.inr ⟨stream, content, _, _, hanswer⟩
  · exact .pure _

/-- **Control messages** are obeyed, announced or answered. -/
theorem leads_onControl (control : Control) :
    Leads (Move env) (Blamed env) c (onControl env control) := by
  unfold onControl
  split
  · exact .modify (.obey _ c.intake.window c.roundTrip)
  · exact .modify (.obey _ c.intake.window c.roundTrip)
  · exact .modify (.obey c.demux _ c.roundTrip)
  · exact leads_moves (leads_detached (leads_sendControl (by exact nofun)))
  · exact .modify (.obey c.demux c.intake.window _)
  · exact .pure _

/-- **A message is acted upon in moves.** -/
theorem leads_dispatch (m : Message) : Leads (Move env) (Blamed env) c (dispatch env m) := by
  unfold dispatch
  split
  · exact leads_onControl _
  · exact leads_moves (leads_onCommand _ _)
  · exact leads_moves (leads_detached (leads_onContent _ _))
  · exact leads_moves (leads_detached (leads_onContent _ _))

/-- A fault ends the connection, and is blamed on someone. -/
def Ends (env : Environment σ) (f : Fault) (c : Connection σ) : Prop :=
  f.isFatal = true ∧ Blamed env f c

/-- Faults that do not end the connection are dropped with their message. -/
theorem leads_onLeaf (p : Packet) : Leads (Move env) (Ends env) c (onLeaf env p) := by
  unfold onLeaf
  split
  · refine (leads_dispatch _).tryCatch fun f d hf => ?_
    by_cases hfatal : f.isFatal = true
    · rw [if_pos hfatal]
      exact .throw ⟨hfatal, hf⟩
    · rw [if_neg hfatal]
      exact .pure ()
  · exact .pure ()

/-- **A packet is acted upon in moves**, and fails only with what ends the connection. -/
theorem leads_onPacket (p : Packet) : Leads (Move env) (Ends env) c (onPacket env p) :=
  .forM (fun p _ => leads_onLeaf p) p.leaves

end Connection

end LiveIngest
