import LiveIngest.Proofs.Connection.Calling
import LiveIngest.Proofs.Connection.Deleting

/-!
# Replies

What a peer calls on stream 0, or on a stream that is not there, is answered with one reply. Before
it is, the service may be asked for an application or for a stream, or be told the end of a stream,
and it may use the link while it is asked (`Connection.consult`). The reply is a command under the
transaction of the call and on the stream of the call, and nothing else that is queued with it is a
command (`Connection.Replies`).

A service that closes the link while it is asked leaves the call without a reply, since nothing can
be queued any more.

Main statement: `onCommand_replies` — one reply to each call that is answered, and none to the
others.
-/

namespace LiveIngest

open Chunk Handling

variable {σ α : Type}

namespace Connection

variable {env : Environment σ} {c d : Connection σ}

/-! ### What the service is asked -/

/-- What the service is asked or told before a call is answered: true if it accepts what it was
asked for, and the connection with what it has done on the link. -/
def consult (env : Environment σ) (stream : UInt32) (call : Command) (c : Connection σ) :
    Bool × Connection σ :=
  if stream = 0 then
    match call.method with
    | .connect =>
      if c.isBound then (false, c)
      else (c.announced call).askApplication env (applicationOf call)
    | .createStream => if c.isBound then c.askStream env else (false, c)
    | .deleteStream =>
      if call.unsignedArgument 0 ∈ c.streams then (false, c.release env (call.unsignedArgument 0))
      else (false, c)
    | .answer | .unsupported => (false, c)
  else (false, c)

/-- A call that is answered. -/
def IsAnswered (c : Connection σ) (stream : UInt32) (call : Command) : Prop :=
  if stream = 0 then call.name ∉ Command.unanswered else stream ∉ c.streams

/-- One reply to a call, where the service has left the connection as `heard`. On a link that the
service has closed nothing is queued. -/
def Replies (stream : UInt32) (reply : Command) (heard : Connection σ)
    (out : Outcome σ Unit) : Prop :=
  if heard.link.status = .live then
    out.1 = .ok () ∧ ∃ before p after, p.Holds stream reply ∧
      (∀ q ∈ before ++ after, q.isCommand = false) ∧
      out.2.link.mux = (before ++ p :: after).foldl Mux.enqueue heard.link.mux
  else (∃ f, out.1 = .error f) ∧ out.2.link.mux = heard.link.mux

/-- The reply to a call on a stream, where `asked` is the answer of the service and the connection as
it has left it: a result if it accepted what it was asked for, and an error otherwise. A call for a
stream gets the id of the stream that was added, which is now the last one. -/
def RepliesTo (c : Connection σ) (stream : UInt32) (call : Command) (asked : Bool × Connection σ)
    (out : Outcome σ Unit) : Prop :=
  ∃ object info, Replies stream
      ((if asked.1 then Command.result else Command.error) call.transaction object info) asked.2 out ∧
    (asked.1 = true → call.method = .createStream → ∃ created,
      info = .number (.ofUInt32 created) ∧
        out.2.streams = c.streams.erase created ++ [created])

/-- Queueing messages none of which is a command, perhaps after a reset of a stream. -/
def Notifies (stream : UInt32) (heard : Connection σ) (out : Outcome σ Unit) : Prop :=
  ∃ ps : List Packet, (∀ q ∈ ps, q.isCommand = false) ∧
    (out.2.link.mux = ps.foldl Mux.enqueue heard.link.mux ∨
      out.2.link.mux = ps.foldl Mux.enqueue (heard.link.mux.resetLanes stream))

/-! ### One reply -/

/-- A command that stays readable is sent or, where the link is closed, refused. -/
theorem replies_sendCommand {reply : Command} (hreply : reply.Stays) (stream : UInt32) :
    Replies stream reply c (sendCommand env stream reply c) := by
  obtain ⟨p, hp, hholds⟩ := Command.exists_ofCommand hreply env.now.stamp stream
  unfold Replies sendCommand
  rw [hp]
  dsimp only
  -- the command can be written; what is left is whether the link takes it
  split
  · rename_i hopen
    rw [send_of_live hopen]
    exact ⟨rfl, [], p, [], hholds, fun q hq => absurd hq List.not_mem_nil, rfl⟩
  · rename_i hclosed
    obtain ⟨f, hf⟩ := exists_error_send hclosed p
    rw [hf]
    exact ⟨⟨f, rfl⟩, rfl⟩

/-- A refusal is a reply that names its reason. -/
theorem replies_refuse (stream : UInt32) (call : Command) {code description : String}
    (hcode : (Amf.utf8 code).length ≤ 65535)
    (hdescription : (Amf.utf8 description).length ≤ 65535) :
    Replies stream (.error call.transaction .null (Command.statusObject "error" code description))
      c (refuse env stream call code description c) :=
  replies_sendCommand (Command.stays_error hcode hdescription call.transaction) stream

/-- A call that is refused without asking the service. -/
theorem repliesTo_refuse (stream : UInt32) (call : Command) {code description : String}
    (hcode : (Amf.utf8 code).length ≤ 65535)
    (hdescription : (Amf.utf8 description).length ≤ 65535) :
    RepliesTo c stream call (false, c) (refuse env stream call code description c) :=
  ⟨_, _, replies_refuse stream call hcode hdescription, fun h => (nomatch h)⟩

/-- The four control messages before the reply to a peer that was accepted. -/
def greeting (terms : Terms) : List Packet :=
  [.ofEvent (.streamBegin 0), .ofControl (.windowSize terms.windowSize),
    .ofControl (.peerBandwidth terms.bandwidth terms.limitType),
    .ofControl (.setChunkSize terms.chunkSize)]

/-- On a live link the whole welcome is queued in one go, the settings before the result. -/
theorem welcome_of_live (hopen : c.link.status = .live) (call : Command)
    (objectEncoding : Binary64) {p : Packet} (hp : Packet.ofCommand env.now.stamp 0
      (.result call.transaction serviceObject (connectedObject objectEncoding)) = .ok p) :
    welcome env call objectEncoding c = (.ok (),
      (c.queue (greeting c.terms ++ p :: [.ofEvent (.pingRequest env.now.stamp)])).advance
        .appConnected) := by
  have hstart : c = c.queue [] := rfl
  unfold welcome sendCommand
  rw [bind_apply, get_apply, hp]
  dsimp only
  -- every message finds the link live, since those before it were only queued
  conv_lhs => rw [hstart]
  rw [send_bind_queue hopen, send_bind_queue hopen, send_bind_queue hopen, send_bind_queue hopen,
    send_bind_queue hopen, send_bind_queue hopen]
  rfl

/-- The result of a connect can be read: its names and texts are short, and it nests two levels at
most. -/
theorem stays_welcome (transaction objectEncoding : Binary64) :
    (Command.result transaction serviceObject (connectedObject objectEncoding)).Stays := by
  refine Command.stays_reply (by decide) transaction (Amf.stays_ofFields fun e he => ?_)
    (Amf.stays_ofFields fun e he => ?_)
  -- what the server says of itself
  · simp only [List.mem_cons, List.not_mem_nil, or_false] at he
    rcases he with rfl | rfl | rfl
    · exact ⟨by decide, Amf.stays_text (by decide) _⟩
    · exact ⟨by decide, Amf.stays_number _ _⟩
    · exact ⟨by decide, Amf.stays_number _ _⟩
  -- what it says of the connection
  · simp only [List.mem_cons, List.not_mem_nil, or_false] at he
    rcases he with rfl | rfl | rfl | rfl | rfl
    · exact ⟨by decide, Amf.stays_text (by decide) _⟩
    · exact ⟨by decide, Amf.stays_text (by decide) _⟩
    · exact ⟨by decide, Amf.stays_text (by decide) _⟩
    · exact ⟨(by decide : Amf.NameFits "objectEncoding"), Amf.stays_number _ _⟩
    · exact ⟨by decide, by decide, rfl⟩

/-- A connect is replied to by its result, behind the settings. -/
theorem replies_welcome (call : Command) (objectEncoding : Binary64) :
    Replies 0 (.result call.transaction serviceObject (connectedObject objectEncoding)) c
      (welcome env call objectEncoding c) := by
  obtain ⟨p, hp, hholds⟩ := Command.exists_ofCommand (stays_welcome call.transaction objectEncoding)
    env.now.stamp 0
  unfold Replies
  split
  · -- live: the settings, the result and a ping in one go
    rename_i hopen
    rw [welcome_of_live hopen call objectEncoding hp]
    refine ⟨rfl, greeting c.terms, p, [.ofEvent (.pingRequest env.now.stamp)], hholds, ?_, rfl⟩
    intro q hq
    simp only [greeting, List.mem_append, List.mem_cons, List.not_mem_nil, or_false] at hq
    rcases hq with (rfl | rfl | rfl | rfl) | rfl <;> exact Packet.isCommand_ofControl _
  · -- closed: the first message is refused, and so is the rest
    rename_i hclosed
    obtain ⟨f, hf⟩ := exists_error_send hclosed (.ofEvent (.streamBegin 0))
    unfold welcome
    rw [bind_apply, get_apply]
    dsimp only
    rw [bind_apply, hf]
    exact ⟨⟨f, rfl⟩, rfl⟩

/-- What is done behind a reply without queueing anything. -/
theorem Replies.modify {stream : UInt32} {reply : Command} {x : Handling σ Unit}
    {f : Connection σ → Connection σ} (h : Replies stream reply c (x c))
    (hf : ∀ d, (f d).link.mux = d.link.mux) :
    Replies stream reply c ((x >>= fun _ => modify f) c) := by
  unfold Replies at h ⊢
  rw [bind_apply]
  rcases hx : x c with ⟨e | _, d⟩ <;> rw [hx] at h
  · exact h
  · split at h
    · obtain ⟨-, before, p, after, hholds, hothers, hmux⟩ := h
      rw [if_pos ‹_›]
      exact ⟨rfl, before, p, after, hholds, hothers, (hf d).trans hmux⟩
    · exact nomatch h.1

/-! ### Handlers -/

/-- Sending a command leaves the streams alone. -/
theorem streams_sendCommand (env : Environment σ) (c : Connection σ) (stream : UInt32)
    (command : Command) : (sendCommand env stream command c).2.streams = c.streams := by
  unfold sendCommand
  cases Packet.ofCommand env.now.stamp stream command with
  | ok p =>
    obtain ⟨link, -, hsent⟩ := exists_link_send c p
    dsimp only
    rw [hsent]
  | error f => rfl

/-- The reply to `connect`: the service is asked if no application is bound. -/
theorem repliesTo_onConnect (env : Environment σ) (call : Command) (hcall : call.method = .connect)
    (c : Connection σ) : RepliesTo c 0 call (consult env 0 call c) (onConnect env call c) := by
  have hconsult : consult env 0 call c = if c.isBound then (false, c)
      else (c.announced call).askApplication env (applicationOf call) := by
    unfold consult
    rw [if_pos rfl, hcall]
  have hother : call.method ≠ .createStream := fun h => nomatch hcall.symm.trans h
  rw [hconsult]
  -- a second connect is refused without asking the service
  cases hbound : c.isBound with
  | true =>
    have hout : onConnect env call c =
        refuse env 0 call "NetConnection.Connect.Failed" "Already connected" c := by
      unfold onConnect
      rw [bind_apply, get_apply]
      dsimp only
      rw [if_pos hbound]
    rw [hout]
    exact repliesTo_refuse 0 call (by decide) (by decide)
  | false =>
    rw [onConnect_apply env hbound, if_neg Bool.false_ne_true]
    dsimp only
    generalize (c.announced call).askApplication env (applicationOf call) = asked
    obtain ⟨accepted, heard⟩ := asked
    -- the service accepts or rejects; either is one reply
    cases accepted with
    | true =>
      have hwelcome := @replies_welcome _ env
        { heard with isBound := true, application := applicationOf call } call
        (announcedNumber call "objectEncoding")
      exact ⟨_, _, hwelcome, fun _ h => absurd h hother⟩
    | false =>
      have hrefuse := @replies_refuse _ env heard 0 call "NetConnection.Connect.Rejected"
        "Connection rejected" (by decide) (by decide)
      exact ⟨_, _, hrefuse.modify fun d => rfl, fun _ h => absurd h hother⟩

/-- The reply to `createStream`: the service is asked if an application is bound. -/
theorem repliesTo_onCreateStream (env : Environment σ) (call : Command)
    (hcall : call.method = .createStream) (c : Connection σ) :
    RepliesTo c 0 call (consult env 0 call c) (onCreateStream env call c) := by
  have hconsult : consult env 0 call c = if c.isBound then c.askStream env else (false, c) := by
    unfold consult
    rw [if_pos rfl, hcall]
  rw [hconsult]
  cases hbound : c.isBound with
  | true =>
    rw [onCreateStream_apply env hbound, if_pos rfl]
    unfold RepliesTo
    dsimp only
    -- the id is spent in either case, and only a created stream is added
    cases hcreated : (c.askStream env).1 with
    | true =>
      let created : Connection σ := { (c.askStream env).2 with
        streams := (c.askStream env).2.streams.erase c.spend.lastStream ++ [c.spend.lastStream] }
      let reply : Command :=
        .result call.transaction .null (.number (.ofUInt32 c.spend.lastStream))
      have hreply : reply.Stays :=
        Command.stays_reply (by decide) call.transaction (Amf.stays_null _) (Amf.stays_number _ _)
      have hsent := @replies_sendCommand _ env created reply hreply 0
      exact ⟨_, _, hsent, fun _ _ =>
        ⟨c.spend.lastStream, rfl, streams_sendCommand env created 0 reply⟩⟩
    | false =>
      have hrefuse := @replies_refuse _ env (c.askStream env).2 0 call "NetConnection.Call.Failed"
        "Stream creation refused" (by decide) (by decide)
      exact ⟨_, _, hrefuse, fun h => (nomatch h)⟩
  | false =>
    have hout : onCreateStream env call c =
        refuse env 0 call "NetConnection.Call.Failed" "Not connected" c := by
      unfold onCreateStream
      rw [bind_apply, get_apply]
      dsimp only
      rw [hbound, if_neg Bool.false_ne_true]
    rw [hout]
    exact repliesTo_refuse 0 call (by decide) (by decide)

/-- The end of a stream is told without a command. -/
theorem notifies_onDeleteStream (env : Environment σ) (call : Command)
    (hcall : call.method = .deleteStream) (c : Connection σ) :
    Notifies (call.unsignedArgument 0) (consult env 0 call c).2 (onDeleteStream env call c) := by
  unfold consult
  rw [if_pos rfl, hcall]
  dsimp only
  split
  · -- notices are control messages
    rename_i hlive
    have happly := @onDeleteStream_apply _ env c call hlive
    dsimp only at happly
    split at happly
    · rw [happly]
      refine ⟨(c.release env (call.unsignedArgument 0)).link.mux.notices (call.unsignedArgument 0),
        fun q hq => ?_, Or.inr (Mux.settle_eq _ _)⟩
      rcases List.mem_append.1 hq with hq | hq
      · obtain ⟨a, -, rfl⟩ := List.mem_map.1 hq
        rfl
      · rw [List.mem_singleton.1 hq]
        rfl
    · obtain ⟨f, hf⟩ := happly
      rw [hf]
      exact ⟨[], fun q hq => absurd hq List.not_mem_nil, Or.inl rfl⟩
  · -- a stream that is not there is passed over
    rename_i hgone
    unfold onDeleteStream
    rw [bind_apply, get_apply]
    dsimp only
    rw [if_neg hgone]
    exact ⟨[], fun q hq => absurd hq List.not_mem_nil, Or.inl rfl⟩

/-! ### Commands -/

/-- The service uses the link by acts, and only by closing it keeps a reply from being queued. -/
theorem exists_acts_consult (env : Environment σ) (stream : UInt32) (call : Command)
    (c : Connection σ) : ∃ acts : List Act,
      (consult env stream call c).2.link = acts.foldl Link.act c.link := by
  -- where no callback is called, nothing is done to the link
  have hnone : ∃ acts : List Act, c.link = acts.foldl Link.act c.link := ⟨[], rfl⟩
  unfold consult
  split
  · split
    · split
      · exact hnone
      · exact ⟨_, rfl⟩
    · split
      · exact ⟨_, rfl⟩
      · exact hnone
    · split
      · unfold release
        dsimp only
        split
        · exact ⟨_, rfl⟩
        · exact hnone
      · exact hnone
    · exact hnone
    · exact hnone
  · exact hnone

/-- Only a call for an application or for a stream can be accepted. -/
theorem method_of_consult {stream : UInt32} {call : Command}
    (h : (consult env stream call c).1 = true) :
    stream = 0 ∧ (call.method = .connect ∨ call.method = .createStream) := by
  -- on a stream nothing is answered, nor are the other commands
  unfold consult at h
  split at h
  · rename_i hzero
    split at h
    · exact ⟨hzero, Or.inl ‹_›⟩
    · exact ⟨hzero, Or.inr ‹_›⟩
    · split at h <;> exact nomatch h
    · exact nomatch h
    · exact nomatch h
  · exact nomatch h

/-- **Every answered command is replied to once**, in the handler that its name selects. -/
theorem repliesTo_onCommand (env : Environment σ) {stream : UInt32} {call : Command}
    (h : IsAnswered c stream call) :
    RepliesTo c stream call (consult env stream call c) (onCommand env stream call c) := by
  unfold IsAnswered at h
  split at h
  · -- on stream 0 the name selects the handler
    rename_i hzero
    subst hzero
    rw [Command.mem_unanswered_iff, not_or] at h
    rw [onCommand_zero]
    cases hcall : call.method with
    | connect => exact repliesTo_onConnect env call hcall c
    | createStream => exact repliesTo_onCreateStream env call hcall c
    | deleteStream => exact absurd hcall h.1
    | answer => exact absurd hcall h.2
    | unsupported =>
      have hconsult : consult env 0 call c = (false, c) := by
        unfold consult
        rw [if_pos rfl, hcall]
      rw [hconsult]
      exact repliesTo_refuse 0 call (by decide) (by decide)
  · -- on other streams only an unknown one is answered, by a refusal
    rename_i hzero
    have hconsult : consult env stream call c = (false, c) := if_neg hzero
    have hout : onCommand env stream call c =
        refuse env stream call "NetStream.Failed" "Unknown stream" c := by
      unfold onCommand
      rw [if_neg hzero, bind_apply, get_apply]
      dsimp only
      rw [if_neg h]
    rw [hconsult, hout]
    exact repliesTo_refuse stream call (by decide) (by decide)

/-- The commands without an answer queue no reply. -/
theorem notifies_onCommand (env : Environment σ) (c : Connection σ) {call : Command}
    (h : call.name ∈ Command.unanswered) :
    Notifies (call.unsignedArgument 0) (consult env 0 call c).2 (onCommand env 0 call c) := by
  rw [onCommand_zero]
  rcases (Command.mem_unanswered_iff call).1 h with hcall | hcall
  · rw [hcall]
    exact notifies_onDeleteStream env call hcall c
  · have hconsult : consult env 0 call c = (false, c) := by
      unfold consult
      rw [if_pos rfl, hcall]
    rw [hconsult, hcall]
    exact ⟨[], fun q hq => absurd hq List.not_mem_nil, Or.inl rfl⟩

/-- **One reply to each call.** A call on stream 0, unless it deletes a stream or answers something
itself, and a call on a stream that is not live, is answered with one reply, a result if the service
accepted what it was asked for and an error otherwise. Nothing is queued where the service closes the
link while it is asked. The other calls on stream 0 are not answered. -/
theorem onCommand_replies (env : Environment σ) (c : Connection σ) (stream : UInt32)
    (call : Command) :
    let asked := consult env stream call c
    let out := onCommand env stream call c
    (asked.1 = true → stream = 0 ∧ (call.method = .connect ∨ call.method = .createStream)) ∧
      (∃ acts : List Act, asked.2.link = acts.foldl Link.act c.link ∧
        (asked.2.link.status = .live ↔ c.link.status = .live ∧ .close ∉ acts)) ∧
      (IsAnswered c stream call → RepliesTo c stream call asked out) ∧
      (stream = 0 → call.name ∈ Command.unanswered →
        Notifies (call.unsignedArgument 0) asked.2 out) := by
  intro asked out
  refine ⟨method_of_consult, ?_, repliesTo_onCommand env, ?_⟩
  · obtain ⟨acts, hacts⟩ := exists_acts_consult env stream call c
    refine ⟨acts, hacts, ?_⟩
    rw [show asked.2.link = _ from hacts]
    exact Link.live_acts_iff c.link acts
  · rintro rfl hname
    exact notifies_onCommand env c hname

/-- A stream that the service accepts: the reply is a result with the id of the new stream. -/
theorem onCommand_replies_created :
    let env : Environment Unit := ⟨Service.silent Unit, .seeded 0, ⟨0, 0⟩⟩
    let c : Connection Unit := { initial 1 ⟨8, 100, 100, 2⟩ () with isBound := true }
    let call : Command := ⟨"createStream", .ofUInt32 2, .null, []⟩
    let out := onCommand env 0 call c
    c.link.status = .live ∧ IsAnswered c 0 call ∧ out.1 = .ok () ∧ out.2.streams = [1] ∧
      ∃ before p after object,
        p.Holds 0 (.result (.ofUInt32 2) object (.number (.ofUInt32 1))) ∧
        (∀ q ∈ before ++ after, q.isCommand = false) ∧
        out.2.link.mux = (before ++ p :: after).foldl Mux.enqueue c.link.mux := by
  intro env c call out
  have hname : IsAnswered c 0 call := (by decide +kernel : call.name ∉ Command.unanswered)
  obtain ⟨-, -, hreplies, -⟩ := onCommand_replies env c 0 call
  obtain ⟨object, info, hreply, hcreated⟩ := hreplies hname
  obtain ⟨created, hinfo, hstreams⟩ := hcreated rfl rfl
  obtain ⟨hok, before, p, after, hholds, hothers, hmux⟩ := hreply
  -- the new stream is the only one
  have hone : out.2.streams = [1] := by decide +kernel
  obtain rfl : created = 1 := List.singleton_inj.1 (hstreams.symm.trans hone)
  rw [hinfo] at hholds
  exact ⟨rfl, hname, hok, hone, before, p, after, object, hholds, hothers, hmux⟩

/-- The service accepts a stream and closes the link while it is asked for it: the peer gets no reply
to its call. -/
theorem unanswered_of_closing :
    let service : Service Unit := { Service.silent Unit with
      createStream := fun _ _ _ => do
        Hook.perform .close
        return true }
    let env : Environment Unit := ⟨service, .seeded 0, ⟨0, 0⟩⟩
    let hello : List UInt8 := 3 :: List.replicate 3072 0
    let connect : List UInt8 := [3, 0, 0, 0, 0, 0, 35, 20, 0, 0, 0, 0,
      2, 0, 7, 99, 111, 110, 110, 101, 99, 116, 0, 63, 240, 0, 0, 0, 0, 0, 0,
      3, 0, 3, 97, 112, 112, 2, 0, 4, 108, 105, 118, 101, 0, 0, 9]
    let ops : List (Moment × Operation) := [(⟨0, 0⟩, .parse hello), (⟨0, 0⟩, .parse connect),
      (⟨0, 0⟩, .serialize 65536)]
    let c := (initial 1 ⟨8, 100, 100, 2⟩ ()).run env ops
    let call : Command := ⟨"createStream", .ofUInt32 2, .null, []⟩
    let out := onCommand env 0 call c
    c.link.status = .live ∧ IsAnswered c 0 call ∧ out.2.streams = [1] ∧
      ∀ before p after, out.2.link.mux ≠ (before ++ p :: after).foldl Mux.enqueue c.link.mux := by
  intro service env hello connect ops c call out
  obtain ⟨hopen, hname, hstreams, hmux⟩ : c.link.status = .live ∧
      call.name ∉ Command.unanswered ∧ out.2.streams = [1] ∧ out.2.link.mux = c.link.mux := by
    decide +kernel
  refine ⟨hopen, hname, hstreams, fun before p after hqueued => ?_⟩
  -- what is queued on a chunk stream did not change, and a reply would be more
  have hdue := congrArg (Mux.due · p.chunkStream) (hmux.symm.trans hqueued)
  rw [Mux.due_enqueueAll] at hdue
  have hnone := List.map_eq_nil_iff.1 (List.self_eq_append_right.1 hdue)
  exact List.filter_eq_nil_iff.1 hnone p (List.mem_append_right _ List.mem_cons_self) (by simp)

end Connection

end LiveIngest
