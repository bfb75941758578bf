import LiveIngest.Proofs.Connection.Calling
import LiveIngest.Proofs.Message.Aggregate
import LiveIngest.Proofs.Service.Recorded

/-!
# One stream after the other

A peer may ask for as many streams as it likes. Here it asks for one after the other, in the same
bytes each time, of a service that grants every stream. Nothing keeps such a connection from going
on (`Ready`): each call is read, the next id is given out, and the connection is as ready as before.

The ids are 32 bits wide, so that behind the last one they begin again.

Main statement: `Ready.run_replicate` — the ids of `n` streams, whatever `n` is.
-/

namespace LiveIngest

open Chunk Handling

variable {σ : Type}

/-- The service grants every stream, and does nothing with the link then. -/
def Service.Grants (s : Service σ) : Prop :=
  ∀ stream audioCodecs videoCodecs v t,
    (s.createStream stream audioCodecs videoCodecs v t).value = true ∧
      (s.createStream stream audioCodecs videoCodecs v t).acts = []

/-- No time has passed. -/
def Environment.still (service : Service σ) : Environment σ := ⟨service, .seeded 0, ⟨0, 0⟩⟩

namespace Connection

variable {env : Environment σ} {c d : Connection σ}

/-! ### One message -/

/-- **A slice that is one message** is taken as a whole. Without a window nothing is
acknowledged. -/
theorem parse_of_packet (hphase : c.phase.isEnding = false) (hdone : c.handshake.isDone = true)
    (hwindow : c.intake.window = 0) {slice : List UInt8} {demux : Demux} {p : Packet}
    (hread : c.demux.parse slice = ⟨demux, slice.length, .packet p⟩)
    (hacted : onPacket env p { c with
      demux, intake := { c.intake with total := c.intake.total + slice.length } } = (.ok (), d)) :
    c.parse env slice = (.ok slice.length, d) := by
  have hslice : slice ≠ [] := by
    rintro rfl
    unfold Demux.parse at hread
    exact nomatch congrArg Demux.Reading.event hread
  let counted : Connection σ :=
    { c with intake := { c.intake with total := c.intake.total + slice.length } }
  have hcount : acknowledge slice.length c = (.ok (), counted) := by
    have hnone : c.intake.count slice.length = (counted.intake, none) := if_pos hwindow
    unfold acknowledge
    rw [bind_apply, get_apply]
    dsimp only
    rw [hnone]
    rfl
  have htake : take env slice counted = (.ok slice.length, d) := by
    rw [@take_of_isDone _ env counted hdone slice]
    show onReading env counted (c.demux.parse slice) = _
    rw [hread]
    show (onPacket env p >>= fun _ => pure slice.length : Handling σ Nat) _ = _
    rw [bind_apply, hacted]
    rfl
  unfold Connection.parse
  rw [if_neg (Bool.eq_false_iff.1 hphase), hcount]
  dsimp only
  unfold takeAll
  rw [dif_neg hslice, htake]
  dsimp only
  -- nothing is left of the slice, whether the connection is closing or not
  split
  · rw [Nat.zero_add]
  · unfold takeAll
    rw [List.drop_length, dif_pos rfl, Nat.zero_add]

/-- A packet that holds a command is acted upon as the command is. -/
theorem onPacket_of_holds {p : Packet} {stream : UInt32} {call : Command}
    (hp : p.Holds stream call) (hcall : onCommand env stream call c = (.ok (), d)) :
    onPacket env p c = (.ok (), d) := by
  -- a command is no aggregate, so that the packet is its only leaf
  have hleaves : p.leaves = [p] := by
    have hplain : p.isAggregate = false := by
      unfold Packet.isAggregate
      rw [hp.kind]
      rfl
    exact Packet.leaves_of_not_isAggregate hplain
  have hmessage : Message.ofPacket p = .ok ⟨p.streamId, p.timestamp, p.type, .command call⟩ := by
    unfold Message.ofPacket
    rw [hp.kind]
    dsimp only
    rw [hp.parse]
    rfl
  have hleaf : onLeaf env p c = (.ok (), d) := by
    unfold onLeaf
    rw [hmessage]
    dsimp only
    rw [tryCatch_apply]
    have hdispatch : dispatch env ⟨p.streamId, p.timestamp, p.type, .command call⟩ c =
        (.ok (), d) := by
      rw [← hcall, ← hp.streamId]
      rfl
    rw [hdispatch]
  unfold onPacket
  rw [hleaves]
  show (onLeaf env p >>= fun _ => pure ()) c = _
  rw [bind_apply, hleaf]
  rfl

/-! ### Streams -/

/-- The bytes are one call for a stream, behind which the receiving side is as before. -/
def Requests (demux : Demux) (request : List UInt8) : Prop :=
  ∃ p call, demux.parse request = ⟨demux, request.length, .packet p⟩ ∧ p.Holds 0 call ∧
    call.method = .createStream

theorem Requests.of_method {demux : Demux} {request : List UInt8} {p : Packet}
    (hread : demux.parse request = ⟨demux, request.length, .packet p⟩)
    (hkind : p.kind = .command false) (hstream : p.streamId = 0)
    (hmethod : (Command.parse false p.payload).toOption.map Command.method = some .createStream) :
    Requests demux request := by
  obtain ⟨call, hp, hcall⟩ := Packet.exists_holds hkind Command.method hmethod
  exact ⟨p, call, hread, hstream ▸ hp, hcall⟩

/-- A connection on which nothing keeps a call from being answered, with its receiving side. -/
structure Ready (demux : Demux) (c : Connection σ) : Prop where
  phase : c.phase = .appConnected
  shaken : c.handshake.isDone = true
  bound : c.isBound = true
  live : c.link.status = .live
  /-- The peer has announced no window. -/
  window : c.intake.window = 0
  demux : c.demux = demux

/-- A stream that is granted is created under the next id, and nothing else changes but the link and
the service. -/
theorem onCreateStream_of_grants (hgrants : env.service.Grants) (hbound : c.isBound = true)
    (hlive : c.link.status = .live) (call : Command) : ∃ link served, link.status = .live ∧
      onCreateStream env call c = (.ok (), { c with
        link, served, lastStream := c.spend.lastStream
        streams := c.streams.erase c.spend.lastStream ++ [c.spend.lastStream] }) := by
  obtain ⟨hgranted, hacts⟩ := hgrants c.spend.lastStream c.audioCodecs c.videoCodecs
    (c.spend.link.view env.now) c.spend.served
  have hlink : (c.askStream env).2.link = c.link := by
    show (env.service.createStream c.spend.lastStream c.audioCodecs c.videoCodecs
      (c.spend.link.view env.now) c.spend.served).acts.foldl Link.act c.link = c.link
    rw [hacts]
    rfl
  let created : Connection σ := { (c.askStream env).2 with
    streams := c.streams.erase c.spend.lastStream ++ [c.spend.lastStream] }
  have hopen : created.link.status = .live := by
    show (c.askStream env).2.link.status = .live
    rw [hlink]
    exact hlive
  -- the reply can be written, whatever the id is
  have hreply : (Command.result call.transaction .null
      (.number (.ofUInt32 c.spend.lastStream))).Stays :=
    Command.stays_reply (by decide) call.transaction (Amf.stays_null _) (Amf.stays_number _ _)
  obtain ⟨p, hp, -⟩ := Command.exists_ofCommand hreply env.now.stamp 0
  refine ⟨(created.queue [p]).link, (created.queue [p]).served, hopen, ?_⟩
  have hasked : (c.askStream env).1 = true := hgranted
  rw [onCreateStream_apply env hbound]
  dsimp only
  rw [if_pos hasked]
  unfold sendCommand
  rw [hp]
  exact send_of_live hopen p

/-- **One call for a stream.** -/
theorem Ready.parse_request {demux : Demux} (h : Ready demux c) (hgrants : env.service.Grants)
    {request : List UInt8} (hrequest : Requests demux request) :
    Ready demux (c.parse env request).2 ∧ (c.parse env request).2.lastStream = c.lastStream + 1 ∧
      (c.parse env request).2.streams =
        c.streams.erase (c.lastStream + 1) ++ [c.lastStream + 1] := by
  have hending : c.phase.isEnding = false := by
    rw [h.phase]
    rfl
  obtain ⟨p, call, hread, hp, hcall⟩ := hrequest
  rw [← h.demux] at hread
  -- without a window the bytes are counted and nothing is acknowledged
  let counted : Connection σ :=
    { c with intake := { c.intake with total := c.intake.total + request.length } }
  obtain ⟨link, served, hlive, hcreate⟩ :=
    @onCreateStream_of_grants _ env counted hgrants h.bound h.live call
  have honCommand : onCommand env 0 call counted = onCreateStream env call counted := by
    rw [onCommand_zero, hcall]
  have hacted : onPacket env p { c with
      demux := c.demux
      intake := { c.intake with total := c.intake.total + request.length } } = _ :=
    onPacket_of_holds hp (honCommand.trans hcreate)
  rw [parse_of_packet hending h.shaken h.window hread hacted]
  exact ⟨⟨h.phase, h.shaken, h.bound, hlive, h.window, h.demux⟩, rfl, rfl⟩

/-- **Any number of calls for a stream.** They are granted under the ids that follow, and no stream
that was live is gone. -/
theorem Ready.run_replicate {demux : Demux} (h : Ready demux c) (hgrants : env.service.Grants)
    {request : List UInt8} (hrequest : Requests demux request) (t : Moment) (n : Nat) :
    let d := c.run env (List.replicate n (t, .parse request))
    Ready demux d ∧ d.lastStream = c.lastStream + .ofNat n ∧ c.streams ⊆ d.streams ∧
      ∀ i < n, c.lastStream + .ofNat (i + 1) ∈ d.streams := by
  -- on the number of requests; the last one is taken off the end
  induction n with
  | zero => exact ⟨h, (UInt32.add_zero _).symm, List.Subset.refl _, fun i hi => absurd hi (by omega)⟩
  | succ n ih =>
    intro d
    obtain ⟨hready, hlast, hkept, hids⟩ := ih
    have hstep : d = ((c.run env (List.replicate n (t, .parse request))).parse (env.moved t)
        request).2 := by
      show c.run env (List.replicate (n + 1) _) = _
      rw [List.replicate_succ', run_append]
      rfl
    obtain ⟨hnext, hid, hstreams⟩ :=
      @Ready.parse_request _ (env.moved t) _ _ hready hgrants _ hrequest
    have hnew : (c.run env (List.replicate n (t, .parse request))).lastStream + 1 =
        c.lastStream + .ofNat (n + 1) := by
      rw [hlast, UInt32.add_assoc, UInt32.ofNat_add]
      rfl
    have hall : ∀ stream, stream ∈ (c.run env (List.replicate n (t, .parse request))).streams ∨
        stream = c.lastStream + .ofNat (n + 1) → stream ∈ d.streams := by
      intro stream hmem
      rw [hstep, hstreams, hnew, List.mem_append, List.mem_singleton]
      -- a stream with this id was there before or is the new one
      by_cases hsame : stream = c.lastStream + .ofNat (n + 1)
      · exact Or.inr hsame
      · exact Or.inl ((List.mem_erase_of_ne hsame).2 (hmem.resolve_right hsame))
    refine ⟨hstep ▸ hnext, hstep ▸ hid.trans hnew, fun stream hlive => ?_, fun i hi => ?_⟩
    · exact hall stream (Or.inl (hkept hlive))
    · rcases Nat.lt_succ_iff_lt_or_eq.1 hi with hi | rfl
      · exact hall _ (Or.inl (hids i hi))
      · exact hall _ (Or.inr rfl)

namespace Peer

/-- What a peer opens with that signs nothing. -/
def hello : List UInt8 := 3 :: List.replicate 3072 0

/-- The call for the application `live`. -/
def connect : List UInt8 := [3, 0, 0, 0, 0, 0, 35, 20, 0, 0, 0, 0,
  2, 0, 7, 99, 111, 110, 110, 101, 99, 116, 0, 63, 240, 0, 0, 0, 0, 0, 0,
  3, 0, 3, 97, 112, 112, 2, 0, 4, 108, 105, 118, 101, 0, 0, 9]

/-- The call for a stream. -/
def createStream : List UInt8 := [3, 0, 0, 0, 0, 0, 25, 20, 0, 0, 0, 0,
  2, 0, 12, 99, 114, 101, 97, 116, 101, 83, 116, 114, 101, 97, 109,
  0, 64, 0, 0, 0, 0, 0, 0, 0, 5]

/-- The call that deletes the stream 1. -/
def deleteStream : Command := ⟨"deleteStream", .zero, .null, [.number (.ofUInt32 1)]⟩

/-- A peer connects and gets the stream 1. -/
def opening : List (Moment × Operation) :=
  [(⟨0, 0⟩, .parse hello), (⟨0, 0⟩, .parse connect), (⟨0, 0⟩, .parse createStream),
    (⟨0, 0⟩, .serialize 65536)]

end Peer

/-- The connection of a peer that has the stream 1. -/
def opened (service : Service Unit) : Connection (Unit × List Call) :=
  (initial 1 ⟨8, 100, 100, 2⟩ ((), [])).run (Environment.still service).recorded Peer.opening

/-- A service that does nothing grants every stream, also when its calls are recorded. -/
theorem grants_recorded_silent (σ : Type) : (Service.silent σ).recorded.Grants :=
  fun _ _ _ _ _ => ⟨rfl, rfl⟩

/-- A service that does nothing leaves the connection of a peer ready. -/
theorem ready_opened :
    let c := opened (Service.silent Unit)
    Ready c.demux c ∧ Requests c.demux Peer.createStream ∧ c.lastStream = 1 ∧ c.streams = [1] ∧
      c.calls = [.connect "live" true, .createStream 1 true] := by
  let asked : Packet := .ofPayload 0 20 0 3 (Peer.createStream.drop 12)
  -- the opening is evaluated once, and everything is read off it
  obtain ⟨hphase, hshaken, hbound, hlive, hwindow, hrecord⟩ :
      (opened (Service.silent Unit)).phase = .appConnected ∧
      (opened (Service.silent Unit)).handshake.isDone = true ∧
      (opened (Service.silent Unit)).isBound = true ∧
      (opened (Service.silent Unit)).link.status = .live ∧
      (opened (Service.silent Unit)).intake.window = 0 ∧
      (opened (Service.silent Unit)).lastStream = 1 ∧
      (opened (Service.silent Unit)).streams = [1] ∧
      (opened (Service.silent Unit)).calls = [.connect "live" true, .createStream 1 true] := by
    decide +kernel
  have hasked : (opened (Service.silent Unit)).demux.parse Peer.createStream =
      ⟨(opened (Service.silent Unit)).demux, Peer.createStream.length, .packet asked⟩ := by
    decide +kernel
  exact ⟨⟨hphase, hshaken, hbound, hlive, hwindow, rfl⟩,
    .of_method hasked rfl rfl (by decide +kernel), hrecord⟩

end Connection

end LiveIngest
