import LiveIngest.Connection.Input
import LiveIngest.Proofs.Bytes.Endian
import LiveIngest.Proofs.Chunk.Progress
import LiveIngest.Proofs.Chunk.Queues
import LiveIngest.Proofs.Connection.Handling
import LiveIngest.Proofs.Handshake.Bytewise
import LiveIngest.Proofs.Service.KeepsOpen

/-!
# Connections that differ in acknowledgements

Two connections are `Similar` if they are equal but for the acknowledgements that are queued and for
the counts that these come from. A connection acts on what it receives without looking at either, so
acting on the same keeps similar connections similar.

Similar connections are **standing**: the link is live unless the connection is closing. This is why
an acknowledgement can always be queued while input is taken, and it holds as long as the service
does not close the link.

Main statement: `respects_onPacket` — a packet is acted upon in the same way.
-/

namespace LiveIngest

open Handling

/-- The message acknowledges what was received. -/
def Packet.isAcknowledgement (p : Packet) : Bool :=
  p = .ofControl (.acknowledgement (.ofNat (Bytes.ofBigEndian p.payload)))

theorem Packet.isAcknowledgement_ofControl (total : UInt32) :
    (Packet.ofControl (.acknowledgement total)).isAcknowledgement = true := by
  have hpayload : (Packet.ofControl (.acknowledgement total)).payload =
      Bytes.bigEndian 4 total.toNat := rfl
  unfold isAcknowledgement
  rw [hpayload, Bytes.ofNat_ofBigEndian_bigEndian]
  exact decide_eq_true rfl

namespace Connection

variable {σ α : Type}

/-- The connection with other queues and other counts. -/
def masked (c : Connection σ) (mux : Chunk.Mux) (total pending : Nat) : Connection σ :=
  { c with link := { c.link with mux }, intake := { c.intake with total, pending } }

/-- The link is live unless the connection is closing. `P` is what holds of the receiving side. -/
structure Standing (P : Chunk.Demux → Prop) (c : Connection σ) : Prop where
  live : c.link.status = .live ∨ c.phase = .closing
  notClosed : c.phase ≠ .closed
  handshake : c.handshake.Sound
  demux : P c.demux

/-- Standing looks at no other fields. -/
theorem Standing.congr {P : Chunk.Demux → Prop} {c d : Connection σ} (h : c.Standing P)
    (hstatus : d.link.status = c.link.status) (hphase : d.phase = c.phase)
    (hshake : d.handshake = c.handshake) (hdemux : d.demux = c.demux) : d.Standing P where
  live := by
    rw [hstatus, hphase]
    exact h.live
  notClosed := by
    rw [hphase]
    exact h.notClosed
  handshake := by
    rw [hshake]
    exact h.handshake
  demux := by
    rw [hdemux]
    exact h.demux

/-- Equal but for the acknowledgements that are queued, and for the counts they come from. -/
def Similar (P : Chunk.Demux → Prop) (c c' : Connection σ) : Prop :=
  c.Standing P ∧ ∃ mux total pending,
    c.link.mux.Matches Packet.isAcknowledgement mux ∧ c' = c.masked mux total pending

variable {P : Chunk.Demux → Prop}

/-! ### Looking at a connection and changing it -/

/-- A part may look at everything that similar connections have in common. -/
theorem respects_look {f : Connection σ → Handling σ α}
    (hf : ∀ c mux total pending, f (c.masked mux total pending) = f c)
    (h : ∀ c, Respects (Similar P) (f c)) : Respects (Similar P) (get >>= f) := by
  refine .get_bind fun c c' hsim => ?_
  have hc' : f c' = f c := by
    obtain ⟨-, mux, total, pending, -, rfl⟩ := hsim
    exact hf c mux total pending
  rw [hc']
  exact h c hsim

/-- A change of what is no queue and no count. -/
theorem Similar.change {f : Connection σ → Connection σ} {c c' : Connection σ}
    (h : Similar P c c') (hmux : (f c).link.mux = c.link.mux)
    (hf : ∀ mux total pending, f (c.masked mux total pending) = (f c).masked mux total pending)
    (hstanding : c.Standing P → (f c).Standing P) : Similar P (f c) (f c') := by
  obtain ⟨hs, mux, total, pending, hmatches, rfl⟩ := h
  exact ⟨hstanding hs, mux, total, pending, hmux ▸ hmatches, hf mux total pending⟩

/-- A change that neither looks at what is masked nor touches it. -/
theorem respects_change {f : Connection σ → Connection σ} (hmux : ∀ c, (f c).link.mux = c.link.mux)
    (hf : ∀ c mux total pending, f (c.masked mux total pending) = (f c).masked mux total pending)
    (hstanding : ∀ c, c.Standing P → (f c).Standing P) :
    Respects (Similar P) (modify f : Handling σ PUnit) :=
  .modify fun c _ h => h.change (hmux c) (hf c) (hstanding c)

/-- Going on from a phase that is not the end. A connection that is closing stays closing. -/
theorem Standing.advance {c : Connection σ} (h : c.Standing P) {next : Phase}
    (hnext : next ≠ .closed) : (c.advance next).Standing P := by
  -- only the step to the end leads there
  have hopen : ∀ p : Phase, p ≠ .closed → p.advance next ≠ .closed := by
    intro p hp
    unfold Phase.advance
    split <;> assumption
  refine ⟨h.live.imp_right fun hclosing => ?_, hopen _ h.notClosed, h.handshake, h.demux⟩
  show c.phase.advance next = .closing
  rw [hclosing]
  cases next <;> first | rfl | exact absurd rfl hnext

/-! ### The link -/

/-- What an act does to the queues of a live link. -/
def queueAct (mux : Chunk.Mux) : Act → Chunk.Mux
  | .send p => mux.enqueue p
  | .reset streamId => (mux.reset streamId).1
  | .close => mux

/-- An act other than closing changes the queues of a live link, and nothing else. -/
theorem act_eq {a : Act} (ha : a ≠ .close) (l : Link) :
    l.act a = if l.status = .live then { l with mux := queueAct l.mux a } else l := by
  obtain ⟨id, mux, status⟩ := l
  cases status <;> cases a <;> first | rfl | exact absurd rfl ha

/-- An act queues the same on both sides. -/
theorem matches_queueAct {skip : Packet → Bool} {m m' : Chunk.Mux} (h : m.Matches skip m')
    (a : Act) : (queueAct m a).Matches skip (queueAct m' a) := by
  cases a with
  | send p => exact h.enqueue p
  | reset streamId => exact h.reset streamId
  | close => exact h

/-- Acts of a hook on two links that differ in their queues. -/
theorem foldl_act {skip : Packet → Bool} {acts : List Act} (hacts : Act.close ∉ acts) {l : Link}
    {mux : Chunk.Mux} (h : l.mux.Matches skip mux) :
    (acts.foldl Link.act l).status = l.status ∧
      ∃ mux', (acts.foldl Link.act l).mux.Matches skip mux' ∧
        acts.foldl Link.act { l with mux } = { acts.foldl Link.act l with mux := mux' } := by
  induction acts generalizing l mux with
  | nil => exact ⟨rfl, mux, h, rfl⟩
  | cons a rest ih =>
    have ha : a ≠ .close := fun he => hacts (he ▸ List.mem_cons_self)
    have hrest : Act.close ∉ rest := fun hmem => hacts (List.mem_cons_of_mem _ hmem)
    rw [List.foldl_cons, List.foldl_cons, act_eq ha, act_eq ha]
    dsimp only
    -- an act changes the queues of both links, or of neither
    by_cases hlive : l.status = .live
    · rw [if_pos hlive, if_pos hlive]
      exact ih hrest (matches_queueAct h a)
    · rw [if_neg hlive, if_neg hlive]
      exact ih hrest h

/-- **A hook** sees no difference between similar connections. -/
theorem Similar.call {c c' : Connection σ} (h : Similar P c c') (env : Environment σ)
    {hook : Hook σ α} (hopen : hook.KeepsOpen) :
    (c'.call env hook).1 = (c.call env hook).1 ∧
      Similar P (c.call env hook).2 (c'.call env hook).2 := by
  obtain ⟨hs, mux, total, pending, hmatches, rfl⟩ := h
  -- the view shows neither queues nor counts, so the hook answers and acts alike
  obtain ⟨hstatus, mux', hmatches', hlink⟩ :=
    foldl_act (hopen (c.link.view env.now) c.served) hmatches
  have hstanding : (c.call env hook).2.Standing P :=
    ⟨hs.live.imp_left hstatus.trans, hs.notClosed, hs.handshake, hs.demux⟩
  refine ⟨rfl, hstanding, mux', total, pending, hmatches', ?_⟩
  unfold Connection.call
  dsimp only
  exact congrArg (fun link => ({ c with
    served := (hook (c.link.view env.now) c.served).state
    link
    intake := { c.intake with total, pending } } : Connection σ)) hlink

/-- **A hook that leaves the link open** does the same on both sides. -/
theorem respects_calling (env : Environment σ) {hook : Hook σ α} (hopen : hook.KeepsOpen) :
    Respects (Similar P) (calling env hook) := by
  intro c c' h
  obtain ⟨hvalue, hsim⟩ := h.call env hopen
  exact ⟨congrArg Except.ok hvalue, hsim⟩

/-- What is sent is queued behind the same messages, but for acknowledgements. -/
theorem respects_send (p : Packet) : Respects (Similar P) (send p : Handling σ Unit) := by
  rintro c _ ⟨hs, mux, total, pending, hmatches, rfl⟩
  -- whether a message can be sent is seen from the status
  have hsame : (c.masked mux total pending).link.status.fault?
      (c.masked mux total pending).link.id = c.link.status.fault? c.link.id := rfl
  cases hfault : c.link.status.fault? c.link.id with
  | none =>
    rw [send_of_none hfault, send_of_none (hsame.trans hfault)]
    exact ⟨rfl, hs.congr rfl rfl rfl rfl, mux.enqueue p, total, pending,
      hmatches.enqueue p, rfl⟩
  | some f =>
    rw [send_of_some hfault, send_of_some (hsame.trans hfault)]
    exact ⟨rfl, hs, mux, total, pending, hmatches, rfl⟩

/-- A command is sent on both sides, or on neither. -/
theorem respects_sendCommand (env : Environment σ) (stream : UInt32) (command : Command) :
    Respects (Similar P) (sendCommand env stream command) := by
  unfold sendCommand
  split
  · exact respects_send _
  · exact .throw _

/-! ### Commands -/

section Commands

variable {env : Environment σ}

theorem respects_refuse (stream : UInt32) (call : Command) (code description : String) :
    Respects (Similar P) (refuse env stream call code description) :=
  respects_sendCommand env stream _

/-- The terms and the reply are the same on both sides. -/
theorem respects_welcome (call : Command) (objectEncoding : Binary64) :
    Respects (Similar P) (welcome env call objectEncoding) := by
  refine respects_look (fun _ _ _ _ => rfl) fun c => ?_
  refine (respects_send _).bind fun _ => (respects_send _).bind fun _ =>
    (respects_send _).bind fun _ => (respects_send _).bind fun _ =>
    (respects_sendCommand _ _ _).bind fun _ => (respects_send _).bind fun _ => ?_
  exact respects_change (fun _ => rfl) (fun _ _ _ _ => rfl) fun _ hs => hs.advance (by decide)

/-- The application is asked the same. -/
theorem respects_onConnect (henv : env.service.KeepsOpen) (call : Command) :
    Respects (Similar P) (onConnect env call) := by
  -- a bound connection refuses, and any other asks the service
  refine respects_look (fun _ _ _ _ => rfl) fun c => .ite (respects_refuse _ _ _ _) ?_
  refine Respects.bind ?_ fun _ => (respects_calling env (henv.connect _)).bind fun accepted => ?_
  · exact respects_change (fun _ => rfl) (fun _ _ _ _ => rfl)
      fun _ hs => hs.congr rfl rfl rfl rfl
  refine .ite (Respects.bind ?_ fun _ => respects_welcome _ _) ?_
  · exact respects_change (fun _ => rfl) (fun _ _ _ _ => rfl)
      fun _ hs => hs.congr rfl rfl rfl rfl
  · -- the link closes, and the connection is closing from then on
    refine (respects_refuse _ _ _ _).bind fun _ => ?_
    refine respects_change (fun _ => rfl) (fun _ _ _ _ => rfl) fun c hs => ?_
    have hclosing : c.phase.advance .closing = .closing := by
      cases hphase : c.phase with
      | closed => exact absurd hphase hs.notClosed
      | _ => rfl
    refine ⟨Or.inr hclosing, ?_, hs.handshake, hs.demux⟩
    show c.phase.advance .closing ≠ .closed
    rw [hclosing]
    decide

/-- The stream is created under the same id. -/
theorem respects_onCreateStream (henv : env.service.KeepsOpen) (call : Command) :
    Respects (Similar P) (onCreateStream env call) := by
  refine .get_bind ?_
  rintro c _ ⟨hs, mux, total, pending, hmatches, rfl⟩
  have hbound : (c.masked mux total pending).isBound = c.isBound := rfl
  rw [hbound]
  by_cases hc : c.isBound = true
  · rw [if_pos hc, if_pos hc]
    -- the id is spent even if the service refuses the stream
    have hspent : Similar P { c with lastStream := c.lastStream + 1 }
        { c.masked mux total pending with lastStream := c.lastStream + 1 } :=
      ⟨hs.congr rfl rfl rfl rfl, mux, total, pending, hmatches, rfl⟩
    refine Agree.bind ⟨rfl, hspent⟩ fun _ d d' hd => ?_
    refine ((respects_calling env (henv.createStream _ _ _)).bind fun created => .ite ?_ ?_) hd
    · refine Respects.bind ?_ fun _ => respects_sendCommand _ _ _
      exact respects_change (fun _ => rfl) (fun _ _ _ _ => rfl)
        fun _ hs => hs.congr rfl rfl rfl rfl
    · exact respects_refuse _ _ _ _
  · rw [if_neg hc, if_neg hc]
    exact respects_refuse _ _ _ _ ⟨hs, mux, total, pending, hmatches, rfl⟩

/-- Releasing a stream. -/
theorem Similar.release {c c' : Connection σ} (h : Similar P c c') (henv : env.service.KeepsOpen)
    (stream : UInt32) : Similar P (c.release env stream) (c'.release env stream) := by
  have hbound : c'.isBound = c.isBound := by
    obtain ⟨-, mux, total, pending, -, rfl⟩ := h
    rfl
  -- the service hears of it first
  have htold : Similar P
      (if c.isBound then (c.call env (env.service.deleteStream stream)).2 else c)
      (if c'.isBound then (c'.call env (env.service.deleteStream stream)).2 else c') := by
    rw [hbound]
    by_cases hc : c.isBound = true
    · rw [if_pos hc, if_pos hc]
      exact (h.call env (henv.deleteStream stream)).2
    · rw [if_neg hc, if_neg hc]
      exact h
  exact htold.change (f := fun c => { c with streams := c.streams.erase stream }) rfl
    (fun _ _ _ => rfl) fun hs => hs.congr rfl rfl rfl rfl

/-- The same messages are dropped, since acknowledgements belong to no stream. -/
theorem respects_onDeleteStream (henv : env.service.KeepsOpen) (call : Command) :
    Respects (Similar P) (onDeleteStream env call) := by
  refine respects_look (fun _ _ _ _ => rfl) fun c => .ite ?_ (.pure _)
  refine Respects.bind (.modify fun c c' h => h.release henv _) fun _ => .get_bind ?_
  rintro c _ ⟨hs, mux, total, pending, hmatches, rfl⟩
  unfold Link.reset Link.check
  dsimp only [masked]
  cases c.link.status.fault? c.link.id with
  | none =>
    -- what is queued for the stream is dropped on both sides
    refine respects_send _ ⟨hs.congr rfl rfl rfl rfl, _, total, pending,
      ?_, rfl⟩
    exact hmatches.reset _
  | some f => exact ⟨rfl, hs, mux, total, pending, hmatches, rfl⟩

/-- A command on a stream calls one hook at most. -/
theorem keepsOpen_onCommand {s : Service σ} (h : s.KeepsOpen) (stream : UInt32) (c : Command) :
    (s.onCommand stream c).KeepsOpen := by
  unfold Service.onCommand
  split
  · split
    · exact h.play _ _
    · exact .pure _
  · split
    · exact h.publish _ _
    · exact h.close _
  · exact h.seek _ _
  · split
    · exact h.resume _ _
    · exact h.pause _ _
  · exact h.close _
  · exact h.command _ _

/-- **Commands** do the same on both sides. -/
theorem respects_onCommand (henv : env.service.KeepsOpen) (stream : UInt32) (c : Command) :
    Respects (Similar P) (onCommand env stream c) := by
  unfold onCommand
  -- commands to the server, and those on a stream
  refine .ite ?_ ?_
  · split
    · exact respects_onConnect henv c
    · exact respects_onCreateStream henv c
    · exact respects_onCreateStream henv c
    · exact respects_onDeleteStream henv c
    · exact .pure _
    · exact .pure _
    · exact .pure _
    · exact respects_refuse _ _ _ _
  · refine respects_look (fun _ _ _ _ => rfl) fun _ => .ite ?_ (respects_refuse _ _ _ _)
    exact (respects_calling env (keepsOpen_onCommand henv stream c)).bind fun _ => .pure _

end Commands

/-! ### Packets -/

section Packets

variable {env : Environment σ}

/-- **Control messages** do so as well. The window is not masked. -/
theorem respects_onControl (control : Control) :
    Respects (Similar Chunk.Demux.Idle) (onControl env control) := by
  unfold onControl
  split
  · refine respects_change (fun _ => rfl) (fun _ _ _ _ => rfl) fun _ hs => ?_
    exact ⟨hs.live, hs.notClosed, hs.handshake, hs.demux.setChunkSize _⟩
  · refine respects_change (fun _ => rfl) (fun _ _ _ _ => rfl) fun _ hs => ?_
    exact ⟨hs.live, hs.notClosed, hs.handshake, hs.demux.abort _⟩
  · exact respects_change (fun _ => rfl) (fun _ _ _ _ => rfl)
      fun _ hs => hs.congr rfl rfl rfl rfl
  · exact respects_send _
  · exact respects_change (fun _ => rfl) (fun _ _ _ _ => rfl)
      fun _ hs => hs.congr rfl rfl rfl rfl
  · exact .pure _

/-- **Content** does so. -/
theorem respects_onContent (henv : env.service.KeepsOpen) (stream : UInt32)
    (content : MediaTag ⊕ Metadata) : Respects (Similar P) (onContent env stream content) := by
  -- whatever the content is, it goes to a hook that leaves the link open
  have hopen : (env.service.onContent stream content).KeepsOpen := by
    cases content with
    | inl tag => exact henv.media stream tag
    | inr values => exact henv.metadata stream values
  refine respects_look (fun _ _ _ _ => rfl) fun _ => .ite ?_ (.pure _)
  refine (respects_calling env hopen).bind fun answer => ?_
  cases answer with
  | ok _ => exact .pure _
  | error f => exact .throw _

theorem respects_dispatch (henv : env.service.KeepsOpen) (m : Message) :
    Respects (Similar Chunk.Demux.Idle) (dispatch env m) := by
  unfold dispatch
  split
  · exact respects_onControl _
  · exact respects_onCommand henv _ _
  · exact respects_onContent henv _ _
  · exact respects_onContent henv _ _

/-- A message that fails does so on both sides. -/
theorem respects_onLeaf (henv : env.service.KeepsOpen) (p : Packet) :
    Respects (Similar Chunk.Demux.Idle) (onLeaf env p) := by
  unfold onLeaf
  split
  · -- a fault that is not fatal is dropped, and what was done before it stays done
    refine (respects_dispatch henv _).tryCatch fun f => ?_
    exact .ite (.throw f) (.pure _)
  · exact .pure _

/-- **Acting on a packet.** -/
theorem respects_onPacket (henv : env.service.KeepsOpen) (p : Packet) :
    Respects (Similar Chunk.Demux.Idle) (onPacket env p) :=
  .forM (respects_onLeaf henv) p.leaves

end Packets

end Connection

end LiveIngest
