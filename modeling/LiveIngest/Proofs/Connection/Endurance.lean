import LiveIngest.Proofs.Chunk.Delivery
import LiveIngest.Proofs.Chunk.Orphans
import LiveIngest.Proofs.Connection.Runs

/-!
# What tears a connection down

A call of `parse` fails for two reasons on a live link, and both are in the framing of the input:
the first byte is not the version, or a chunk header is orphaned. The content of messages is never a
reason. Whatever a message is, and however deep it is nested, acting on it changes the receiving
side as the message says (`demux_onLeaf`) and fails only with what ends the connection, of which a
live link and a mild service are not to blame (`onPacket_of_live`).

Input that is at fault is called `Torn`. The invariant `Untorn bytes c` says what a connection is
like behind input that is not: what is left of the handshake is a matter of the number of bytes, and
behind it the receiving side has read the headers that the bytes complete.

Main statement: `answers_take_iff` — of the calls of a run that leaves the link live, the first ones
fail if and only if their input is torn.
-/

namespace LiveIngest

open Handling

variable {σ : Type}

/-- The hooks for media and metadata fail with nothing that ends a connection. -/
def Service.Mild (s : Service σ) : Prop :=
  ∀ f, s.Raises f → f.isFatal = false

/-! ### Chunk sizes and aborts -/

namespace Chunk.Demux

/-- Obeying a message keeps the chunk headers framed. -/
theorem Framed.obey {hs : List BasicHeader} {d : Demux} (h : Framed hs d) (hidle : d.Idle)
    (p : Packet) : Framed hs (d.obey p) := by
  unfold Demux.obey
  split
  · exact h.setChunkSize _
  · exact h.abort hidle _
  · exact h

/-- Only control messages are obeyed. -/
theorem obey_of_kind_ne {p : Packet} (h : p.kind ≠ .control) (d : Demux) : d.obey p = d := by
  -- what is obeyed is a control message by its type
  have hkind : ∀ control, Control.parse p.type p.payload = .ok control →
      control.type ≠ 1 ∧ control.type ≠ 2 := by
    intro control hparse
    rw [Control.type_of_parse hparse]
    refine ⟨fun htype => h ?_, fun htype => h ?_⟩
    all_goals
      unfold Packet.kind
      rw [htype]
      rfl
  unfold obey
  split
  · rename_i hparse
    exact absurd rfl (hkind _ hparse).1
  · rename_i hparse
    exact absurd rfl (hkind _ hparse).2
  · rfl

end Chunk.Demux

namespace Connection

variable {env : Environment σ} {c d : Connection σ}

/-- What a packet does to the receiving side. -/
def heed (p : Packet) (d : Chunk.Demux) : Chunk.Demux :=
  p.leaves.foldl (fun d q => d.obey q) d

/-! ### What a packet is -/

/-- A result behind a map comes from the value that was mapped. -/
theorem exists_of_map_bind {α β γ : Type} {x : Except Fault α} {f : α → β} {g : β → γ} {out : γ}
    (h : (x.map f >>= fun b => pure (g b)) = .ok out) : ∃ a, x = .ok a ∧ out = g (f a) := by
  cases x with
  | error e => cases h
  | ok a => exact ⟨a, rfl, (Except.ok.inj h).symm⟩

/-- A message that was interpreted is a control message, or its packet is of another kind. -/
theorem kind_of_ofPacket {p : Packet} {m : Message} (h : Message.ofPacket p = .ok m) :
    (∃ control, m.body = .control control ∧ Control.parse p.type p.payload = .ok control) ∨
      ((∀ control, m.body ≠ .control control) ∧ p.kind ≠ .control) := by
  unfold Message.ofPacket at h
  cases hkind : p.kind with
  | control =>
    rw [hkind] at h
    obtain ⟨control, hparse, rfl⟩ := exists_of_map_bind h
    exact Or.inl ⟨control, rfl, hparse⟩
  -- these have a kind of their own, so nothing is obeyed
  | audio | video | data | command =>
    rw [hkind] at h
    obtain ⟨content, -, rfl⟩ := exists_of_map_bind h
    exact Or.inr ⟨fun _ => MessageBody.noConfusion, MessageKind.noConfusion⟩
  | sharedObject | aggregate | unknown =>
    rw [hkind] at h
    cases h

/-! ### Messages -/

/-- A control message reaches the chunk reader by its chunk size or its abort only. -/
theorem demux_onControl (control : Control) (c : Connection σ) :
    (onControl env control c).2.demux =
      match control with
      | .setChunkSize size => c.demux.setChunkSize size.toNat
      | .abort chunkStream => c.demux.abort chunkStream
      | _ => c.demux := by
  cases control with
  | user event =>
    cases event with
    | pingRequest timestamp =>
      obtain ⟨link, -, hsent⟩ := exists_link_send c (.ofEvent (.pingResponse timestamp))
      exact congrArg (·.demux) hsent
    | _ => rfl
  | _ => rfl

/-- What is detached from the reader leaves it as it is. -/
theorem demux_of_detached (h : Relation.ReflTransGen (Detached env) c d) : d.demux = c.demux :=
  chain_induction (I := fun e => e.demux = c.demux) (fun _ _ ih hmove => hmove.2.trans ih) rfl h

/-- What cannot be interpreted is not obeyed. -/
theorem obey_of_ofPacket_error {p : Packet} {e : Fault} (h : Message.ofPacket p = .error e)
    (d : Chunk.Demux) : d.obey p = d := by
  -- a control message that is not parsed has no effect, and nothing else has one
  by_cases hkind : p.kind = .control
  · unfold Message.ofPacket at h
    rw [hkind] at h
    cases hparse : Control.parse p.type p.payload with
    | error e =>
      unfold Chunk.Demux.obey
      rw [hparse]
    | ok control =>
      dsimp only at h
      rw [hparse] at h
      cases h
  · exact Chunk.Demux.obey_of_kind_ne hkind d

/-- **Dispatching obeys**: a message does to the reader what its packet says. -/
theorem demux_dispatch {p : Packet} {m : Message} (h : Message.ofPacket p = .ok m)
    (c : Connection σ) : (dispatch env m c).2.demux = c.demux.obey p := by
  unfold dispatch
  -- control messages are the ones the reader obeys
  obtain ⟨control, hbody, hparse⟩ | ⟨hbody, hkind⟩ := kind_of_ofPacket h
  · rw [hbody]
    dsimp only
    rw [demux_onControl]
    unfold Chunk.Demux.obey
    rw [hparse]
    cases control <;> rfl
  · rw [Chunk.Demux.obey_of_kind_ne hkind]
    cases hcontent : m.body with
    | control control => exact absurd hcontent (hbody control)
    | command command => exact demux_of_detached (leads_onCommand m.streamId command).1
    | metadata values =>
      exact demux_of_detached (leads_detached (leads_onContent m.streamId (.inr values))).1
    | media tag =>
      exact demux_of_detached (leads_detached (leads_onContent m.streamId (.inl tag))).1

/-- **A message changes the receiving side** as it says, and no other way. -/
theorem demux_onLeaf (p : Packet) (c : Connection σ) :
    (onLeaf env p c).2.demux = c.demux.obey p := by
  unfold onLeaf
  cases hm : Message.ofPacket p with
  | error e => exact (obey_of_ofPacket_error hm c.demux).symm
  | ok m =>
    have hdispatch := @demux_dispatch σ env p m hm c
    -- handling a fault changes nothing
    dsimp only
    rw [tryCatch_apply]
    rcases hout : dispatch env m c with ⟨f | _, d⟩ <;> rw [hout] at hdispatch
    · dsimp only
      split <;> exact hdispatch
    · exact hdispatch

/-- Leaves are handled between chunks. -/
theorem idle_onLeaves {leaves : List Packet} (h : c.demux.Idle) :
    (leaves.forM (onLeaf env) c).2.demux.Idle := by
  induction leaves generalizing c with
  | nil => exact h
  | cons q rest ih =>
    have hleaf : (onLeaf env q c).2.demux.Idle := by
      rw [demux_onLeaf]
      exact Chunk.Demux.gentle_obey q _ h
    show ((onLeaf env q >>= fun _ => rest.forM (onLeaf env)) c).2.demux.Idle
    rw [bind_apply]
    -- a leaf that fails is the last one
    rcases hout : onLeaf env q c with ⟨f | _, d⟩ <;> rw [hout] at hleaf
    · exact hleaf
    · exact ih hleaf

/-- What the leaves do to the reader, one after the other. -/
theorem demux_onLeaves {leaves : List Packet} {u : PUnit}
    (h : leaves.forM (onLeaf env) c = (.ok u, d)) :
    d.demux = leaves.foldl (fun d q => d.obey q) c.demux := by
  induction leaves generalizing c with
  | nil =>
    cases h
    rfl
  | cons q rest ih =>
    have hleaf := @demux_onLeaf σ env q c
    have happly : (onLeaf env q >>= fun _ => rest.forM (onLeaf env)) c = (.ok u, d) := h
    rw [bind_apply] at happly
    rcases hout : onLeaf env q c with ⟨f | _, e⟩ <;> rw [hout] at hleaf happly
    · cases happly
    · rw [List.foldl_cons, ← hleaf]
      exact ih happly

/-- No move touches the handshake. -/
theorem handshake_of_moves (h : Relation.ReflTransGen (Move env) c d) :
    d.handshake = c.handshake :=
  chain_induction (I := fun e => e.handshake = c.handshake)
    (fun _ _ ih hmove => hmove.handshake.trans ih) rfl h

/-- **The content of a packet ends nothing.** A packet that leaves the link live is acted upon to
its end, and the receiving side heeds it. -/
theorem onPacket_of_live (hmild : env.service.Mild) {p : Packet}
    (hlive : (onPacket env p c).2.link.status = .live) :
    ∃ d, onPacket env p c = (.ok (), d) ∧ d.demux = heed p c.demux ∧
      d.handshake = c.handshake := by
  obtain ⟨hmoves, hends⟩ := @leads_onPacket σ env c p
  rcases hout : onPacket env p c with ⟨f | u, d⟩ <;> rw [hout] at hlive hmoves hends
  · -- neither the link nor the service is to blame
    obtain ⟨hfatal, hblamed⟩ := hends f rfl
    have hraises := (hblamed hfatal).resolve_left fun hnot => hnot hlive
    rw [hmild f hraises] at hfatal
    cases hfatal
  · exact ⟨d, rfl, demux_onLeaves hout, handshake_of_moves hmoves⟩

/-- Wherever a part of a slice leads, handshake and receiving side are sound. -/
theorem sound_take (hshake : c.handshake.Sound) (hdemux : c.demux.Sound) (slice : List UInt8) :
    (take env slice c).2.handshake.Sound ∧ (take env slice c).2.demux.Sound := by
  -- behind the handshake the chunk reader takes the bytes, before that it is not touched
  cases hdone : c.handshake.isDone with
  | true =>
    rw [take_of_isDone hdone]
    obtain ⟨hsound, -, hidle⟩ := hdemux.parse slice
    unfold onReading
    cases he : (c.demux.parse slice).event with
    | packet p =>
      let read : Connection σ := { c with demux := (c.demux.parse slice).demux }
      have hleaves : (onPacket env p read).2.demux.Idle := idle_onLeaves (hidle p he)
      have hsame := handshake_of_moves (@leads_onPacket σ env read p).1
      dsimp only
      rw [bind_apply]
      rcases hout : onPacket env p read with ⟨f | _, d⟩ <;> rw [hout] at hleaves hsame
      · exact ⟨hsame ▸ hshake, hleaves.1⟩
      · exact ⟨hsame ▸ hshake, hleaves.1⟩
    | _ => exact ⟨hshake, hsound⟩
  | false =>
    rw [take_of_not_isDone hdone, takeHandshake_apply]
    cases (c.handshake.parse env.crypto env.now.wall slice).fault with
    | some f => exact ⟨hshake, hdemux⟩
    | none =>
      have hnext := (@Handshake.Machine.Sound.parse env.crypto env.now.wall _ hshake slice).1
      dsimp only [Option.elim]
      rw [shaken_eq]
      exact ⟨hnext, hdemux⟩

/-! ### Torn input -/

/-- How many bytes a peer sends before the first chunk. -/
def handshakeLength : Nat :=
  1 + 2 * Handshake.packetSize

/-- Input is torn if it does not begin with the version, or if a chunk header behind the handshake
is orphaned. -/
def Torn (bytes : List UInt8) : Prop :=
  (∃ b, bytes.head? = some b ∧ b ≠ Handshake.version) ∨
    Chunk.Orphaned (Chunk.Demux.initial.headers heed (bytes.drop handshakeLength))

/-- Further bytes do not mend torn input. -/
theorem Torn.append {xs : List UInt8} (h : Torn xs) (ys : List UInt8) : Torn (xs ++ ys) := by
  rcases h with ⟨b, hhead, hb⟩ | horphaned
  · refine Or.inl ⟨b, ?_, hb⟩
    rw [List.head?_append, hhead]
    rfl
  · right
    rw [List.drop_append, Chunk.Demux.headers_append]
    exact horphaned.append _

/-- The connection is behind input that is not torn. -/
structure Untorn (bytes : List UInt8) (c : Connection σ) : Prop where
  sound : c.handshake.Sound
  left : c.handshake.left = handshakeLength - bytes.length
  fresh : bytes = [] → c.handshake.stage = .c0
  version : ∀ b, bytes.head? = some b → b = Handshake.version
  demux : c.demux = (bytes.drop handshakeLength).foldl (Chunk.Demux.follow heed) .initial
  framed : c.demux.Framed (Chunk.Demux.initial.headers heed (bytes.drop handshakeLength))

/-- A connection that has read nothing is untorn. -/
theorem Untorn.initial (id : Nat) (terms : Terms) (s : σ) : (initial id terms s).Untorn [] where
  sound := .initial
  left := rfl
  fresh := fun _ => rfl
  version := by exact nofun
  demux := rfl
  framed := .initial

/-- The bytes of an untorn connection are not torn. -/
theorem Untorn.not_torn {bytes : List UInt8} (h : c.Untorn bytes) : ¬ Torn bytes := by
  rintro (⟨b, hhead, hb⟩ | horphaned)
  · exact hb (h.version b hhead)
  · exact h.framed.notOrphaned horphaned

/-- Whether a connection is torn can be seen from its handshake and its reader. -/
theorem Untorn.congr {bytes : List UInt8} (h : c.Untorn bytes) (hshake : d.handshake = c.handshake)
    (hdemux : d.demux = c.demux) : d.Untorn bytes where
  sound := hshake ▸ h.sound
  left := hshake ▸ h.left
  fresh := hshake ▸ h.fresh
  version := h.version
  demux := hdemux.trans h.demux
  framed := hdemux ▸ h.framed

theorem framed_heed {hs : List Chunk.BasicHeader} {d : Chunk.Demux}
    (h : Chunk.Demux.Framed hs d) (hidle : d.Idle) (p : Packet) :
    Chunk.Demux.Framed hs (heed p d) := by
  unfold Connection.heed
  induction p.leaves generalizing d with
  | nil => exact h
  | cons q rest ih => exact ih (h.obey hidle q) (Chunk.Demux.gentle_obey q d hidle)

/-! ### Bytes -/

/-- What is done with the input `more` behind `bytes`: it fails and tears the input, or `n` bytes
are taken and the input stays untorn. -/
def Endures (bytes more : List UInt8) (n : Nat) (out : Outcome σ Nat) : Prop :=
  ((∃ f, out.1 = .error f) ∧ Torn (bytes ++ more)) ∨
    (out.1 = .ok n ∧ out.2.Untorn (bytes ++ more))

section Byte

variable {bytes : List UInt8} {b : UInt8}

/-- The connection behind one more byte. -/
theorem Untorn.next (h : c.Untorn bytes) (hsound : d.handshake.Sound)
    (hleft : d.handshake.left = c.handshake.left - 1)
    (hversion : bytes = [] → b = Handshake.version)
    (hdemux : d.demux =
      ((bytes ++ [b]).drop handshakeLength).foldl (Chunk.Demux.follow heed) .initial)
    (hframed : d.demux.Framed
      (Chunk.Demux.initial.headers heed ((bytes ++ [b]).drop handshakeLength))) :
    d.Untorn (bytes ++ [b]) where
  sound := hsound
  left := by
    rw [hleft, h.left, List.length_append, List.length_singleton]
    -- a byte more, and one less to come
    omega
  fresh := fun hnil =>
    absurd hnil (List.append_ne_nil_of_right_ne_nil bytes (List.cons_ne_nil b []))
  version := by
    intro first hhead
    cases hbytes : bytes with
    | nil =>
      rw [hbytes] at hhead
      rw [← Option.some.inj hhead]
      exact hversion hbytes
    | cons _ rest =>
      rw [hbytes] at hhead
      exact h.version first (by rw [hbytes]; exact hhead)
  demux := hdemux
  framed := hframed

/-- A byte of the handshake. -/
theorem Untorn.takeHandshake (h : c.Untorn bytes) (hdone : c.handshake.isDone = false)
    (b : UInt8) : Endures bytes [b] 1 (Connection.takeHandshake env [b] c) := by
  -- the handshake misses bytes, so there is no chunk yet
  have hmissing : bytes.length < handshakeLength := by
    have hleft : c.handshake.left ≠ 0 := by
      rw [Ne, h.sound.left_eq_zero_iff, hdone]
      exact Bool.false_ne_true
    rw [h.left] at hleft
    omega
  have hdrop : (bytes ++ [b]).drop handshakeLength = bytes.drop handshakeLength := by
    rw [List.drop_eq_nil_of_le (Nat.le_of_lt hmissing),
      List.drop_eq_nil_of_le (by rw [List.length_append]; exact hmissing)]
  cases hb : c.handshake.step env.crypto env.now.wall b with
  | error f =>
    obtain ⟨hstage, hversion⟩ := Handshake.Machine.step_eq_error hb
    -- at the beginning of the handshake nothing was received
    have hfirst : bytes = [] := by
      have hleft : c.handshake.left = handshakeLength := by
        unfold Handshake.Machine.left
        rw [hstage]
        rfl
      rw [h.left] at hleft
      exact List.eq_nil_of_length_eq_zero (by omega)
    rw [takeHandshake_apply, Handshake.Machine.parse_cons_error hb]
    exact Or.inl ⟨⟨f, rfl⟩, Or.inl ⟨b, by rw [hfirst]; rfl, hversion⟩⟩
  | ok out =>
    obtain ⟨m, reply⟩ := out
    have hsound := (Handshake.Machine.sound_of_step hb).1
    have hout : Connection.takeHandshake env [b] c = (.ok 1, c.shaken m (reply ++ [])) := by
      rw [takeHandshake_apply, Handshake.Machine.parse_cons_ok h.sound hdone hb,
        Handshake.Machine.parse_nil hsound]
      rfl
    rw [hout, shaken_eq]
    refine Or.inr ⟨rfl, h.next hsound (h.sound.left_of_step hdone hb) ?_ ?_ ?_⟩
    · exact fun hnil => Handshake.Machine.version_of_step (h.fresh hnil) hb
    · rw [hdrop]
      exact h.demux
    · rw [hdrop]
      exact h.framed

/-- Behind the handshake, the headers of the input are those that the receiving side reads. -/
theorem Untorn.headers_concat (h : c.Untorn bytes) (hdone : c.handshake.isDone = true) (b : UInt8) :
    handshakeLength ≤ bytes.length ∧
      (bytes ++ [b]).drop handshakeLength = bytes.drop handshakeLength ++ [b] ∧
      Chunk.Demux.initial.headers heed ((bytes ++ [b]).drop handshakeLength) =
        Chunk.Demux.initial.headers heed (bytes.drop handshakeLength) ++
          (c.demux.header? b).toList := by
  have hlength : handshakeLength ≤ bytes.length := by
    have hleft := h.sound.left_eq_zero_iff.2 hdone
    rw [h.left] at hleft
    omega
  have hdrop : (bytes ++ [b]).drop handshakeLength = bytes.drop handshakeLength ++ [b] :=
    List.drop_append_of_le_length hlength
  refine ⟨hlength, hdrop, ?_⟩
  rw [hdrop, Chunk.Demux.headers_append, ← h.demux, Chunk.Demux.headers_singleton]

/-- The connection behind a byte of a chunk that is not at fault. -/
theorem Untorn.nextChunk (h : c.Untorn bytes) (hdone : c.handshake.isDone = true)
    (hshake : d.handshake = c.handshake) (hdemux : d.demux = c.demux.follow heed b)
    (hframed : d.demux.Framed (Chunk.Demux.initial.headers heed (bytes.drop handshakeLength) ++
      (c.demux.header? b).toList)) : d.Untorn (bytes ++ [b]) := by
  obtain ⟨hlength, hdrop, hheaders⟩ := h.headers_concat hdone b
  refine h.next (hshake ▸ h.sound) ?_ ?_ ?_ (hheaders ▸ hframed)
  · rw [hshake, h.sound.left_eq_zero_iff.2 hdone]
  · intro hnil
    rw [hnil] at hlength
    exact absurd hlength (by decide)
  · rw [hdemux, hdrop, List.foldl_append, ← h.demux]
    rfl

/-- A byte of a chunk. -/
theorem Untorn.takeChunks (h : c.Untorn bytes) (hmild : env.service.Mild)
    (hdone : c.handshake.isDone = true) (b : UInt8)
    (hlive : (Connection.takeChunks env [b] c).2.link.status = .live) :
    Endures bytes [b] 1 (Connection.takeChunks env [b] c) := by
  have hsound := h.framed.sound
  have hstep := h.framed.step b
  have hstalled := hsound.step_ne_stalled b
  rw [takeChunks_apply, hsound.parse_singleton] at hlive ⊢
  rcases hb : c.demux.step b with ⟨d', event⟩
  rw [hb] at hlive hstep hstalled
  unfold onReading at hlive ⊢
  dsimp only [Chunk.Demux.Reading.of] at hlive ⊢
  cases event with
  | quiet =>
    have hframed := (hstep.resolve_left fun hfault => absurd hfault.1 (by exact nofun)).2
    have hfollow := Chunk.Demux.follow_of_quiet heed hb
    have hread : ({ c with demux := d' } : Connection σ).Untorn (bytes ++ [b]) :=
      h.nextChunk hdone rfl hfollow.symm hframed
    exact Or.inr ⟨rfl, hread⟩
  | packet p =>
    have hframed := (hstep.resolve_left fun hfault => absurd hfault.1 (by exact nofun)).2
    have hidle := hsound.idle_of_packet hb
    have hfollow := Chunk.Demux.follow_of_packet heed hb
    -- the packet is acted upon to its end
    have hacted : (onPacket env p { c with demux := d' }).2.link.status = .live := by
      dsimp only at hlive
      rw [bind_apply] at hlive
      rcases hout : onPacket env p { c with demux := d' } with ⟨_ | _, e⟩ <;> rw [hout] at hlive
      · exact hlive
      · exact hlive
    obtain ⟨e, hout, hdemux, hshake⟩ := onPacket_of_live hmild hacted
    have hheeded : e.demux.Framed (Chunk.Demux.initial.headers heed (bytes.drop handshakeLength) ++
        (c.demux.header? b).toList) := by
      rw [hdemux]
      exact framed_heed hframed hidle p
    dsimp only
    rw [bind_apply, hout]
    exact Or.inr ⟨rfl, h.nextChunk hdone hshake (hdemux.trans hfollow.symm) hheeded⟩
  | fault f =>
    obtain ⟨-, horphaned⟩ := hstep.resolve_right fun hok => absurd rfl (hok.1 f)
    rw [← (h.headers_concat hdone b).2.2] at horphaned
    exact Or.inl ⟨⟨f, rfl⟩, Or.inr horphaned⟩
  | stalled => exact absurd rfl hstalled

/-- **One more byte** tears the input and fails, or it is taken. -/
theorem Untorn.take (h : c.Untorn bytes) (hmild : env.service.Mild) (b : UInt8)
    (hlive : (Connection.take env [b] c).2.link.status = .live) :
    Endures bytes [b] 1 (Connection.take env [b] c) := by
  cases hdone : c.handshake.isDone with
  | true =>
    rw [take_of_isDone hdone, ← takeChunks_apply] at hlive ⊢
    exact h.takeChunks hmild hdone b hlive
  | false =>
    rw [take_of_not_isDone hdone]
    exact h.takeHandshake hdone b

end Byte

/-- Taking bytes moves the link forward only. -/
theorem later_takeBytes (env : Environment σ) (c : Connection σ) (n : Nat) (bytes : List UInt8) :
    c.link.Later (Connection.takeBytes env c n bytes).2.link := by
  induction bytes generalizing c n with
  | nil => exact .refl _
  | cons b rest ih =>
    rw [Connection.takeBytes]
    split
    · exact .refl _
    · have hfirst := later_of_steps (@leads_take σ env c [b]).1
      rcases hout : Connection.take env [b] c with ⟨f | k, d⟩ <;> rw [hout] at hfirst
      · exact hfirst
      · exact hfirst.trans (ih d (n + k))

/-- Bytes, one by one. -/
theorem Untorn.takeBytes {bytes : List UInt8} (h : c.Untorn bytes) (hunder : c.Underway)
    (hmild : env.service.Mild) (n : Nat) (more : List UInt8)
    (hlive : (Connection.takeBytes env c n more).2.link.status = .live) :
    Endures bytes more (n + more.length) (Connection.takeBytes env c n more) := by
  induction more generalizing bytes c n with
  | nil =>
    refine Or.inr ⟨rfl, ?_⟩
    rw [List.append_nil]
    exact h
  | cons b rest ih =>
    have hcons : bytes ++ b :: rest = (bytes ++ [b]) ++ rest := by
      rw [List.append_assoc]
      rfl
    have hbefore : c.link.status = .live := by
      by_contra hnot
      exact (later_takeBytes env c n (b :: rest)).status hnot hlive
    have hopen : c.phase ≠ .closing := hunder.notClosing hbefore
    have hnext := hunder.steps (@leads_take σ env c [b]).1
    have hfirst : (Connection.take env [b] c).2.link.status = .live →
        Endures bytes [b] 1 (Connection.take env [b] c) := h.take hmild b
    rw [Connection.takeBytes, if_neg hopen] at hlive ⊢
    -- the first byte fails, or it is taken and the others behind it
    rcases hout : Connection.take env [b] c with ⟨f | k, d⟩ <;> rw [hout] at hlive hnext hfirst
    · obtain ⟨-, htorn⟩ := (hfirst hlive).resolve_right fun hok => by cases hok.1
      exact Or.inl ⟨⟨f, rfl⟩, hcons ▸ htorn.append rest⟩
    · have hd : d.link.status = .live := by
        by_contra hnot
        exact (later_takeBytes env d (n + k) rest).status hnot hlive
      obtain ⟨hk, huntorn⟩ := (hfirst hd).resolve_left fun hfails => by
        obtain ⟨⟨f, hf⟩, -⟩ := hfails
        cases hf
      obtain rfl : k = 1 := Except.ok.inj hk
      have hrest := ih huntorn hnext (n + 1) hlive
      unfold Endures at hrest ⊢
      rw [hcons]
      rw [Nat.add_assoc, Nat.add_comm 1] at hrest
      exact hrest

/-! ### Slices -/

/-- A slice is taken as its bytes. -/
theorem Untorn.parse {bytes : List UInt8} (h : c.Untorn bytes) (hunder : c.Underway)
    (hmild : env.service.Mild) (hbefore : c.link.status = .live) (slice : List UInt8)
    (hlive : (c.parse env slice).2.link.status = .live) :
    Endures bytes slice slice.length (c.parse env slice) := by
  -- the count of the slice concerns neither handshake nor chunks
  have hcounting : (c.counting slice.length).Untorn bytes := h.congr rfl rfl
  have hunder' : (c.counting slice.length).Underway := hunder.congr rfl ⟨rfl, fun h => h⟩
  have hopen : (c.counting slice.length).phase ≠ .closing := hunder.notClosing hbefore
  have hbytes : c.parse env slice =
      Connection.takeBytes env (c.counting slice.length) 0 slice := by
    rw [hunder.parse_eq hbefore]
    exact takeAll_eq_takeBytes (fun _ hd => hd)
      (fun _ part hd => sound_take hd.1 hd.2 part) ⟨hcounting.sound, hcounting.framed.sound⟩
      hopen 0 slice
  rw [hbytes] at hlive ⊢
  have hall := hcounting.takeBytes hunder' hmild 0 slice hlive
  rwa [Nat.zero_add] at hall

/-! ### Runs -/

/-- The first calls fail if and only if their input is torn behind `bytes`; if it is not, they take
all of it. -/
def Answers (bytes : List UInt8) (slices : List (List UInt8)) (answers : List (Except Fault Nat)) :
    Prop :=
  ∀ k, ((∃ f, .error f ∈ answers.take k) ↔ Torn (bytes ++ (slices.take k).flatten)) ∧
    (¬ Torn (bytes ++ (slices.take k).flatten) →
      answers.take k = (slices.take k).map fun slice => .ok slice.length)

/-- Before the first slice, nothing failed. -/
theorem Answers.nil {bytes : List UInt8} (h : ¬ Torn bytes) : Answers bytes [] [] := by
  intro k
  rw [List.take_nil, List.take_nil, List.flatten_nil, List.append_nil]
  exact ⟨⟨fun ⟨_, hmem⟩ => absurd hmem List.not_mem_nil, fun htorn => absurd htorn h⟩, fun _ => rfl⟩

/-- A slice that tears the input fails. -/
theorem Answers.torn {bytes slice : List UInt8} (h : ¬ Torn bytes) (htorn : Torn (bytes ++ slice))
    (f : Fault) (slices : List (List UInt8)) (answers : List (Except Fault Nat)) :
    Answers bytes (slice :: slices) (.error f :: answers) := by
  intro k
  cases k with
  | zero => exact Answers.nil h 0
  | succ k =>
    have hall : Torn (bytes ++ (slice ++ (slices.take k).flatten)) := by
      rw [← List.append_assoc]
      exact htorn.append _
    refine ⟨⟨fun _ => hall, fun _ => ⟨f, List.mem_cons_self⟩⟩, fun hnot => absurd hall hnot⟩

/-- A slice that is taken. -/
theorem Answers.taken {bytes slice : List UInt8} (h : ¬ Torn bytes)
    {slices : List (List UInt8)} {answers : List (Except Fault Nat)}
    (hrest : Answers (bytes ++ slice) slices answers) :
    Answers bytes (slice :: slices) (.ok slice.length :: answers) := by
  intro k
  cases k with
  | zero => exact Answers.nil h 0
  | succ k =>
    obtain ⟨hiff, hok⟩ := hrest k
    rw [List.append_assoc] at hiff hok
    refine ⟨Iff.trans ?_ hiff, fun hnot => ?_⟩
    · -- what was taken is no fault
      refine exists_congr fun f => ⟨fun hmem => ?_, List.mem_cons_of_mem _⟩
      exact (List.mem_cons.1 hmem).resolve_left (by exact nofun)
    · rw [List.take_succ_cons, List.take_succ_cons, List.map_cons, hok hnot]

/-- **As long as the link is live, slices are answered** in step with the bytes. The induction is on
the operations, and the bytes of earlier slices are carried along. -/
theorem Untorn.answers {bytes : List UInt8} (h : c.Untorn bytes) (hunder : c.Underway)
    (hmild : env.service.Mild) {ops : List (Moment × Operation)}
    (hlive : (c.run env ops).link.status = .live) :
    Answers bytes (slices ops) (c.answers env ops) := by
  induction ops generalizing bytes c with
  | nil => exact .nil h.not_torn
  | cons o rest ih =>
    have hmid : (c.operate env o).link.status = .live := live_of_run rest hlive
    have hnext := hunder.operate hmid
    have hbefore := live_of_operate hmid
    have ho := ne_finish_of_live hunder hmid
    obtain ⟨t, o⟩ := o
    -- only a slice is answered; whatever else is done touches neither handshake nor reader
    cases o with
    | parse slice =>
      have hmild' : (env.moved t).service.Mild := hmild
      have hslice := h.parse hunder hmild' hbefore slice hmid
      show Answers bytes (slice :: slices rest)
        ((c.parse (env.moved t) slice).1 :: (c.operate env (t, .parse slice)).answers env rest)
      obtain ⟨⟨f, hf⟩, htorn⟩ | ⟨hok, huntorn⟩ := hslice
      · rw [hf]
        exact .torn h.not_torn htorn f _ _
      · rw [hok]
        exact .taken h.not_torn (ih huntorn hnext hlive)
    | finish => exact absurd rfl ho
    | act a => exact ih (h.congr rfl rfl) hnext hlive
    | serialize budget => exact ih (h.congr rfl rfl) hnext hlive

/-- **No message content tears a connection down.** Let a run of a mild service leave the link live,
so that nobody closed it, rejected the peer or finished the connection. For every number `k`, one of
the first `k` calls of `parse` fails if and only if their input does not begin with the version, or
completes an orphaned chunk header behind the handshake. If it does neither, each of these calls
takes its whole slice.

So the first call that fails is the one with the first byte, or the one with the byte that completes
the first orphaned header. -/
theorem answers_take_iff (env : Environment σ) (hmild : env.service.Mild) (id : Nat)
    (terms : Terms) (s : σ) {ops : List (Moment × Operation)}
    (hlive : ((initial id terms s).run env ops).link.status = .live) (k : Nat) :
    let input := ((slices ops).take k).flatten
    let answers := ((initial id terms s).answers env ops).take k
    ((∃ f, .error f ∈ answers) ↔ Torn input) ∧
      (¬ Torn input → answers = ((slices ops).take k).map fun slice => .ok slice.length) :=
  (Untorn.initial id terms s).answers (.initial id terms s) hmild hlive k

/-- A text that is cut off, a message of an unknown type, and behind both a header of format 1 on
chunk stream 5, which nothing opened. Only the last slice fails. -/
theorem answers_take_iff_orphan :
    let env : Environment Unit := ⟨.silent Unit, .seeded 0, ⟨0, 0⟩⟩
    let hello : List UInt8 := 3 :: List.replicate 3072 0
    let garbage : List UInt8 := [3, 0, 0, 0, 0, 0, 2, 20, 0, 0, 0, 0, 2, 0,
      3, 0, 0, 0, 0, 0, 1, 99, 0, 0, 0, 0, 7]
    let orphan : List UInt8 := [0x45, 0, 0, 0, 0, 0, 1, 20]
    let ops : List (Moment × Operation) :=
      [(⟨0, 0⟩, .parse hello), (⟨0, 0⟩, .parse garbage), (⟨0, 0⟩, .parse orphan)]
    env.service.Mild ∧ ((initial 1 .standard ()).run env ops).link.status = .live ∧
      (initial 1 .standard ()).answers env ops =
        [.ok 3073, .ok 27, .error (.orphanHeader 1 5)] ∧
      ¬ Torn (hello ++ garbage) ∧ Torn (hello ++ garbage ++ orphan) := by
  intro env hello garbage orphan ops
  -- the service raises no fault at all
  have hmild : env.service.Mild := by
    rintro f ⟨stream, _ | _, v, t, hraised⟩
    · cases hraised
    · cases hraised
  obtain ⟨hlive, hanswers⟩ : ((initial 1 .standard ()).run env ops).link.status = .live ∧
      (initial 1 .standard ()).answers env ops =
        [.ok 3073, .ok 27, .error (.orphanHeader 1 5)] := by
    decide +kernel
  have htwo : hello ++ garbage = ((slices ops).take 2).flatten := by decide +kernel
  have hall : hello ++ garbage ++ orphan = ((slices ops).take 3).flatten := by decide +kernel
  have hiff := fun k => (answers_take_iff env hmild 1 .standard () hlive k).1
  rw [hanswers] at hiff
  rw [hall, htwo]
  refine ⟨hmild, hlive, hanswers, fun htorn => ?_, ?_⟩
  · obtain ⟨f, hf⟩ := (hiff 2).2 htorn
    simp at hf
  · exact (hiff 3).1 ⟨.orphanHeader 1 5, by simp⟩

end Connection

end LiveIngest
