import LiveIngest.Proofs.Connection.Creating
import LiveIngest.Proofs.Connection.Lifecycle

/-!
# Connections are coherent

A connection keeps its phase, its handshake, its application, its streams and its link apart, and a
handler may fail between the change of one and that of another. What they say of each other holds
all the same behind every operation (`Coherent`), whether it failed or not:

* streams and their application are told by the record of calls, that is by `Orderly`;
* `Serial` is the part about ids. It does not need them to be different, as `Numbered` does, and so
  it holds however many streams were asked for;
* `Attuned` is the part about phases. Only a peer that was accepted is welcomed, and only messages
  behind the handshake are acted upon; for this the invariant is carried through the parts of a
  slice, of which each is one of the handshake or one of messages;
* `Settled` is what finishing leaves.

Phases only go on as `Phase.canBecome` allows, which is told of whole runs by `Phase.Onward`.

Ids are 32 bits wide. As long as fewer than 2 ^ 32 streams were asked for, the live ones have ids
between 1 and the id that was given out last. Then ids come round, and this is lost.

Main statements:

* `coherent_run` — a connection is coherent behind every run, and goes on from there in phases that
  may follow;
* `ids_come_round` — a run behind which the id that was given out last is 0, and two streams live.
-/

namespace LiveIngest

open Handling

/-! ### Phases -/

namespace Phase

/-- `q` is reached from `p` in steps that may be made. -/
def Onward (p q : Phase) : Prop :=
  Relation.ReflTransGen (fun p q => p.canBecome q = true) p q

/-- A phase only advances. -/
theorem onward_advance (p next : Phase) : p.Onward (p.advance next) := by
  unfold advance
  split
  · rename_i hnext
    exact .single hnext
  · exact .refl

/-- What is closed stays closed. -/
theorem Onward.eq_closed {q : Phase} (h : closed.Onward q) : q = closed := by
  induction h with
  | refl => rfl
  | tail _ hnext ih =>
    rw [ih] at hnext
    exact absurd hnext Bool.false_ne_true

end Phase

/-- A link is closed unless it is live. -/
theorem Link.isClosed_iff {l : Link} : l.isClosed = true ↔ l.status ≠ .live :=
  decide_eq_true_iff

namespace Connection

section Phases

variable {σ : Type} {env : Environment σ} {c d : Connection σ}

/-- No move takes the phase back. -/
theorem Move.onward (h : Move env c d) : c.phase.Onward d.phase := by
  cases h with
  | stream h =>
    rw [h.phase]
    exact .refl
  | welcome | close => exact Phase.onward_advance _ _
  | _ => exact .refl

/-- Nothing that happens takes the phase back. -/
theorem Happens.onward (h : Happens env c d) : c.phase.Onward d.phase := by
  cases h with
  | use => exact .refl
  | step t h =>
    -- the handshake may be done with this, all else moves as the phases do
    cases h with
    | move h => exact h.onward
    | shake _ m reply =>
      rw [shaken_eq]
      dsimp only
      split
      · exact Phase.onward_advance _ _
      · exact .refl

/-- All streams are released with the link and the service. -/
theorem exists_foldl_release (env : Environment σ) {streams : List UInt32}
    (h : c.streams = streams) : ∃ link served,
    streams.foldl (release env) c = { c with link, served, streams := [] } := by
  induction streams generalizing c with
  | nil => exact ⟨c.link, c.served, congrArg (fun streams => { c with streams }) h⟩
  | cons stream rest ih =>
    obtain ⟨link, served, hrelease⟩ := exists_release env c stream
    have hleft : (c.release env stream).streams = rest := by
      rw [hrelease, h, List.erase_cons_head]
    obtain ⟨link, served, hrest⟩ := ih hleft
    refine ⟨link, served, ?_⟩
    rw [List.foldl_cons, hrest, hrelease]

/-- Leaving changes the link, the service's state and whether the connection is bound. -/
theorem exists_leave (env : Environment σ) (c : Connection σ) : ∃ link served,
    c.leave env = { c with link, served, isBound := false } := by
  unfold leave
  split
  · exact ⟨_, _, rfl⟩
  · rename_i hfree
    exact ⟨c.link, c.served, Bool.eq_false_iff.2 hfree ▸ rfl⟩

/-- **What finishing does**, besides what the link and the service are told. -/
theorem exists_finish (env : Environment σ) (h : c.phase ≠ .closed) : ∃ (link : Link) (served : σ),
    c.finish env = { c with
      link := link.close, served, streams := [], isBound := false, demux := .initial
      phase := c.phase.advance .closed } := by
  obtain ⟨link, served, hreleased⟩ := exists_foldl_release env (c := c) rfl
  obtain ⟨link, served, hleft⟩ := exists_leave env (c.streams.foldl (release env) c)
  unfold Connection.finish
  rw [if_neg h, hleft, hreleased]
  exact ⟨_, _, rfl⟩

/-- Finishing does not take the phase back. -/
theorem onward_finish (env : Environment σ) (c : Connection σ) :
    c.phase.Onward (c.finish env).phase := by
  by_cases h : c.phase = .closed
  · rw [finish_of_closed h]
    exact .refl
  · obtain ⟨link, served, hfinish⟩ := exists_finish env h
    rw [hfinish]
    exact Phase.onward_advance _ _

/-- No operation takes the phase back. -/
theorem onward_operate (env : Environment σ) (c : Connection σ) (o : Moment × Operation) :
    c.phase.Onward (c.operate env o).phase := by
  by_cases ho : o.2 = .finish
  · rw [operate_finish env c ho]
    exact onward_finish _ c
  · exact operate_induction (I := fun d => c.phase.Onward d.phase)
      (fun _ _ hc hd => hc.trans hd.onward) .refl ho

/-- **Phases go on** in steps that may be made. -/
theorem onward_run (env : Environment σ) (c : Connection σ) (ops : List (Moment × Operation)) :
    c.phase.Onward (c.run env ops).phase :=
  run_induction (I := fun d => c.phase.Onward d.phase)
    (fun d o hc => hc.trans (onward_operate env d o)) .refl ops

/-! ### Before the end -/

/-- The phase of a connection agrees with its handshake and its application. -/
structure Attuned (c : Connection σ) : Prop where
  /-- A connection that was finished may have been so in its handshake. -/
  shaken : c.phase ≠ .handshaking → c.phase ≠ .closed → c.handshake.isDone = true
  bound : c.phase = .appConnected → c.isBound = true

/-- The phase stays, and an application that was bound does. -/
theorem Attuned.congr (h : c.Attuned) (hphase : d.phase = c.phase)
    (hhandshake : d.handshake = c.handshake) (hbound : c.isBound = true → d.isBound = true) :
    d.Attuned where
  shaken := by
    rw [hphase, hhandshake]
    exact h.shaken
  bound := by
    rw [hphase]
    exact fun happ => hbound (h.bound happ)

/-- Behind the handshake, a move keeps the phase attuned. -/
theorem Attuned.move (h : c.Attuned) (hdone : c.handshake.isDone = true) (hd : Move env c d) :
    d.Attuned := by
  have hstill : d.handshake.isDone = true := hd.handshake ▸ hdone
  refine ⟨fun _ _ => hstill, fun happ => ?_⟩
  cases hd with
  | stream hd => exact hd.isBound.trans (h.bound (hd.phase.symm.trans happ))
  | obey | announce => exact h.bound happ
  | accept => rfl
  | reject => exact h.bound happ
  | welcome hbound => exact hbound
  | close hfree =>
    -- a step to closing does not lead to an application, and there was none
    have hphase : ∀ p : Phase, p.advance .closing = .appConnected → p = .appConnected := by
      intro p
      cases p <;> decide
    exact absurd (h.bound (hphase _ happ)) (Bool.eq_false_iff.1 hfree)

/-- Moves behind the handshake leave phase and handshake in tune. -/
theorem Attuned.moves (h : c.Attuned) (hdone : c.handshake.isDone = true)
    (hd : Relation.ReflTransGen (Move env) c d) : d.Attuned := by
  refine (chain_induction (I := fun e => e.handshake.isDone = true ∧ e.Attuned) ?_ ⟨hdone, h⟩
    hd).2
  rintro e e' ⟨hdone, h⟩ hmove
  exact ⟨hmove.handshake ▸ hdone, h.move hdone hmove⟩

/-- A part of the handshake, taken while it is not done. -/
theorem Attuned.shake (h : c.Attuned) (hopen : c.handshake.isDone = false)
    (m : Handshake.Machine) (reply : List UInt8) : (c.shaken m reply).Attuned := by
  -- otherwise the handshake were done already
  have hphase : c.phase = .handshaking ∨ c.phase = .closed := by
    by_contra hnot
    obtain ⟨hbehind, hkept⟩ := not_or.1 hnot
    exact absurd (h.shaken hbehind hkept) (Bool.eq_false_iff.1 hopen)
  rw [shaken_eq]
  cases hdone : m.isDone with
  | true =>
    refine ⟨fun _ _ => hdone, fun happ => ?_⟩
    obtain hphase | hphase := hphase <;> rw [hphase] at happ <;> exact nomatch happ
  | false =>
    refine ⟨fun hbehind hkept => ?_, fun happ => ?_⟩
    · exact absurd hphase (not_or.2 ⟨hbehind, hkept⟩)
    · exact h.bound happ

/-- **A part of a slice**, whether it fails or not. -/
theorem Attuned.take (h : c.Attuned) (slice : List UInt8) :
    (Connection.take env slice c).2.Attuned := by
  -- behind the handshake a part is chunks, up to its end it is handshake bytes
  cases hdone : c.handshake.isDone with
  | true =>
    rw [take_of_isDone hdone, ← takeChunks_apply]
    exact h.moves hdone (leads_takeChunks slice).1
  | false =>
    rw [take_of_not_isDone hdone, takeHandshake_apply]
    cases (c.handshake.parse env.crypto env.now.wall slice).fault with
    | none => exact h.shake hdone _ _
    | some f => exact h

/-- By induction on the parts of a slice, up to the one that fails. -/
theorem Attuned.takeAll (h : c.Attuned) (taken : Nat) (slice : List UInt8) :
    (takeAll env c taken slice).2.Attuned := by
  fun_induction Connection.takeAll env c taken slice with
  | case1 => exact h
  | case2 c taken slice hs n d htake hn =>
    have hpart := @Attuned.take _ env c h slice
    rw [htake] at hpart
    exact hpart
  | case3 c taken slice hs n d htake hn ih =>
    have hpart := @Attuned.take _ env c h slice
    rw [htake] at hpart
    exact ih hpart
  | case4 c taken slice hs f d htake =>
    have hpart := @Attuned.take _ env c h slice
    rw [htake] at hpart
    exact hpart

/-- Parsing keeps phase and handshake in tune. -/
theorem Attuned.parse (h : c.Attuned) (slice : List UInt8) : (c.parse env slice).2.Attuned := by
  obtain ⟨link, total, pending, -, hack⟩ := exists_acknowledge slice.length c
  have hcount : (acknowledge slice.length c).2.Attuned := by
    rw [hack]
    exact h.congr rfl rfl id
  unfold Connection.parse
  split
  · exact h
  -- the link may refuse the acknowledgement, and then nothing is taken
  · rcases hout : acknowledge slice.length c with ⟨f | _, d⟩ <;> rw [hout] at hcount
    · exact hcount
    · exact hcount.takeAll 0 slice

/-- Every operation keeps phase and handshake in tune. -/
theorem Attuned.operate (h : c.Attuned) (o : Moment × Operation) : (c.operate env o).Attuned := by
  unfold Connection.operate
  split
  · exact h.parse _
  · have hclosed := phase_finish (env.moved o.1) c
    exact ⟨fun _ hkept => absurd hclosed hkept, fun happ => nomatch happ.symm.trans hclosed⟩
  · exact h.congr rfl rfl id
  · exact h.congr rfl rfl id

/-! ### Behind the end -/

/-- What a connection is when it was finished. -/
structure Settled (c : Connection σ) : Prop where
  streams : c.streams = []
  free : c.isBound = false
  isClosed : c.link.isClosed = true
  /-- Nothing is left of what was received in part. -/
  demux : c.demux = .initial

/-- A connection that has finished has settled. -/
theorem settled_finish (env : Environment σ) (h : c.phase ≠ .closed) :
    (c.finish env).Settled := by
  obtain ⟨link, served, hfinish⟩ := exists_finish env h
  rw [hfinish]
  exact ⟨rfl, rfl, Link.isClosed_iff.2 (LinkStatus.close_ne_live _), rfl⟩

/-- Only the link may still change, and it does not become live. -/
theorem Settled.operate (h : c.Settled) (hphase : c.phase = .closed) (o : Moment × Operation) :
    (c.operate env o).Settled := by
  obtain ⟨link, hlink⟩ := operate_of_isEnding env (by rw [hphase]; rfl) fun _ => hphase
  have hlater := (later_operate env c o).status (Link.isClosed_iff.1 h.isClosed)
  rw [hlink] at hlater ⊢
  exact ⟨h.streams, h.free, Link.isClosed_iff.2 hlater, h.demux⟩

end Phases

variable {σ : Type} {env : Environment σ} {c d : Connection (σ × List Call)}

/-! ### Ids -/

/-- Ids are given out one after the other, and live streams have ids that were given out. -/
structure Serial (c : Connection (σ × List Call)) : Prop where
  last : c.lastStream = .ofNat (Call.requests c.calls).length
  live : ∀ stream ∈ c.streams, stream ∈ Call.ids (Call.requests c.calls).length

/-- No stream was asked for, and none is new. -/
theorem Serial.congr (h : c.Serial) (hrequests : Call.requests d.calls = Call.requests c.calls)
    (hlast : d.lastStream = c.lastStream) (hstreams : d.streams ⊆ c.streams) : d.Serial where
  last := by
    rw [hlast, hrequests]
    exact h.last
  live stream hlive := by
    rw [hrequests]
    exact h.live stream (hstreams hlive)

/-- A stream was asked for under the next id. -/
theorem Serial.ask (h : c.Serial) {created : Bool}
    (hcalls : d.calls = c.calls ++ [.createStream c.spend.lastStream created])
    (hlast : d.lastStream = c.spend.lastStream)
    (hstreams : d.streams ⊆ c.streams ++ [c.spend.lastStream]) : d.Serial := by
  have hcount : (Call.requests d.calls).length = (Call.requests c.calls).length + 1 := by
    rw [hcalls, Call.requests_append, List.length_append]
    rfl
  -- the ids are spent in a row, so the number of requests tells the next one
  have hnext : c.spend.lastStream = .ofNat ((Call.requests c.calls).length + 1) := by
    show c.lastStream + 1 = _
    rw [h.last, UInt32.ofNat_add]
    rfl
  refine ⟨by rw [hcount, hlast, hnext], fun stream hlive => ?_⟩
  rw [hcount, Call.ids_succ, ← hnext]
  exact List.mem_append.2 ((List.mem_append.1 (hstreams hlive)).imp_left (h.live stream))

/-- Ids are handed out in a row: a move of a stream takes the next one or drops one that was there.
-/
theorem Serial.streamMove (h : c.Serial) (hd : StreamMove env.recorded c d) : d.Serial := by
  -- telling a stream requests none
  have htold : ∀ {e : Connection (σ × List Call)} {stream : UInt32},
      e.calls = c.calls ++ [.onStream stream] → Call.requests e.calls = Call.requests c.calls :=
    fun hcalls => hcalls ▸ Call.requests_append_ordinary rfl c.calls
  cases hd with
  | send | reset => exact h.congr rfl rfl (List.Subset.refl _)
  | create => exact h.ask (calls_askStream env c) rfl (List.erase_sublist.append_right _).subset
  | refuse => exact h.ask (calls_askStream env c) rfl (List.subset_append_left _ _)
  | @release stream hlive =>
    refine h.congr ?_ (lastStream_release _ c stream) ?_
    · rw [calls_release, Call.requests_append]
      split <;> exact List.append_nil _
    · rw [streams_release]
      exact List.erase_subset
  | @command stream hlive command =>
    rcases calls_onCommand env c stream command with hcalls | hcalls
    · exact h.congr (congrArg Call.requests hcalls) rfl (List.Subset.refl _)
    · exact h.congr (htold hcalls) rfl (List.Subset.refl _)
  | @content stream hlive content =>
    exact h.congr (htold (calls_onContent env c stream content)) rfl (List.Subset.refl _)

/-- **Everything that may happen** keeps ids in order. -/
theorem Serial.happens (h : c.Serial) (hd : Happens env.recorded c d) : d.Serial := by
  cases hd with
  | use => exact h.congr rfl rfl (List.Subset.refl _)
  | step t hd =>
    have hmoved : env.recorded.moved t = (env.moved t).recorded := rfl
    rw [hmoved] at hd
    cases hd with
    | shake _ m reply =>
      rw [shaken_eq]
      exact h.congr rfl rfl (List.Subset.refl _)
    | move hd =>
      cases hd with
      | stream hd => exact h.streamMove hd
      | obey | announce | welcome | close => exact h.congr rfl rfl (List.Subset.refl _)
      | @accept _ application | @reject _ application =>
        -- the answer to a connect requests no stream
        have hcalls := calls_askApplication (env.moved t) c application
        have hsame := congrArg Call.requests hcalls
        rw [Call.requests_append_ordinary rfl] at hsame
        exact h.congr hsame rfl (List.Subset.refl _)

/-- Finishing asks for no stream, and leaves none. -/
theorem Serial.finish (h : c.Serial) (env : Environment σ) (hphase : c.phase ≠ .closed)
    (hfree : c.isBound = false → c.streams = []) : (c.finish env.recorded).Serial := by
  have hcalls := calls_finish env hphase hfree
  obtain ⟨link, served, hfinish⟩ := exists_finish env.recorded hphase
  refine h.congr ?_ ?_ ?_
  · rw [hcalls, Call.requests_append, (farewell_facts c).1, List.append_nil]
  · rw [hfinish]
  · rw [hfinish]
    exact List.nil_subset _

/-- Ids are counted from 1 as long as there are enough of them. -/
theorem Serial.bounds (h : c.Serial) (hfew : (Call.requests c.calls).length < 2 ^ 32)
    {stream : UInt32} (hlive : stream ∈ c.streams) : 1 ≤ stream ∧ stream ≤ c.lastStream := by
  obtain ⟨i, hi, rfl⟩ := List.mem_map.1 (h.live stream hlive)
  have hlt := List.mem_range.1 hi
  have hid : (UInt32.ofNat (i + 1)).toNat = i + 1 := Nat.mod_eq_of_lt (by omega)
  have hlast : c.lastStream.toNat = (Call.requests c.calls).length := by
    rw [h.last]
    exact Nat.mod_eq_of_lt hfew
  rw [UInt32.le_iff_toNat_le, UInt32.le_iff_toNat_le, hid, hlast]
  exact ⟨Nat.le_add_left 1 i, hlt⟩

/-! ### Coherent connections -/

/-- What the parts of a connection say of each other. -/
structure Coherent (c : Connection (σ × List Call)) : Prop where
  shaken : c.phase = .connected ∨ c.phase = .appConnected ∨ c.phase = .closing →
    c.handshake.isDone = true
  bound : c.phase = .appConnected → c.isBound = true
  streams : c.streams ≠ [] → c.isBound = true
  /-- The streams are among those that were asked for, and the last id is of the last of these. -/
  serial : c.Serial
  distinct : c.streams.Nodup
  closing : c.phase = .closing → c.link.isClosed = true
  closed : c.phase = .closed → c.Settled

/-- What is known of a connection of any run. -/
structure Known (id : Nat) (c : Connection (σ × List Call)) : Prop where
  recorded : c.Recorded id
  attuned : c.Attuned
  serial : c.Serial
  settled : c.phase = .closed → c.Settled

/-- What is known of a connection is kept by every operation: one that is closed takes none, and
only finishing closes one. -/
theorem Known.operate {id : Nat} (h : c.Known id) (o : Moment × Operation) :
    (c.operate env.recorded o).Known id := by
  suffices hparts : (c.operate env.recorded o).Serial ∧
      ((c.operate env.recorded o).phase = .closed → (c.operate env.recorded o).Settled) from
    ⟨h.recorded.operate env o, h.attuned.operate o, hparts.1, hparts.2⟩
  by_cases hphase : c.phase = .closed
  · obtain ⟨link, hlink⟩ := operate_of_isEnding env.recorded (by rw [hphase]; rfl) fun _ => hphase
    refine ⟨?_, fun _ => (h.settled hphase).operate hphase o⟩
    rw [hlink]
    exact h.serial.congr rfl rfl (List.Subset.refl _)
  · have horderly := h.recorded.2.resolve_right fun hend => hphase hend.1
    by_cases ho : o.2 = .finish
    · rw [operate_finish _ _ ho]
      exact ⟨h.serial.finish (env.moved o.1) hphase fun hfree => (horderly.free hfree).1,
        fun _ => settled_finish _ hphase⟩
    · -- no operation but finishing leads to the end
      have hunder : (c.operate env.recorded o).Underway :=
        operate_induction (fun _ _ hc hd => hc.happens hd) horderly.underway ho
      exact ⟨operate_induction (fun _ _ hc hd => hc.happens hd) h.serial ho,
        fun hclosed => absurd hclosed hunder.notClosed⟩

/-- **What is known makes a coherent connection**, whichever phase it is in. -/
theorem Known.coherent {id : Nat} (h : c.Known id) : c.Coherent := by
  have hshaken : c.phase = .connected ∨ c.phase = .appConnected ∨ c.phase = .closing →
      c.handshake.isDone = true := by
    rintro (hphase | hphase | hphase) <;>
      exact h.attuned.shaken (by rw [hphase]; decide) (by rw [hphase]; decide)
  -- a connection that is not closed has its calls in order; finishing has left no stream
  obtain horderly | ⟨hclosed, -⟩ := h.recorded.2
  · refine ⟨hshaken, h.attuned.bound, fun hsome => ?_, h.serial, horderly.distinct,
      fun hclosing => ?_, h.settled⟩
    · by_contra hfree
      exact hsome (horderly.free (Bool.eq_false_iff.2 hfree)).1
    · exact Link.isClosed_iff.2 fun hlive => horderly.underway.notClosing hlive hclosing
  · have hnone := (h.settled hclosed).streams
    refine ⟨hshaken, h.attuned.bound, fun hsome => absurd hnone hsome, h.serial, ?_,
      fun hclosing => ?_, h.settled⟩
    · rw [hnone]
      exact List.nodup_nil
    · exact nomatch hclosing.symm.trans hclosed

/-- A connection is known from its start. -/
theorem Known.initial (id : Nat) (terms : Terms) (s : σ) :
    (initial id terms (s, ([] : List Call))).Known id where
  recorded := ⟨rfl, Or.inl (.initial id terms s)⟩
  attuned := ⟨fun hnot => absurd rfl hnot, fun h => nomatch h⟩
  serial := ⟨rfl, fun _ hlive => absurd hlive List.not_mem_nil⟩
  settled h := nomatch h

/-- **Connections are coherent** behind every run, whatever its slices are and whether they fail,
and their phases only go on as they may; what is closed stays closed. The ids of the live streams are
between 1 and the one that was given out last, as long as fewer than 2 ^ 32 streams were asked
for. -/
theorem coherent_run (env : Environment σ) (id : Nat) (terms : Terms) (s : σ)
    (ops : List (Moment × Operation)) :
    let c := (initial id terms (s, [])).run env.recorded ops
    c.Coherent ∧
      ((Call.requests c.calls).length < 2 ^ 32 →
        ∀ stream ∈ c.streams, 1 ≤ stream ∧ stream ≤ c.lastStream) ∧
      ∀ later, c.phase.Onward (c.run env.recorded later).phase ∧
        (c.phase = .closed → (c.run env.recorded later).phase = .closed) := by
  intro c
  have hknown : c.Known id := run_induction (fun _ o h => h.operate o) (.initial id terms s) ops
  refine ⟨hknown.coherent, fun hfew _ hlive => hknown.serial.bounds hfew hlive, fun later => ?_⟩
  have honward := onward_run env.recorded c later
  refine ⟨honward, fun hclosed => ?_⟩
  rw [hclosed] at honward
  exact honward.eq_closed

/-- The holder of the link closes it before the peer asks for a stream: the service creates the
stream, and then the call fails, since the peer cannot be told. The connection is finished. -/
theorem coherent_run_failing :
    let env := Environment.still (Service.silent Unit)
    let ops : List (Moment × Operation) := [(⟨0, 0⟩, .parse Peer.hello),
      (⟨0, 0⟩, .parse Peer.connect), (⟨0, 0⟩, .act .close), (⟨0, 0⟩, .parse Peer.createStream)]
    let start : Connection (Unit × List Call) := initial 1 .standard ((), [])
    let c := start.run env.recorded ops
    let ended := start.run env.recorded (ops ++ [(⟨0, 0⟩, .finish)])
    start.answers env.recorded ops = [.ok 3073, .ok 47, .error (.linkClosed 1)] ∧
      c.phase = .appConnected ∧ c.streams = [1] ∧ c.isBound = true ∧
      (1 ≤ (1 : UInt32) ∧ 1 ≤ c.lastStream) ∧ ended.phase = .closed ∧ ended.Settled ∧
      (ended.run env.recorded ops).phase = .closed := by
  intro env ops start c ended
  obtain ⟨hc, hids, -⟩ := coherent_run env 1 .standard () ops
  obtain ⟨hended, -, hlater⟩ := coherent_run env 1 .standard () (ops ++ [(⟨0, 0⟩, .finish)])
  obtain ⟨hanswers, hphase, hstreams, hfew, hclosed⟩ :
      start.answers env.recorded ops = [.ok 3073, .ok 47, .error (.linkClosed 1)] ∧
      c.phase = .appConnected ∧ c.streams = [1] ∧ (Call.requests c.calls).length < 2 ^ 32 ∧
      ended.phase = .closed := by decide +kernel
  exact ⟨hanswers, hphase, hstreams, hc.bound hphase,
    hids hfew 1 (hstreams ▸ List.mem_singleton_self 1), hclosed, hended.closed hclosed,
    (hlater ops).2 hclosed⟩

/-- **Ids come round.** A peer asks for 2 ^ 32 streams, and the service grants them all. The last of
them has the id 0, which is not between 1 and the id that was given out last, and neither is that of
the first one. -/
theorem ids_come_round :
    let c := (initial 1 ⟨8, 100, 100, 2⟩ ((), [])).run
      (Environment.still (Service.silent Unit)).recorded (Peer.opening ++
        List.replicate (2 ^ 32 - 1) (⟨0, 0⟩, .parse Peer.createStream))
    c.phase = .appConnected ∧ 0 ∈ c.streams ∧ 1 ∈ c.streams ∧ c.lastStream = 0 := by
  obtain ⟨hready, hrequest, hlast, hstreams, -⟩ := ready_opened
  obtain ⟨hlater, hround, hkept, hids⟩ :=
    @Ready.run_replicate _ (Environment.still (Service.silent Unit)).recorded _ _ hready
      (grants_recorded_silent Unit) _ hrequest ⟨0, 0⟩ (2 ^ 32 - 1)
  have hzero : (1 : UInt32) + .ofNat (2 ^ 32 - 1) = 0 := by decide
  have hnew := hids (2 ^ 32 - 2) (by decide)
  rw [hlast] at hnew
  rw [hlast, hzero] at hround
  rw [run_append]
  exact ⟨hlater.phase, hzero ▸ hnew, hkept (hstreams ▸ List.mem_singleton_self 1), hround⟩

end Connection

end LiveIngest
