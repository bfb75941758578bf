import LiveIngest.Proofs.Connection.Lifecycle

/-!
# Connections that are closing

A peer that is rejected hears of it, and its connection is closing from then on: the link is closed,
and no further slice is taken. What is left of the packet that brought the rejection is still acted
upon. A connection that is **shut** (`Shut`) has neither streams nor an application, and nothing can
be queued on its link. Therefore all that such a packet can still do is to call for an application
once more; the service is asked, and the call fails with its answer, since the peer cannot be told.

Main statements:

* `onPackets_shut` — what the rest of a packet does to a connection that is shut;
* `rejects_of_closing` — the record of a slice that leads to closing, and of every run behind it;
* `two_calls_of_aggregate` — the service is asked twice if both calls are in one aggregate.
-/

namespace LiveIngest

open Handling

variable {σ α : Type}

namespace Connection

variable {env : Environment σ} {c d e : Connection (σ × List Call)}

/-! ### Going on -/

/-- From `c` to `d` nobody is rejected, and the connection goes on. -/
structure Goes (c d : Connection (σ × List Call)) : Prop where
  phase : d.phase.isEnding = false
  calls : ∃ made, d.calls = c.calls ++ made ∧ ∀ call ∈ made, call.isRejection = false

theorem Goes.of_calls_eq (hphase : d.phase.isEnding = false) (hcalls : d.calls = c.calls) :
    Goes c d :=
  ⟨hphase, [], hcalls.trans (List.append_nil _).symm, fun _ hmem => absurd hmem List.not_mem_nil⟩

/-- What goes on twice goes on. -/
theorem Goes.trans (h : Goes c d) (h' : Goes d e) : Goes c e := by
  obtain ⟨made, hcalls, hmade⟩ := h.calls
  obtain ⟨made', hcalls', hmade'⟩ := h'.calls
  refine ⟨h'.phase, made ++ made', ?_, ?_⟩
  · rw [hcalls', hcalls, List.append_assoc]
  · exact fun call hcall => (List.mem_append.1 hcall).elim (hmade call) (hmade' call)

/-- A step to a phase before the end does not lead to the end. -/
theorem isEnding_advance {p next : Phase} (hp : p.isEnding = false)
    (hnext : next.isEnding = false) : (p.advance next).isEnding = false := by
  unfold Phase.advance
  split
  · exact hnext
  · exact hp

/-- What has to do with streams asks for no application. -/
theorem Goes.streamMove (hc : c.phase.isEnding = false) (h : StreamMove env.recorded c d) :
    Goes c d := by
  obtain ⟨made, hcalls, hmade⟩ := h.exists_calls
  refine ⟨by rw [h.phase]; exact hc, made, hcalls, fun call hcall => ?_⟩
  have hstream := hmade call hcall
  cases call <;> first | rfl | exact absurd hstream Bool.false_ne_true

/-- However many such moves there are. -/
theorem goes_of_streamMoves (hc : c.phase.isEnding = false)
    (h : Relation.ReflTransGen (StreamMove env.recorded) c d) : Goes c d := by
  induction h with
  | refl => exact .of_calls_eq hc rfl
  | tail _ hmove ih => exact ih.trans (.streamMove ih.phase hmove)

/-- A peer that has an application is not rejected. -/
theorem goes_of_moves (hc : c.phase.isEnding = false) (hbound : c.isBound = true)
    (h : Relation.ReflTransGen (Move env.recorded) c d) : Goes c d ∧ d.isBound = true := by
  induction h with
  | refl => exact ⟨.of_calls_eq hc rfl, hbound⟩
  | tail _ hmove ih =>
    obtain ⟨hgoes, hbound⟩ := ih
    cases hmove with
    | stream hmove =>
      exact ⟨hgoes.trans (.streamMove hgoes.phase hmove), hmove.isBound.trans hbound⟩
    | obey => exact ⟨hgoes.trans (.of_calls_eq hgoes.phase rfl), hbound⟩
    | welcome => exact ⟨hgoes.trans (.of_calls_eq (isEnding_advance hgoes.phase rfl) rfl), hbound⟩
    -- these need a connection without an application
    | announce hfree | accept hfree | reject hfree | close hfree =>
      exact absurd (hfree.symm.trans hbound) (by decide)

/-! ### Connections that are shut -/

/-- The connection is closing, and nothing is left that could be called or sent. -/
structure Shut (c : Connection σ) : Prop where
  phase : c.phase = .closing
  link : c.link.status ≠ .live
  free : c.isBound = false
  streams : c.streams = []

/-- On a connection that was shut there is no stream, and nothing can be sent for one. -/
theorem Shut.streamMove {env : Environment σ} {c d : Connection σ} (h : c.Shut)
    (hmove : StreamMove env c d) : False := by
  have hnone : ∀ stream, stream ∉ c.streams := by
    rw [h.streams]
    exact fun _ => List.not_mem_nil
  cases hmove with
  | send hlive | reset hlive => exact h.link hlive
  | create hbound | refuse hbound => exact absurd (h.free.symm.trans hbound) (by decide)
  | release hlive | command hlive | content hlive => exact hnone _ hlive

/-- **Streams are gone for good**: no part that has to do with them does anything. -/
theorem Shut.stay {env : Environment σ} {c : Connection σ} {F : Fault → Connection σ → Prop}
    {x : Handling σ α} (h : c.Shut) (hx : Leads (StreamMove env) F c x) : (x c).2 = c := by
  obtain heq | ⟨d, hmove, -⟩ := Relation.ReflTransGen.cases_head hx.1
  · exact heq.symm
  · exact absurd (h.streamMove hmove) id

/-- The service was asked for an application once more. -/
def Asked (c d : Connection (σ × List Call)) : Prop :=
  ∃ application accepted, d.calls = c.calls ++ [.connect application accepted]

/-- What is acted upon while the connection is shut changes nothing that matters here, or it was a
call for an application, and fails with what ends the connection. -/
def Quiet (c : Connection (σ × List Call)) (out : Outcome (σ × List Call) Unit) : Prop :=
  out.2.Shut ∧ out.2.calls = c.calls ∨
    out.2.phase = .closing ∧ Asked c out.2 ∧ ∃ f, out.1 = .error f ∧ f.isFatal = true

/-- The fault of a link that is not live ends the connection. -/
theorem exists_fault_of_not_live {l : Link} (h : l.status ≠ .live) :
    ∃ f, l.status.fault? l.id = some f ∧ f.isFatal = true := by
  cases hstatus : l.status with
  | live => exact absurd hstatus h
  | closed | gone => exact ⟨_, rfl, rfl⟩

/-- The reply to a peer that is rejected can be written, so only the link can refuse it. -/
theorem reject_apply {σ : Type} (env : Environment σ) (call : Command) : ∃ p,
    refuse env 0 call "NetConnection.Connect.Rejected" "Connection rejected" = send p := by
  obtain ⟨p, hp⟩ : ∃ p, Packet.ofCommand env.now.stamp 0 (.error call.transaction .null
      (Command.statusObject "error" "NetConnection.Connect.Rejected" "Connection rejected")) =
        .ok p := ⟨_, rfl⟩
  refine ⟨p, ?_⟩
  unfold refuse sendCommand
  rw [hp]

theorem welcome_of_some {σ : Type} {env : Environment σ} {c : Connection σ} {f : Fault}
    (h : c.link.status.fault? c.link.id = some f) (call : Command) (objectEncoding : Binary64) :
    welcome env call objectEncoding c = (.error f, c) := by
  unfold welcome
  rw [bind_apply, get_apply]
  dsimp only
  rw [bind_apply, send_of_some h]

/-- A call for an application where none is bound: the service is asked, and then the peer is told.
What the service is asked in is told here by what it leaves alone. -/
theorem exists_asked (env : Environment σ) (hfree : c.isBound = false) (call : Command) :
    ∃ (asked : Connection (σ × List Call)) (objectEncoding : Binary64) (application : String)
      (accepted : Bool), asked.calls = c.calls ++ [.connect application accepted] ∧
        c.link.Later asked.link ∧ asked.phase = c.phase ∧ asked.isBound = c.isBound ∧
        asked.streams = c.streams ∧
        onConnect env.recorded call c =
          if accepted = true then
            welcome env.recorded call objectEncoding { asked with isBound := true, application }
          else
            (refuse env.recorded 0 call "NetConnection.Connect.Rejected" "Connection rejected" >>=
              fun _ => modify fun c => { c with link := c.link.close }.advance .closing) asked := by
  obtain ⟨d, objectEncoding, application, ⟨audioCodecs, videoCodecs, rfl⟩, happly⟩ :=
    onConnect_of_free env.recorded hfree call
  have hcalls := calls_askApplication env { c with audioCodecs, videoCodecs } application
  have hlater := later_call env.recorded (env.recorded.service.connect application)
    { c with audioCodecs, videoCodecs }
  exact ⟨_, objectEncoding, application, _, hcalls, hlater, rfl, rfl, rfl, happly⟩

/-- A call for an application is put to the service, but the peer cannot be told the answer. -/
theorem Shut.onConnect (h : c.Shut) (env : Environment σ) (call : Command) :
    Quiet c (onConnect env.recorded call c) := by
  obtain ⟨asked, objectEncoding, application, accepted, hcalls, hlater, hphase, -, -, happly⟩ :=
    exists_asked env h.free call
  obtain ⟨f, hfault, hfatal⟩ := exists_fault_of_not_live (hlater.status h.link)
  have hclosing : asked.phase = .closing := hphase.trans h.phase
  -- whatever the service answers, the link refuses to tell the peer
  refine Or.inr ?_
  rw [happly]
  cases accepted with
  | true =>
    rw [if_pos rfl, welcome_of_some (c := { asked with isBound := true, application }) hfault]
    exact ⟨hclosing, ⟨application, true, hcalls⟩, f, rfl, hfatal⟩
  | false =>
    obtain ⟨p, hp⟩ := reject_apply env.recorded call
    rw [if_neg Bool.false_ne_true, hp, bind_apply, send_of_some hfault]
    exact ⟨hclosing, ⟨application, false, hcalls⟩, f, rfl, hfatal⟩

/-- **Control messages** on a connection that was shut change nothing that is heard of. -/
theorem Shut.onControl (h : c.Shut) (env : Environment σ) (control : Control) :
    Quiet c (onControl env.recorded control c) := by
  unfold Connection.onControl
  split
  · exact Or.inl ⟨⟨h.phase, h.link, h.free, h.streams⟩, rfl⟩
  · exact Or.inl ⟨⟨h.phase, h.link, h.free, h.streams⟩, rfl⟩
  · exact Or.inl ⟨⟨h.phase, h.link, h.free, h.streams⟩, rfl⟩
  -- an answer to a ping is refused by the closed link
  · rename_i timestamp
    have hsends : Leads (StreamMove env.recorded) (Blamed env.recorded) c
        (send (.ofEvent (.pingResponse timestamp))) := leads_sendControl (by exact nofun)
    have hstay := h.stay hsends
    unfold Quiet
    rw [hstay]
    exact Or.inl ⟨h, rfl⟩
  · exact Or.inl ⟨⟨h.phase, h.link, h.free, h.streams⟩, rfl⟩
  · exact Or.inl ⟨h, rfl⟩

/-- Nor does any other message, but for a second call for an application. -/
theorem Shut.dispatch (h : c.Shut) (env : Environment σ) (m : Message) :
    Quiet c (dispatch env.recorded m c) := by
  -- streams are gone, so what has to do with them changes nothing
  have hquiet : ∀ x : Handling (σ × List Call) Unit,
      Leads (StreamMove env.recorded) (Blamed env.recorded) c x → Quiet c (x c) := by
    intro x hx
    unfold Quiet
    rw [h.stay hx]
    exact Or.inl ⟨h, rfl⟩
  unfold Connection.dispatch
  cases m.body with
  | control control => exact h.onControl env control
  | command command =>
    by_cases hcall : callsApplication m.streamId command
    · dsimp only
      rw [onCommand_of_callsApplication hcall]
      exact h.onConnect env command
    · exact hquiet _ (leads_onCommand_stream hcall)
  | metadata values => exact hquiet _ (leads_onContent _ _)
  | media tag => exact hquiet _ (leads_onContent _ _)

/-- Nor does a message that cannot be read. -/
theorem Shut.onLeaf (h : c.Shut) (env : Environment σ) (p : Packet) :
    Quiet c (onLeaf env.recorded p c) := by
  unfold Connection.onLeaf
  cases Message.ofPacket p with
  | error _ => exact Or.inl ⟨h, rfl⟩
  | ok m =>
    have hquiet := h.dispatch env m
    dsimp only
    rw [tryCatch_apply]
    rcases hout : Connection.dispatch env.recorded m c with ⟨f | _, d⟩ <;> rw [hout] at hquiet
    · rcases hquiet with hsame | ⟨hphase, hasked, f', hf', hfatal⟩
      · -- the fault may be dropped, and nothing was done before it
        dsimp only
        split
        · exact Or.inl hsame
        · exact Or.inl hsame
      · obtain rfl : f = f' := Except.error.inj hf'
        dsimp only
        rw [if_pos hfatal]
        exact Or.inr ⟨hphase, hasked, f, rfl, hfatal⟩
    · exact hquiet

/-- **The rest of a packet.** At most one more call is made, and then the packet fails. -/
theorem onPackets_shut (h : c.Shut) (env : Environment σ) (ps : List Packet) :
    Quiet c (ps.forM (onLeaf env.recorded) c) := by
  induction ps generalizing c with
  | nil => exact Or.inl ⟨h, rfl⟩
  | cons p rest ih =>
    -- the first leaf ends them all with a fault, or it leaves the connection shut
    have hquiet := h.onLeaf env p
    show Quiet c ((Connection.onLeaf env.recorded p >>= fun _ =>
      rest.forM (Connection.onLeaf env.recorded)) c)
    rw [bind_apply]
    rcases hout : Connection.onLeaf env.recorded p c with ⟨f | _, d⟩ <;> rw [hout] at hquiet
    · exact hquiet
    · rcases hquiet with ⟨hshut, hcalls⟩ | ⟨-, -, f, hf, -⟩
      · have hrest := ih hshut
        unfold Quiet Asked at hrest ⊢
        rw [hcalls] at hrest
        exact hrest
      · cases hf

/-! ### Packets and slices -/

/-- The connection goes on, and unless a fault ends it, nobody was rejected. -/
def GoesOn (c : Connection (σ × List Call)) (out : Outcome (σ × List Call) α) : Prop :=
  out.2.phase.isEnding = false ∧ ((∀ f, out.1 = .error f → f.isFatal = false) → Goes c out.2)

theorem Goes.goesOn {out : Outcome (σ × List Call) α} (h : Goes c out.2) : GoesOn c out :=
  ⟨h.phase, fun _ => h⟩

/-- A peer is rejected, and is told so. -/
def TurnsAway (c : Connection (σ × List Call)) (out : Outcome (σ × List Call) Unit) : Prop :=
  out.1 = .ok () ∧ out.2.Shut ∧ ∃ application, out.2.calls = c.calls ++ [.connect application false]

/-- **A call for an application** is what may turn the peer away: the service rejects it, and the
link is closed. -/
theorem turnsAway_onConnect (hc : c.phase.isEnding = false) (hcalm : c.Orderly)
    (env : Environment σ) (call : Command) :
    GoesOn c (onConnect env.recorded call c) ∨ TurnsAway c (onConnect env.recorded call c) := by
  cases hbound : c.isBound with
  | true => exact Or.inl (goes_of_moves hc hbound (leads_moves (leads_onConnect call)).1).1.goesOn
  | false =>
    obtain ⟨asked, objectEncoding, application, accepted, hcalls, hlater, hphase, hsame, hstreams,
      happly⟩ := exists_asked env hbound call
    have hopen : asked.phase.isEnding = false := by
      rw [hphase]
      exact hc
    rw [happly]
    cases accepted with
    | true =>
      have hasked : Goes c { asked with isBound := true, application } :=
        ⟨hopen, [.connect application true], hcalls, fun _ hcall =>
          List.mem_singleton.1 hcall ▸ rfl⟩
      have hwelcome := (leads_moves (@leads_welcome _ env.recorded
        { asked with isBound := true, application } rfl call objectEncoding)).1
      rw [if_pos rfl]
      exact Or.inl (hasked.trans (goes_of_moves hasked.phase rfl hwelcome).1).goesOn
    | false =>
      obtain ⟨p, hp⟩ := reject_apply env.recorded call
      rw [if_neg Bool.false_ne_true, hp, bind_apply]
      -- the service may have closed the link while it was asked; then the peer is not told
      by_cases hlive : asked.link.status = .live
      · have hfault : asked.link.status.fault? asked.link.id = none := by
          rw [hlive]
          rfl
        have hclosing : asked.phase.advance .closing = .closing := by
          cases hp : asked.phase with
          | closed =>
            rw [hp] at hopen
            exact absurd hopen (by decide)
          | _ => rfl
        rw [send_of_none hfault]
        refine Or.inr ⟨rfl, ⟨hclosing, asked.link.status.close_ne_live, ?_, ?_⟩, application, hcalls⟩
        · exact hsame.trans hbound
        · exact hstreams.trans (hcalm.free hbound).1
      · obtain ⟨f, hfault, hfatal⟩ := exists_fault_of_not_live hlive
        rw [send_of_some hfault]
        refine Or.inl ⟨hopen, fun hnot => ?_⟩
        exact absurd (hfatal.symm.trans (hnot f rfl)) (by decide)

/-- No other message does so. -/
theorem turnsAway_dispatch (hc : c.phase.isEnding = false) (hcalm : c.Orderly)
    (env : Environment σ) (m : Message) :
    GoesOn c (dispatch env.recorded m c) ∨ TurnsAway c (dispatch env.recorded m c) := by
  -- what reaches streams only cannot close the connection
  have hstream : ∀ x : Handling (σ × List Call) Unit,
      Leads (StreamMove env.recorded) (Blamed env.recorded) c x → GoesOn c (x c) :=
    fun x hx => (goes_of_streamMoves hc hx.1).goesOn
  unfold Connection.dispatch
  cases m.body with
  | control control =>
    have hsame : ∀ out : Outcome (σ × List Call) Unit, out.2.phase = c.phase →
        out.2.calls = c.calls → GoesOn c out :=
      fun out hphase hcalls => (Goes.of_calls_eq (hphase ▸ hc) hcalls).goesOn
    refine Or.inl ?_
    dsimp only
    unfold Connection.onControl
    split
    · exact hsame _ rfl rfl
    · exact hsame _ rfl rfl
    · exact hsame _ rfl rfl
    · exact hstream _ (leads_sendControl (by exact nofun))
    · exact hsame _ rfl rfl
    · exact hsame _ rfl rfl
  | command command =>
    -- only a connect may turn the peer away
    by_cases hcall : callsApplication m.streamId command
    · dsimp only
      rw [onCommand_of_callsApplication hcall]
      exact turnsAway_onConnect hc hcalm env command
    · exact Or.inl (hstream _ (leads_onCommand_stream hcall))
  | metadata values => exact Or.inl (hstream _ (leads_onContent _ _))
  | media tag => exact Or.inl (hstream _ (leads_onContent _ _))

/-- A message that fails goes on, if its fault is not fatal. -/
theorem turnsAway_onLeaf (hc : c.phase.isEnding = false) (hcalm : c.Orderly)
    (env : Environment σ) (p : Packet) :
    GoesOn c (onLeaf env.recorded p c) ∨ TurnsAway c (onLeaf env.recorded p c) := by
  unfold Connection.onLeaf
  cases Message.ofPacket p with
  | error _ => exact Or.inl (Goes.of_calls_eq hc rfl).goesOn
  | ok m =>
    have hacted := turnsAway_dispatch hc hcalm env m
    dsimp only
    rw [tryCatch_apply]
    rcases hout : Connection.dispatch env.recorded m c with ⟨f | _, d⟩ <;> rw [hout] at hacted
    · obtain ⟨hopen, hgoes⟩ | ⟨hok, -⟩ := hacted
      · refine Or.inl ?_
        dsimp only
        split
        · exact ⟨hopen, hgoes⟩
        · -- a fault that is not fatal is dropped, and the connection goes on
          rename_i hfatal
          have hnot : ∀ f', Except.error f = (.error f' : Except Fault Unit) → f'.isFatal = false :=
            fun f' hf' => Except.error.inj hf' ▸ Bool.eq_false_iff.2 hfatal
          exact ⟨hopen, fun _ => hgoes hnot⟩
      · cases hok
    · exact hacted

/-- A peer is rejected in between, and the connection is closing afterwards. Behind the rejection
there is at most one more call, and then what was done fails with what ends the connection. -/
structure Rejects (c : Connection (σ × List Call)) (out : Outcome (σ × List Call) α) : Prop where
  phase : out.2.phase = .closing
  calls : ∃ made application extra,
    out.2.calls = c.calls ++ made ++ .connect application false :: extra ∧
      (∀ call ∈ made, call.isRejection = false) ∧
      (extra = [] ∨ (∃ application accepted, extra = [.connect application accepted]) ∧
        ∃ f, out.1 = .error f ∧ f.isFatal = true)

theorem Goes.rejects (h : Goes c d) {out : Outcome (σ × List Call) α} (hout : Rejects d out) :
    Rejects c out := by
  obtain ⟨before, hbefore, hnone⟩ := h.calls
  obtain ⟨hphase, made, application, extra, hcalls, hmade, hextra⟩ := hout
  refine ⟨hphase, before ++ made, application, extra, ?_, ?_, hextra⟩
  · rw [hcalls, hbefore, List.append_assoc c.calls]
  · exact fun call hcall => (List.mem_append.1 hcall).elim (hnone call) (hmade call)

/-- What comes behind a rejection. -/
theorem TurnsAway.rejects {a : Unit} (h : TurnsAway c (.ok a, d))
    {out : Outcome (σ × List Call) Unit} (hout : Quiet d out) : Rejects c out := by
  obtain ⟨-, -, application, hcalls⟩ := h
  -- what follows in the slice is silent, or it asks for an application once more
  obtain ⟨hshut, hsame⟩ | ⟨hphase, ⟨again, accepted, hasked⟩, hfault⟩ := hout
  · refine ⟨hshut.phase, [], application, [], ?_, fun _ hmem => absurd hmem List.not_mem_nil,
      Or.inl rfl⟩
    rw [hsame, hcalls, List.append_nil]
  · refine ⟨hphase, [], application, [.connect again accepted], ?_,
      fun _ hmem => absurd hmem List.not_mem_nil, Or.inr ⟨⟨again, accepted, rfl⟩, hfault⟩⟩
    rw [hasked, hcalls, List.append_nil, List.append_assoc]
    rfl

theorem Goes.goesOn_trans (h : Goes c d) {out : Outcome (σ × List Call) α} (hout : GoesOn d out) :
    GoesOn c out :=
  ⟨hout.1, fun hnot => h.trans (hout.2 hnot)⟩

/-- Nobody is rejected, or what comes behind the rejection is as told by `Rejects`. -/
def Fares (c : Connection (σ × List Call)) (out : Outcome (σ × List Call) α) : Prop :=
  GoesOn c out ∨ Rejects c out

theorem Goes.fares (h : Goes c d) {out : Outcome (σ × List Call) α} (hout : Fares d out) :
    Fares c out :=
  hout.imp h.goesOn_trans h.rejects

/-- Faults are all that matters of an answer. -/
theorem Fares.congr {β : Type} {out : Outcome (σ × List Call) α} {out' : Outcome (σ × List Call) β}
    (h : Fares c out) (hd : out'.2 = out.2) (hf : ∀ f, out'.1 = .error f ↔ out.1 = .error f) :
    Fares c out' := by
  obtain ⟨hphase, hgoes⟩ | ⟨hphase, made, application, extra, hcalls, hmade, hextra⟩ := h
  · refine Or.inl ⟨hd ▸ hphase, fun hnot => hd ▸ hgoes fun f hf' => hnot f ((hf f).2 hf')⟩
  · refine Or.inr ⟨hd ▸ hphase, made, application, extra, hd ▸ hcalls, hmade, ?_⟩
    refine hextra.imp_right fun ⟨hcall, f, hf', hfatal⟩ => ⟨hcall, f, (hf f).2 hf', hfatal⟩

/-- **Packets.** Nobody is rejected, or what comes behind the rejection is quiet. -/
theorem fares_onPackets (hc : c.phase.isEnding = false) (hcalm : c.Orderly)
    (env : Environment σ) (ps : List Packet) : Fares c (ps.forM (onLeaf env.recorded) c) := by
  induction ps generalizing c with
  | nil => exact Or.inl ⟨hc, fun _ => .of_calls_eq hc rfl⟩
  | cons p rest ih =>
    have hleaf := turnsAway_onLeaf hc hcalm env p
    have hmoves := (@leads_onLeaf _ env.recorded c p).1
    show Fares c ((onLeaf env.recorded p >>= fun _ => rest.forM (onLeaf env.recorded)) c)
    rw [bind_apply]
    rcases hout : onLeaf env.recorded p c with ⟨f | _, d⟩ <;> rw [hout] at hleaf hmoves
    · obtain hgoes | ⟨hok, -⟩ := hleaf
      · exact Or.inl hgoes
      · cases hok
    · -- what follows is acted upon by a connection that goes on, or by one that is shut
      obtain ⟨-, hgoes⟩ | haway := hleaf
      · have hnext := hgoes fun f hf => by cases hf
        exact hnext.fares (ih hnext.phase (hcalm.moves hmoves))
      · exact Or.inr (haway.rejects (onPackets_shut haway.2.1 env rest))

theorem goes_shaken (hc : c.phase.isEnding = false) (m : Handshake.Machine) (reply : List UInt8) :
    Goes c (c.shaken m reply) := by
  unfold shaken
  dsimp only
  split
  · exact .of_calls_eq (isEnding_advance hc rfl) rfl
  · exact .of_calls_eq hc rfl

/-- **What was read is acted upon**, and the connection goes on or rejects. -/
theorem fares_onReading (hc : c.phase.isEnding = false) (hcalm : c.Orderly) (env : Environment σ)
    (r : Chunk.Demux.Reading) : Fares c (onReading env.recorded c r) := by
  have hread : Goes c { c with demux := r.demux } := .of_calls_eq hc rfl
  have hobey : Move env.recorded c { c with demux := r.demux } :=
    .obey r.demux c.intake.window c.roundTrip
  have hcalm' := hcalm.moves (.single hobey)
  unfold onReading
  -- only a packet reaches the handlers
  cases r.event with
  | packet p =>
    have hpacket := hread.fares (fares_onPackets hread.phase hcalm' env p.leaves)
    refine hpacket.congr ?_ fun f => ?_
    · dsimp only
      rw [bind_apply]
      unfold onPacket
      rcases p.leaves.forM (onLeaf env.recorded) { c with demux := r.demux } with ⟨_ | _, _⟩ <;> rfl
    · dsimp only
      rw [bind_apply]
      unfold onPacket
      rcases p.leaves.forM (onLeaf env.recorded) { c with demux := r.demux } with ⟨_ | _, _⟩
      · exact ⟨fun h => congrArg _ (Except.error.inj h), fun h => congrArg _ (Except.error.inj h)⟩
      · exact ⟨fun h => (by cases h), fun h => (by cases h)⟩
  | fault f => exact Or.inl ⟨hc, fun _ => hread⟩
  | quiet | stalled => exact Or.inl ⟨hc, fun _ => hread⟩

/-- **A part of a slice**, be it of the handshake or of messages. -/
theorem fares_take (hc : c.phase.isEnding = false) (hcalm : c.Orderly) (env : Environment σ)
    (slice : List UInt8) : Fares c (take env.recorded slice c) := by
  cases hdone : c.handshake.isDone with
  | true =>
    rw [take_of_isDone hdone]
    exact fares_onReading hc hcalm env _
  | false =>
    rw [take_of_not_isDone hdone, takeHandshake_apply]
    cases (c.handshake.parse env.recorded.crypto env.recorded.now.wall slice).fault with
    | some f => exact Or.inl ⟨hc, fun _ => .of_calls_eq hc rfl⟩
    | none => exact Or.inl (goes_shaken hc _ _).goesOn

/-- **Parts of a slice.** The part that brought the rejection is the last one. -/
theorem fares_takeAll (hc : c.phase.isEnding = false) (hcalm : c.Orderly) (env : Environment σ)
    (taken : Nat) (slice : List UInt8) : Fares c (takeAll env.recorded c taken slice) := by
  fun_induction takeAll env.recorded c taken slice with
  | case1 c taken => exact Or.inl ⟨hc, fun _ => .of_calls_eq hc rfl⟩
  | case2 c taken slice hs n d htake hn =>
    have hpart := fares_take hc hcalm env slice
    rw [htake] at hpart
    exact hpart.congr rfl fun f => ⟨fun h => (by cases h), fun h => (by cases h)⟩
  | case3 c taken slice hs n d htake hn ih =>
    have hpart := fares_take hc hcalm env slice
    have hsteps := (@leads_take _ env.recorded c slice).steps htake
    rw [htake] at hpart
    -- behind a part that brought a rejection, the loop would have ended
    obtain ⟨-, hgoes⟩ | hrejects := hpart
    · have hnext : Goes c d := hgoes fun f hf => by cases hf
      exact hnext.fares (ih hnext.phase (hcalm.steps hsteps))
    · exact absurd (Or.inl hrejects.phase) hn
  | case4 c taken slice hs f d htake =>
    have hpart := fares_take hc hcalm env slice
    rwa [htake] at hpart

/-- **Slices.** -/
theorem fares_parse (hc : c.phase.isEnding = false) (hcalm : c.Orderly) (env : Environment σ)
    (slice : List UInt8) : Fares c (c.parse env.recorded slice) := by
  have hcalm' := hcalm.happenings (happens_acknowledge env.recorded slice.length c)
  have hcount : Goes c (acknowledge slice.length c).2 := by
    obtain ⟨link, total, pending, -, hack⟩ := exists_acknowledge slice.length c
    rw [hack]
    exact .of_calls_eq hc rfl
  unfold Connection.parse
  rw [if_neg (Bool.eq_false_iff.1 hc)]
  -- the slice is not taken where the acknowledgement is refused
  rcases hout : acknowledge slice.length c with ⟨f | _, d⟩ <;> rw [hout] at hcalm' hcount
  · exact Or.inl ⟨hcount.phase, fun _ => hcount⟩
  · exact hcount.fares (fares_takeAll hcount.phase hcalm' env 0 slice)

/-- **Quiescence.** Let a slice lead a connection of any run to closing. The record of the slice has
a rejection, nobody was rejected before it, and behind it there is one call at most, which asks for
an application out of the same packet; in that case the slice fails, and otherwise nothing is called
any more. After the slice nothing is called and nothing is taken, until the connection is
finished. -/
theorem rejects_of_closing (env : Environment σ) (id : Nat) (terms : Terms) (s : σ)
    (ops : List (Moment × Operation)) (t : Moment) (slice : List UInt8) :
    let c := (initial id terms (s, [])).run env.recorded ops
    let out := c.parse (env.recorded.moved t) slice
    c.phase.isEnding = false → out.2.phase = .closing → Rejects c out ∧
      ∀ later : List (Moment × Operation), (∀ o ∈ later, o.2 ≠ .finish) →
        (out.2.run env.recorded later).calls = out.2.calls ∧
          ∀ answer ∈ out.2.answers env.recorded later, answer = .ok 0 := by
  intro c out hc hclosing
  have hrecorded : c.Recorded id :=
    run_induction (fun _ o h => h.operate env o) ⟨rfl, Or.inl (.initial id terms s)⟩ ops
  -- a run that is not ending has its calls in order
  have hcalm : c.Orderly := by
    refine hrecorded.2.resolve_right fun hclosed => ?_
    rw [hclosed.1] at hc
    exact absurd hc (by decide)
  refine ⟨?_, fun later hlater => ?_⟩
  · refine (fares_parse hc hcalm (env.moved t) slice).resolve_left fun hgoes => ?_
    have hopen : out.2.phase.isEnding = false := hgoes.1
    rw [hclosing] at hopen
    exact absurd hopen (by decide)
  · obtain ⟨⟨link, hlink⟩, hanswers⟩ := run_of_isEnding env.recorded (c := out.2)
      (by rw [hclosing]; rfl) fun o ho hfinish => absurd hfinish (hlater o ho)
    refine ⟨?_, hanswers⟩
    rw [hlink]
    rfl

/-- A service that rejects every peer, and two calls for an application in one slice. Only the first
one is put to the service, and further slices are not taken. -/
theorem rejects_of_closing_two_chunks :
    let silent : Service Unit := .silent Unit
    let env : Environment Unit := ⟨{ silent with connect := fun _ => pure false }, .seeded 0, ⟨0, 0⟩⟩
    let hello : List UInt8 := 3 :: List.replicate 3072 0
    let connect : List UInt8 := [3, 0, 0, 0, 0, 0, 35, 20, 0, 0, 0, 0,
      2, 0, 7, 99, 111, 110, 110, 101, 99, 116, 0, 63, 240, 0, 0, 0, 0, 0, 0,
      3, 0, 3, 97, 112, 112, 2, 0, 4, 108, 105, 118, 101, 0, 0, 9]
    let c := (initial 1 .standard ((), [])).run env.recorded [(⟨0, 0⟩, .parse hello)]
    let out := c.parse (env.recorded.moved ⟨0, 0⟩) (connect ++ connect)
    c.phase.isEnding = false ∧ out.2.phase = .closing ∧ Rejects c out ∧
      out.2.calls = [.connect "live" false] ∧
      (out.2.run env.recorded [(⟨0, 0⟩, .parse connect)]).calls = out.2.calls := by
  intro silent env hello connect c out
  have hopen : c.phase.isEnding = false := by decide +kernel
  have hclosing : out.2.phase = .closing := by decide +kernel
  obtain ⟨hrejects, hlater⟩ := rejects_of_closing env 1 .standard () [(⟨0, 0⟩, .parse hello)] ⟨0, 0⟩
    (connect ++ connect) hopen hclosing
  have hcalls : out.2.calls = [.connect "live" false] := by decide +kernel
  exact ⟨hopen, hclosing, hrejects, hcalls, (hlater [(⟨0, 0⟩, .parse connect)] (by decide)).1⟩

/-- The same service, and an aggregate of two calls for an application. With the first one the
connection is closing, and still the second one is put to the service. -/
theorem two_calls_of_aggregate :
    let silent : Service Unit := .silent Unit
    let env : Environment Unit := ⟨{ silent with connect := fun _ => pure false }, .seeded 0, ⟨0, 0⟩⟩
    let hello : List UInt8 := 3 :: List.replicate 3072 0
    let tag : List UInt8 := [20, 0, 0, 32, 0, 0, 0, 0, 0, 0, 0,
      2, 0, 7, 99, 111, 110, 110, 101, 99, 116, 0, 63, 240, 0, 0, 0, 0, 0, 0,
      3, 0, 3, 97, 112, 112, 2, 0, 1, 120, 0, 0, 9, 0, 0, 0, 43]
    let aggregate : List UInt8 := [3, 0, 0, 0, 0, 0, 94, 22, 0, 0, 0, 0] ++ tag ++ tag
    let c := (initial 1 .standard ((), [])).run env.recorded [(⟨0, 0⟩, .parse hello)]
    let out := c.parse (env.recorded.moved ⟨0, 0⟩) aggregate
    c.phase.isEnding = false ∧ c.calls = [] ∧ out.2.phase = .closing ∧
      out.2.calls = [.connect "x" false, .connect "x" false] := by
  decide +kernel

end Connection

end LiveIngest
