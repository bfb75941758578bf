import LiveIngest.Proofs.Service.Recorded

/-!
# The life of streams and applications

What the record of a connection looks like after a whole run: which application was accepted, which
ids streams were asked for under, and when the service heard of the end of each of them. A run may
fail at any point, and a peer may ask for anything at any time.

Until a connection is finished, `Orderly` is the invariant. It reads the state of the connection off
its record:

* an application is bound if one was accepted, and none was left;
* the ids that were asked for are the first ones, in order, and the last of them is the id that was
  given out last;
* the live streams are those that were created and not deleted, and no call was made about a stream
  behind its deletion.

Finishing deletes what is live and leaves what is bound, so that `Lifecycle` holds of the record.

Main statement: `lifecycle_of_finish` — the record after every run that was finished, whatever else
is done with the connection then.
-/

namespace LiveIngest

variable {σ : Type}

/-! ### Records -/

/-- One more element, which may come behind each of the others. -/
theorem pairwise_append_singleton {α : Type} {R : α → α → Prop} {xs : List α} {x : α}
    (h : xs.Pairwise R) (hx : ∀ a ∈ xs, R a x) : (xs ++ [x]).Pairwise R :=
  List.pairwise_append.2 ⟨h, List.pairwise_singleton R x, fun a ha _ hb =>
    List.mem_singleton.1 hb ▸ hx a ha⟩

namespace Call

/-- The ids that a peer asked streams for, in order. -/
def requests (calls : List Call) : List UInt32 :=
  calls.filterMap requested?

/-- The first `n` ids, in order. -/
def ids (n : Nat) : List UInt32 :=
  (List.range n).map fun i => .ofNat (i + 1)

/-- A call may come behind another one: no call is about a stream that was deleted. -/
def MayFollow (first later : Call) : Prop :=
  ∀ stream, first = .deleteStream stream → later.stream? ≠ some stream

theorem requests_append (xs ys : List Call) : requests (xs ++ ys) = requests xs ++ requests ys :=
  List.filterMap_append

/-- A call that is neither about the life of a stream nor a farewell. -/
def isOrdinary : Call → Bool
  | connect _ _ | onStream _ => true
  | _ => false

/-- An ordinary call requests no stream. -/
theorem requests_append_ordinary {call : Call} (h : call.isOrdinary = true) (calls : List Call) :
    requests (calls ++ [call]) = requests calls := by
  have hnone : requests [call] = [] := by
    cases call <;> first | rfl | exact absurd h Bool.false_ne_true
  rw [requests_append, hnone, List.append_nil]

/-- A stream that was created was requested. -/
theorem mem_requests_of_created {calls : List Call} {stream : UInt32} {created : Bool}
    (h : .createStream stream created ∈ calls) : stream ∈ requests calls :=
  List.mem_filterMap.2 ⟨_, h, rfl⟩

theorem ids_succ (n : Nat) : ids (n + 1) = ids n ++ [.ofNat (n + 1)] := by
  unfold ids
  rw [List.range_succ, List.map_append, List.map_singleton]

/-- Ids are different as long as there are enough of them. -/
theorem not_mem_ids {n : Nat} (h : n + 1 < 2 ^ 32) : UInt32.ofNat (n + 1) ∉ ids n := by
  intro hmem
  obtain ⟨i, hi, heq⟩ := List.mem_map.1 hmem
  have hlt := List.mem_range.1 hi
  have hnat : (i + 1) % 2 ^ 32 = (n + 1) % 2 ^ 32 := congrArg UInt32.toNat heq
  rw [Nat.mod_eq_of_lt (by omega), Nat.mod_eq_of_lt h] at hnat
  omega

/-- Ids do not repeat below 2 ^ 32. -/
theorem nodup_ids {n : Nat} (h : n < 2 ^ 32) : (ids n).Nodup := by
  induction n with
  | zero => exact List.nodup_nil
  | succ n ih =>
    have hfresh := not_mem_ids h
    have hprefix := ih (Nat.lt_of_succ_lt h)
    rw [ids_succ]
    exact pairwise_append_singleton hprefix fun a ha heq => hfresh (heq ▸ ha)

end Call

/-- The record of a connection that was finished. -/
structure Lifecycle (id : Nat) (calls : List Call) : Prop where
  /-- At most one application is accepted. -/
  accepted : calls.countP Call.isAcceptance ≤ 1
  /-- Streams are asked for under the ids 1, 2, 3 and so on, and no id is used again. -/
  requests : (Call.requests calls).length < 2 ^ 32 →
    Call.requests calls = Call.ids (Call.requests calls).length ∧ (Call.requests calls).Nodup
  /-- The service hears of the end of every stream that it created, exactly once and before its
  application is left. Behind that it is not called about the stream. -/
  deleted : (Call.requests calls).length < 2 ^ 32 →
    ∀ stream, .createStream stream true ∈ calls → ∃ before after,
      calls = before ++ .deleteStream stream :: after ∧ .deleteStream stream ∉ before ∧
        .leave ∉ before ∧ .leave ∈ after ∧ ∀ call ∈ after, call.stream? ≠ some stream
  /-- An application is left exactly once if one was accepted, and not at all otherwise. -/
  left : calls.count .leave = calls.countP Call.isAcceptance
  /-- The service hears of the end of the connection exactly once. -/
  ended : calls.filter Call.isDisconnect = [.disconnect id]

namespace Connection

variable {env : Environment σ} {c d : Connection (σ × List Call)}

/-! ### The invariant -/

/-- The streams of a connection, as its record shows them. -/
structure Numbered (c : Connection (σ × List Call)) : Prop where
  requests : Call.requests c.calls = Call.ids (Call.requests c.calls).length
  last : c.lastStream = .ofNat (Call.requests c.calls).length
  live : ∀ stream, stream ∈ c.streams ↔
    .createStream stream true ∈ c.calls ∧ .deleteStream stream ∉ c.calls
  /-- What was deleted had been asked for. -/
  deleted : ∀ stream, .deleteStream stream ∈ c.calls → stream ∈ Call.requests c.calls
  settled : c.calls.Pairwise Call.MayFollow

/-- The state of a connection that was not finished, as its record shows it. -/
structure Orderly (c : Connection (σ × List Call)) : Prop where
  underway : c.Underway
  accepted : c.calls.countP Call.isAcceptance = c.isBound.toNat
  /-- Without an application there are no streams. -/
  free : c.isBound = false → c.streams = [] ∧ Call.requests c.calls = []
  present : .leave ∉ c.calls ∧ c.calls.filter Call.isDisconnect = []
  /-- No stream is listed twice, also when ids have come round. -/
  distinct : c.streams.Nodup
  numbered : (Call.requests c.calls).length < 2 ^ 32 → c.Numbered

/-- Nothing has been called. -/
theorem Orderly.initial (id : Nat) (terms : Terms) (s : σ) :
    (initial id terms (s, ([] : List Call))).Orderly where
  underway := .initial id terms _
  accepted := rfl
  free _ := ⟨rfl, rfl⟩
  present := ⟨List.not_mem_nil, rfl⟩
  distinct := List.nodup_nil
  numbered _ :=
    { requests := rfl
      last := rfl
      live := fun stream => by
        refine ⟨fun h => absurd h List.not_mem_nil, fun h => absurd h.1 List.not_mem_nil⟩
      deleted := fun stream h => absurd h List.not_mem_nil
      settled := List.Pairwise.nil }

/-- An application is bound when there are streams. -/
theorem Orderly.isBound_of_mem (h : c.Orderly) {stream : UInt32} (hlive : stream ∈ c.streams) :
    c.isBound = true := by
  cases hbound : c.isBound with
  | true => rfl
  | false =>
    rw [(h.free hbound).1] at hlive
    exact absurd hlive List.not_mem_nil

/-- A change of what the invariant does not look at. -/
theorem Orderly.congr (h : c.Orderly) (hd : d.Underway) (hcalls : d.calls = c.calls)
    (hbound : d.isBound = c.isBound) (hstreams : d.streams = c.streams)
    (hlast : d.lastStream = c.lastStream) : d.Orderly where
  underway := hd
  accepted := by
    rw [hcalls, hbound]
    exact h.accepted
  free := by
    rw [hcalls, hbound, hstreams]
    exact h.free
  present := by
    rw [hcalls]
    exact h.present
  distinct := by
    rw [hstreams]
    exact h.distinct
  numbered := by
    rw [hcalls]
    intro hfew
    obtain ⟨hrequests, hlastStream, hlive, hdeleted, hsettled⟩ := h.numbered hfew
    refine ⟨?_, ?_, ?_, ?_, ?_⟩
    · rw [hcalls]
      exact hrequests
    · rw [hcalls, hlast]
      exact hlastStream
    · rw [hcalls, hstreams]
      exact hlive
    · rw [hcalls]
      exact hdeleted
    · rw [hcalls]
      exact hsettled

/-! ### Calls -/

/-- An ordinary call, which is about a live stream if it is about any. -/
theorem Numbered.tell (h : c.Numbered) {call : Call} (hcall : call.isOrdinary = true)
    (habout : ∀ stream, call.stream? = some stream → stream ∈ c.streams)
    (hcalls : d.calls = c.calls ++ [call]) (hstreams : d.streams = c.streams)
    (hlast : d.lastStream = c.lastStream) : d.Numbered := by
  have hsame : Call.requests d.calls = Call.requests c.calls := by
    rw [hcalls]
    exact Call.requests_append_ordinary hcall c.calls
  have hmem : ∀ {other : Call}, other.isOrdinary = false → (other ∈ d.calls ↔ other ∈ c.calls) := by
    intro other hother
    have hne : other ≠ call := by
      rintro rfl
      exact absurd (hcall.symm.trans hother) (by decide)
    rw [hcalls, List.mem_append, List.mem_singleton]
    exact ⟨fun h => h.resolve_right hne, Or.inl⟩
  refine ⟨?_, ?_, ?_, ?_, ?_⟩
  · rw [hsame]
    exact h.requests
  · rw [hsame, hlast]
    exact h.last
  · intro stream
    rw [hstreams, hmem rfl, hmem rfl]
    exact h.live stream
  · intro stream
    rw [hsame, hmem rfl]
    exact h.deleted stream
  · rw [hcalls]
    refine pairwise_append_singleton h.settled ?_
    -- a live stream was not deleted
    rintro first hfirst stream rfl hstream
    exact ((h.live stream).1 (habout stream hstream)).2 hfirst

/-- **An ordinary call keeps the calls in order**, as long as it is about a stream that is there and
accepts only once. -/
theorem Orderly.tell (h : c.Orderly) (hd : d.Underway) {call : Call}
    (hcall : call.isOrdinary = true) (hfirst : call.isAcceptance = true → c.isBound = false)
    (habout : ∀ stream, call.stream? = some stream → stream ∈ c.streams)
    (hcalls : d.calls = c.calls ++ [call]) (hbound : d.isBound = (c.isBound || call.isAcceptance))
    (hstreams : d.streams = c.streams) (hlast : d.lastStream = c.lastStream) : d.Orderly := by
  -- an ordinary call requests nothing, and so the ids are where they were
  have hsame : Call.requests d.calls = Call.requests c.calls := by
    rw [hcalls]
    exact Call.requests_append_ordinary hcall c.calls
  refine ⟨hd, ?_, ?_, ?_, ?_, ?_⟩
  · rw [hcalls, List.countP_append, h.accepted, hbound, List.countP_singleton]
    cases haccepted : call.isAcceptance with
    | true =>
      rw [hfirst haccepted]
      rfl
    | false =>
      rw [Bool.or_false]
      rfl
  · intro hfree
    have hnot : c.isBound = false := (Bool.or_eq_false_iff.1 (hbound.symm.trans hfree)).1
    rw [hsame, hstreams]
    exact h.free hnot
  · -- ordinary calls do not end the lifecycle either
    have hleave : Call.leave ≠ call ∧ call.isDisconnect = false := by
      cases call <;> first | exact ⟨Call.noConfusion, rfl⟩ | exact absurd hcall Bool.false_ne_true
    rw [hcalls, List.mem_append, List.mem_singleton, List.filter_append, h.present.2,
      List.filter_singleton, hleave.2]
    exact ⟨fun hmem => hmem.elim h.present.1 hleave.1, rfl⟩
  · rw [hstreams]
    exact h.distinct
  · rw [hsame]
    intro hfew
    exact (h.numbered hfew).tell hcall habout hcalls hstreams hlast

/-- The live streams when the service was asked for another one, and created it or not. -/
def joined (c : Connection (σ × List Call)) (created : Bool) : List UInt32 :=
  if created then c.streams.erase c.spend.lastStream ++ [c.spend.lastStream] else c.streams

/-- The streams after a request are those before it and, if it was granted, the new one. -/
theorem mem_joined_iff {created : Bool} {stream : UInt32} :
    stream ∈ c.joined created ↔
      stream ∈ c.streams ∨ created = true ∧ stream = c.spend.lastStream := by
  unfold joined
  cases created with
  | true =>
    -- an id that comes again takes the place of the stream that had it
    rw [if_pos rfl, List.mem_append, List.mem_singleton, and_iff_right rfl]
    by_cases hsame : stream = c.spend.lastStream
    · exact ⟨fun _ => Or.inr hsame, fun _ => Or.inr hsame⟩
    · rw [List.mem_erase_of_ne hsame]
  | false =>
    rw [if_neg Bool.false_ne_true]
    exact ⟨Or.inl, fun h => h.resolve_right fun hnew => Bool.noConfusion hnew.1⟩

/-- A stream whose id is taken makes the one that had it go. -/
theorem nodup_joined (h : c.streams.Nodup) (created : Bool) : (c.joined created).Nodup := by
  unfold joined
  cases created with
  | true =>
    have hleft : c.spend.lastStream ∉ c.streams.erase c.spend.lastStream := h.not_mem_erase
    exact pairwise_append_singleton (h.erase _) fun stream hstream heq => hleft (heq ▸ hstream)
  | false => exact h

/-- The next id is behind the ids that were asked for. -/
theorem Numbered.next (h : c.Numbered) :
    c.spend.lastStream = .ofNat ((Call.requests c.calls).length + 1) := by
  show c.lastStream + 1 = _
  rw [h.last, UInt32.ofNat_add]
  rfl

/-- Nothing was heard of the next id before. -/
theorem Numbered.fresh (h : c.Numbered) (hfew : (Call.requests c.calls).length + 1 < 2 ^ 32) :
    c.spend.lastStream ∉ Call.requests c.calls := by
  rw [h.requests, h.next]
  exact Call.not_mem_ids hfew

/-- Asking for a stream deletes none. -/
theorem deleted_ask {created : Bool}
    (hcalls : d.calls = c.calls ++ [.createStream c.spend.lastStream created]) (stream : UInt32) :
    .deleteStream stream ∈ d.calls ↔ .deleteStream stream ∈ c.calls := by
  rw [hcalls, List.mem_append, List.mem_singleton]
  exact ⟨fun h => h.resolve_right Call.noConfusion, Or.inl⟩

/-- The stream that the service created is live behind the call, and no other one is new. -/
theorem Numbered.live_ask (h : c.Numbered) {created : Bool}
    (hfew : (Call.requests c.calls).length + 1 < 2 ^ 32)
    (hcalls : d.calls = c.calls ++ [.createStream c.spend.lastStream created])
    (hstreams : d.streams = c.joined created) (stream : UInt32) : stream ∈ d.streams ↔
      .createStream stream true ∈ d.calls ∧ .deleteStream stream ∉ d.calls := by
  have hlive := h.live stream
  rw [deleted_ask hcalls, hstreams, mem_joined_iff, hcalls, List.mem_append, List.mem_singleton]
  cases created with
  | true =>
    rw [and_iff_right rfl]
    by_cases hstream : stream = c.spend.lastStream
    · -- the new stream was not deleted before it was there
      have hkept : .deleteStream stream ∉ c.calls := fun hmem =>
        h.fresh hfew (hstream ▸ h.deleted stream hmem)
      exact ⟨fun _ => ⟨Or.inr (hstream ▸ rfl), hkept⟩, fun _ => Or.inr hstream⟩
    · have hne : Call.createStream stream true ≠ .createStream c.spend.lastStream true :=
        fun heq => hstream (Call.createStream.inj heq).1
      rw [or_iff_left hstream, or_iff_left hne]
      exact hlive
  | false =>
    have hne : Call.createStream stream true ≠ .createStream c.spend.lastStream false :=
      fun heq => Bool.noConfusion (Call.createStream.inj heq).2
    rw [or_iff_left fun hnew => Bool.noConfusion hnew.1, or_iff_left hne]
    exact hlive

/-- The service is asked for a stream under the next id. -/
theorem Numbered.ask (h : c.Numbered) {created : Bool}
    (hfew : (Call.requests c.calls).length + 1 < 2 ^ 32)
    (hcalls : d.calls = c.calls ++ [.createStream c.spend.lastStream created])
    (hstreams : d.streams = c.joined created) (hlast : d.lastStream = c.spend.lastStream) :
    d.Numbered := by
  have hrequests : Call.requests d.calls = Call.requests c.calls ++ [c.spend.lastStream] := by
    rw [hcalls, Call.requests_append]
    rfl
  have hlength : (Call.requests d.calls).length = (Call.requests c.calls).length + 1 := by
    rw [hrequests, List.length_append, List.length_singleton]
  refine ⟨?_, ?_, ?_, ?_, ?_⟩
  · rw [hlength, hrequests, Call.ids_succ, ← h.requests, h.next]
  · rw [hlength, hlast, h.next]
  · exact h.live_ask hfew hcalls hstreams
  · intro stream hmem
    rw [hrequests]
    exact List.mem_append_left _ (h.deleted stream ((deleted_ask hcalls stream).1 hmem))
  · rw [hcalls]
    refine pairwise_append_singleton h.settled ?_
    -- what was deleted had been asked for, and so it is another stream
    rintro first hfirst stream rfl hstream
    have hsame : c.spend.lastStream = stream := Option.some.inj hstream
    exact h.fresh hfew (hsame ▸ h.deleted stream hfirst)

/-- **A request keeps the calls in order**: its id is the next one. -/
theorem Orderly.ask (h : c.Orderly) (hd : d.Underway) {created : Bool} (hbound : c.isBound = true)
    (hcalls : d.calls = c.calls ++ [.createStream c.spend.lastStream created])
    (hsame : d.isBound = c.isBound) (hstreams : d.streams = c.joined created)
    (hlast : d.lastStream = c.spend.lastStream) : d.Orderly := by
  refine ⟨hd, ?_, ?_, ?_, ?_, ?_⟩
  · rw [hcalls, List.countP_append, h.accepted, hsame]
    rfl
  · intro hfree
    rw [hsame, hbound] at hfree
    -- only a bound connection asks for a stream
    exact absurd hfree (by decide)
  · rw [hcalls, List.mem_append, List.mem_singleton, List.filter_append, h.present.2]
    exact ⟨fun hmem => hmem.elim h.present.1 Call.noConfusion, rfl⟩
  · rw [hstreams]
    exact nodup_joined h.distinct created
  · intro hfew
    have hlength : (Call.requests d.calls).length = (Call.requests c.calls).length + 1 := by
      rw [hcalls, Call.requests_append, List.length_append]
      rfl
    rw [hlength] at hfew
    exact (h.numbered (Nat.lt_of_succ_lt hfew)).ask hfew hcalls hstreams hlast

/-- A live stream is deleted. -/
theorem Numbered.release (h : c.Numbered) (hnodup : c.streams.Nodup) {stream : UInt32}
    (hlive : stream ∈ c.streams)
    (hcalls : d.calls = c.calls ++ [.deleteStream stream])
    (hstreams : d.streams = c.streams.erase stream) (hlast : d.lastStream = c.lastStream) :
    d.Numbered := by
  obtain ⟨hcreated, hkept⟩ := (h.live stream).1 hlive
  have hrequests : Call.requests d.calls = Call.requests c.calls := by
    rw [hcalls, Call.requests_append]
    exact List.append_nil _
  have hcreate : ∀ other, .createStream other true ∈ d.calls ↔
      .createStream other true ∈ c.calls := by
    intro other
    rw [hcalls, List.mem_append, List.mem_singleton]
    exact ⟨fun h => h.resolve_right Call.noConfusion, Or.inl⟩
  -- the stream is the only one that is deleted now and was not before
  have hdeleted : ∀ other, .deleteStream other ∈ d.calls ↔
      .deleteStream other ∈ c.calls ∨ other = stream := by
    intro other
    rw [hcalls, List.mem_append, List.mem_singleton, Call.deleteStream.injEq]
  refine ⟨?_, ?_, ?_, ?_, ?_⟩
  · rw [hrequests]
    exact h.requests
  · rw [hrequests, hlast]
    exact h.last
  · intro other
    rw [hstreams, hnodup.mem_erase_iff, hcreate, hdeleted, h.live other, not_or]
    exact ⟨fun ⟨hne, hmade, hthere⟩ => ⟨hmade, hthere, hne⟩,
      fun ⟨hmade, hthere, hne⟩ => ⟨hne, hmade, hthere⟩⟩
  · intro other hmem
    rw [hrequests]
    rcases (hdeleted other).1 hmem with hmem | rfl
    · exact h.deleted other hmem
    · exact Call.mem_requests_of_created hcreated
  · rw [hcalls]
    -- nothing was settled for the stream yet, since it was live
    refine pairwise_append_singleton h.settled ?_
    rintro first hfirst other rfl hother
    have hsame : stream = other := Option.some.inj hother
    exact hkept (hsame ▸ hfirst)

/-- **A release keeps the calls in order**: its stream was there and is not any longer. -/
theorem Orderly.release (h : c.Orderly) {stream : UInt32} (hlive : stream ∈ c.streams)
    (hd : (c.release env.recorded stream).Underway) :
    (c.release env.recorded stream).Orderly := by
  have hbound := h.isBound_of_mem hlive
  have hcalls : (c.release env.recorded stream).calls = c.calls ++ [.deleteStream stream] := by
    rw [calls_release, if_pos hbound]
  have hsame := isBound_release env.recorded c stream
  refine ⟨hd, ?_, ?_, ?_, ?_, ?_⟩
  · rw [hcalls, List.countP_append, h.accepted, hsame]
    rfl
  · intro hfree
    -- there is a live stream, so the connection is bound
    rw [hsame, hbound] at hfree
    exact absurd hfree (by decide)
  · rw [hcalls, List.mem_append, List.mem_singleton, List.filter_append, h.present.2]
    exact ⟨fun hmem => hmem.elim h.present.1 Call.noConfusion, rfl⟩
  · rw [streams_release]
    exact h.distinct.erase stream
  · intro hfew
    rw [hcalls, Call.requests_append] at hfew
    have hnumbered := h.numbered (lt_of_le_of_lt (List.length_append ▸ Nat.le_add_right _ _) hfew)
    exact hnumbered.release h.distinct hlive hcalls (streams_release env.recorded c stream)
      (lastStream_release env.recorded c stream)

/-! ### Runs -/

/-- What has to do with streams keeps the invariant. -/
theorem Orderly.streamMove {env : Environment σ} (h : c.Orderly) (hd : d.Underway)
    (hmove : StreamMove env.recorded c d) : d.Orderly := by
  have habout : ∀ {stream : UInt32}, stream ∈ c.streams →
      ∀ other, (Call.onStream stream).stream? = some other → other ∈ c.streams :=
    fun hlive other hother => Option.some.inj hother ▸ hlive
  -- a request spends an id, a release takes a stream away, and the others tell at most
  cases hmove with
  | send | reset => exact h.congr hd rfl rfl rfl rfl
  | create hbound hcreated =>
    have hcalls := calls_askStream env c
    rw [hcreated] at hcalls
    exact h.ask hd hbound hcalls rfl rfl rfl
  | refuse hbound hrefused =>
    have hcalls := calls_askStream env c
    rw [hrefused] at hcalls
    exact h.ask hd hbound hcalls rfl rfl rfl
  | release hlive => exact h.release hlive hd
  | @command stream hlive command =>
    rcases calls_onCommand env c stream command with hcalls | hcalls
    · exact h.congr hd hcalls rfl rfl rfl
    · exact h.tell hd rfl (fun hnot => Bool.noConfusion hnot) (habout hlive) hcalls
        (Bool.or_false _).symm rfl rfl
  | @content stream hlive content =>
    have hcalls := calls_onContent env c stream content
    exact h.tell hd rfl (fun hnot => Bool.noConfusion hnot) (habout hlive) hcalls
      (Bool.or_false _).symm rfl rfl

/-- What a peer that asks for an application is answered keeps the invariant. -/
theorem Orderly.connect {env : Environment σ} (h : c.Orderly) (hd : d.Underway)
    (hfree : c.isBound = false) {application : String} {accepted : Bool}
    (hanswer : (c.askApplication env.recorded application).1 = accepted)
    (hcalls : d.calls = (c.askApplication env.recorded application).2.calls)
    (hbound : d.isBound = accepted) (hstreams : d.streams = c.streams)
    (hlast : d.lastStream = c.lastStream) : d.Orderly := by
  have hmade : d.calls = c.calls ++ [.connect application accepted] := by
    rw [hcalls, calls_askApplication, hanswer]
  have hnone : ∀ stream, (Call.connect application accepted).stream? = some stream →
      stream ∈ c.streams := fun _ hnot => by cases hnot
  refine h.tell hd rfl (fun _ => hfree) hnone hmade ?_ hstreams hlast
  rw [hbound, hfree]
  rfl

/-- **Everything that may happen keeps the invariant.** -/
theorem Orderly.happens {env : Environment σ} (h : c.Orderly) (hd : Happens env.recorded c d) :
    d.Orderly := by
  have hunder := h.underway.happens hd
  cases hd with
  | use => exact h.congr hunder rfl rfl rfl rfl
  | step t hd =>
    have hmoved : env.recorded.moved t = (env.moved t).recorded := rfl
    rw [hmoved] at hd
    cases hd with
    | shake _ m reply =>
      rw [shaken_eq] at hunder ⊢
      exact h.congr hunder rfl rfl rfl rfl
    | move hd =>
      cases hd with
      | stream hd => exact h.streamMove hunder hd
      | obey | announce | welcome | close => exact h.congr hunder rfl rfl rfl rfl
      -- the answer of the application is the only call that a connect makes
      | accept hfree haccepted => exact h.connect hunder hfree haccepted rfl rfl rfl rfl
      | reject hfree hrejected => exact h.connect hunder hfree hrejected rfl hfree rfl rfl

theorem Orderly.happenings {env : Environment σ} (h : c.Orderly)
    (hd : Relation.ReflTransGen (Happens env.recorded) c d) : d.Orderly :=
  Handling.chain_induction (fun _ _ ih hlast => ih.happens hlast) h hd

theorem Orderly.steps {env : Environment σ} (h : c.Orderly)
    (hd : Relation.ReflTransGen (Step env.recorded) c d) : d.Orderly :=
  h.happenings (Relation.ReflTransGen.mono (fun _ _ hstep => .step env.now hstep) _ _ hd)

theorem Orderly.moves {env : Environment σ} (h : c.Orderly)
    (hd : Relation.ReflTransGen (Move env.recorded) c d) : d.Orderly :=
  h.steps (Relation.ReflTransGen.mono (fun _ _ hmove => .move hmove) _ _ hd)

/-! ### The end -/

/-- The calls that finishing a connection makes. -/
def farewell (c : Connection (σ × List Call)) : List Call :=
  c.streams.map .deleteStream ++ (if c.isBound then [.leave] else []) ++ [.disconnect c.link.id]

/-- The streams are deleted one after the other. -/
theorem foldl_release (env : Environment σ) (hbound : c.isBound = true) (streams : List UInt32) :
    (streams.foldl (Connection.release env.recorded) c).calls =
        c.calls ++ streams.map .deleteStream ∧
      (streams.foldl (Connection.release env.recorded) c).isBound = true ∧
      (streams.foldl (Connection.release env.recorded) c).link.id = c.link.id := by
  induction streams generalizing c with
  | nil => exact ⟨(List.append_nil _).symm, hbound, rfl⟩
  | cons stream rest ih =>
    have hsame := isBound_release env.recorded c stream
    obtain ⟨hcalls, hstill, hid⟩ := ih (hsame.trans hbound)
    rw [List.foldl_cons]
    refine ⟨?_, hstill, hid.trans (later_release env.recorded c stream).id⟩
    -- each release is told, since the application is still there
    rw [hcalls, calls_release, if_pos hbound, List.append_assoc, List.map_cons,
      List.singleton_append]

/-- **What finishing does** with the record. -/
theorem calls_finish (env : Environment σ) (hphase : c.phase ≠ .closed)
    (hfree : c.isBound = false → c.streams = []) :
    (c.finish env.recorded).calls = c.calls ++ c.farewell := by
  have hend : (c.finish env.recorded).calls =
      ((c.streams.foldl (Connection.release env.recorded) c).leave env.recorded).calls ++
        [.disconnect
          ((c.streams.foldl (Connection.release env.recorded) c).leave env.recorded).link.id] := by
    unfold Connection.finish
    rw [if_neg hphase]
    rfl
  rw [hend]
  unfold farewell leave
  -- without an application there are no streams, and only the service itself hears of the end
  cases hbound : c.isBound with
  | true =>
    obtain ⟨hcalls, hstill, hid⟩ := foldl_release env hbound c.streams
    have hleave := later_call env.recorded env.recorded.service.leave
      (c.streams.foldl (Connection.release env.recorded) c)
    rw [if_pos hstill, if_pos rfl, ← List.append_assoc, ← List.append_assoc, ← hcalls]
    dsimp only
    rw [hleave.id, hid]
    rfl
  | false =>
    rw [hfree hbound, List.foldl_nil, hbound]
    rfl

/-- What finishing adds to the record, besides the deletions. -/
theorem farewell_facts (c : Connection (σ × List Call)) :
    Call.requests c.farewell = [] ∧ c.farewell.countP Call.isAcceptance = 0 ∧
      c.farewell.count .leave = c.isBound.toNat ∧
      c.farewell.filter Call.isDisconnect = [.disconnect c.link.id] := by
  -- releases are none of the calls that are counted
  have hdeletes : ∀ streams : List UInt32,
      Call.requests (streams.map .deleteStream) = [] ∧
        (streams.map Call.deleteStream).countP Call.isAcceptance = 0 ∧
        (streams.map Call.deleteStream).count .leave = 0 ∧
        (streams.map Call.deleteStream).filter Call.isDisconnect = [] := by
    intro streams
    induction streams with
    | nil => exact ⟨rfl, rfl, rfl, rfl⟩
    | cons stream rest ih =>
      obtain ⟨hrequests, haccepted, hleft, hended⟩ := ih
      refine ⟨hrequests, haccepted, ?_, hended⟩
      rw [List.map_cons, List.count_cons, hleft]
      rfl
  obtain ⟨hrequests, haccepted, hleft, hended⟩ := hdeletes c.streams
  unfold farewell
  rw [Call.requests_append, Call.requests_append, hrequests, List.countP_append,
    List.countP_append, haccepted, List.count_append, List.count_append, hleft, List.filter_append,
    List.filter_append, hended]
  cases c.isBound with
  | true => exact ⟨rfl, rfl, rfl, rfl⟩
  | false => exact ⟨rfl, rfl, rfl, rfl⟩

/-- Behind its streams a connection leaves its application and is gone. -/
theorem farewell_eq (hbound : c.isBound = true) :
    c.farewell = c.streams.map .deleteStream ++ [.leave, .disconnect c.link.id] := by
  unfold farewell
  rw [if_pos hbound, List.append_assoc]
  rfl

/-- The last two calls are about no stream. -/
theorem stream?_of_mem_last {id : Nat} {call : Call}
    (hcall : call ∈ [Call.leave, .disconnect id]) (stream : UInt32) :
    call.stream? ≠ some stream := by
  rcases List.mem_pair.1 hcall with rfl | rfl <;> exact nofun

/-- Of a stream that was deleted nothing is heard behind that, in the end neither. -/
theorem Numbered.exists_deletion_of_deleted (h : c.Numbered) (hbound : c.isBound = true)
    (hstays : .leave ∉ c.calls) {stream : UInt32} (hdeleted : .deleteStream stream ∈ c.calls) :
    ∃ before after, c.calls ++ c.farewell = before ++ .deleteStream stream :: after ∧
      .deleteStream stream ∉ before ∧ .leave ∉ before ∧ .leave ∈ after ∧
      ∀ call ∈ after, call.stream? ≠ some stream := by
  obtain ⟨before, after, hcalls, hnot⟩ := List.eq_append_cons_of_mem hdeleted
  have hsettled := (List.pairwise_append.1 (hcalls ▸ h.settled)).2.1
  refine ⟨before, after ++ c.farewell, ?_, hnot, ?_, ?_, ?_⟩
  · rw [hcalls, List.append_assoc, List.cons_append]
  · exact fun hleave => hstays (hcalls ▸ List.mem_append_left _ hleave)
  · rw [farewell_eq hbound]
    exact List.mem_append_right _ (List.mem_append_right _ List.mem_cons_self)
  · intro call hcall
    rw [farewell_eq hbound] at hcall
    rcases List.mem_append.1 hcall with hcall | hcall
    · exact (List.pairwise_cons.1 hsettled).1 call hcall stream rfl
    · rcases List.mem_append.1 hcall with hcall | hcall
      · -- what is deleted in the end was live
        obtain ⟨other, hlive, rfl⟩ := List.mem_map.1 hcall
        exact fun heq => ((h.live other).1 hlive).2 (Option.some.inj heq ▸ hdeleted)
      · exact stream?_of_mem_last hcall stream

/-- A stream that is live is deleted in the end, and once. -/
theorem Numbered.exists_deletion_of_live (h : c.Numbered) (hdistinct : c.streams.Nodup)
    (hbound : c.isBound = true) (hstays : .leave ∉ c.calls) {stream : UInt32}
    (hlive : stream ∈ c.streams) :
    ∃ before after, c.calls ++ c.farewell = before ++ .deleteStream stream :: after ∧
      .deleteStream stream ∉ before ∧ .leave ∉ before ∧ .leave ∈ after ∧
      ∀ call ∈ after, call.stream? ≠ some stream := by
  have hkept := ((h.live stream).1 hlive).2
  -- a stream is there once, and so it is released once
  obtain ⟨before, after, hstreams, hnot⟩ := List.eq_append_cons_of_mem hlive
  have hnodup := (List.nodup_append.1 (hstreams ▸ hdistinct)).2.1
  refine ⟨c.calls ++ before.map .deleteStream,
    after.map .deleteStream ++ [.leave, .disconnect c.link.id], ?_, ?_, ?_, ?_, ?_⟩
  · rw [farewell_eq hbound, hstreams, List.map_append, List.map_cons, List.append_assoc,
      List.append_assoc, List.cons_append]
  · intro hmem
    rcases List.mem_append.1 hmem with hmem | hmem
    · exact hkept hmem
    · obtain ⟨other, hother, heq⟩ := List.mem_map.1 hmem
      exact hnot (Call.deleteStream.inj heq ▸ hother)
  · intro hmem
    rcases List.mem_append.1 hmem with hmem | hmem
    · exact hstays hmem
    · obtain ⟨other, -, heq⟩ := List.mem_map.1 hmem
      exact Call.noConfusion heq
  · exact List.mem_append_right _ List.mem_cons_self
  · intro call hcall
    rcases List.mem_append.1 hcall with hcall | hcall
    · obtain ⟨other, hother, rfl⟩ := List.mem_map.1 hcall
      exact fun heq => (List.nodup_cons.1 hnodup).1 (Option.some.inj heq ▸ hother)
    · exact stream?_of_mem_last hcall stream

/-- A stream that was created is live, or it was deleted and no call is about it any more. -/
theorem Orderly.exists_deletion (h : c.Orderly)
    (hfew : (Call.requests c.calls).length < 2 ^ 32) {stream : UInt32}
    (hcreated : .createStream stream true ∈ c.calls) : ∃ before after,
      c.calls ++ c.farewell = before ++ .deleteStream stream :: after ∧
        .deleteStream stream ∉ before ∧ .leave ∉ before ∧ .leave ∈ after ∧
        ∀ call ∈ after, call.stream? ≠ some stream := by
  have hnumbered := h.numbered hfew
  -- a stream was asked for, so there was an application
  have hbound : c.isBound = true := by
    by_contra hfree
    have hnone := (h.free (Bool.eq_false_iff.2 hfree)).2
    exact absurd (hnone ▸ Call.mem_requests_of_created hcreated) List.not_mem_nil
  -- it was deleted before, or finishing deletes it
  by_cases hdeleted : .deleteStream stream ∈ c.calls
  · exact hnumbered.exists_deletion_of_deleted hbound h.present.1 hdeleted
  · have hlive := (hnumbered.live stream).2 ⟨hcreated, hdeleted⟩
    exact hnumbered.exists_deletion_of_live h.distinct hbound h.present.1 hlive

/-- **The record of a connection that is finished.** -/
theorem Orderly.lifecycle (h : c.Orderly) : Lifecycle c.link.id (c.calls ++ c.farewell) := by
  -- the farewell neither requests nor accepts; it leaves once if there is an application
  obtain ⟨hrequests, haccepted, hleft, hended⟩ := c.farewell_facts
  have hsame : Call.requests (c.calls ++ c.farewell) = Call.requests c.calls := by
    rw [Call.requests_append, hrequests, List.append_nil]
  have hcount : (c.calls ++ c.farewell).countP Call.isAcceptance = c.isBound.toNat := by
    rw [List.countP_append, haccepted, h.accepted, Nat.add_zero]
  refine ⟨?_, ?_, ?_, ?_, ?_⟩
  · rw [hcount]
    exact c.isBound.toNat_le
  · rw [hsame]
    intro hfew
    have hids := (h.numbered hfew).requests
    refine ⟨hids, ?_⟩
    rw [hids]
    exact Call.nodup_ids hfew
  · rw [hsame]
    intro hfew stream hcreated
    refine h.exists_deletion hfew ?_
    refine (List.mem_append.1 hcreated).resolve_right fun hmem => ?_
    have hnone := Call.mem_requests_of_created hmem
    rw [hrequests] at hnone
    exact absurd hnone List.not_mem_nil
  · rw [hcount, List.count_append, List.count_eq_zero.2 h.present.1, hleft, Nat.zero_add]
  · rw [List.filter_append, h.present.2, hended, List.nil_append]

/-- The connection was not finished and is orderly, or it was, and its record is complete. -/
def Recorded (id : Nat) (c : Connection (σ × List Call)) : Prop :=
  c.link.id = id ∧ (c.Orderly ∨ c.phase = .closed ∧ Lifecycle id c.calls)

/-- Finishing closes the lifecycle. -/
theorem Recorded.finish {id : Nat} (h : c.Recorded id) (env : Environment σ) :
    (c.finish env.recorded).phase = .closed ∧ Lifecycle id (c.finish env.recorded).calls := by
  obtain ⟨hid, horderly | ⟨hclosed, hlife⟩⟩ := h
  · have hcalls := calls_finish env horderly.underway.notClosed fun hfree =>
      (horderly.free hfree).1
    refine ⟨phase_finish _ c, ?_⟩
    rw [hcalls, ← hid]
    exact horderly.lifecycle
  · rw [finish_of_closed hclosed]
    exact ⟨hclosed, hlife⟩

/-- Every operation keeps the record, and finishing completes it. -/
theorem Recorded.operate {id : Nat} (h : c.Recorded id) (env : Environment σ)
    (o : Moment × Operation) : (c.operate env.recorded o).Recorded id := by
  have hid := (later_operate env.recorded c o).id.trans h.1
  -- finishing completes the life; nothing else adds to one that is over
  by_cases ho : o.2 = .finish
  · refine ⟨hid, Or.inr ?_⟩
    rw [operate_finish _ _ ho]
    exact h.finish (env.moved o.1)
  · refine ⟨hid, ?_⟩
    obtain horderly | ⟨hclosed, hlife⟩ := h.2
    · exact Or.inl (operate_induction (fun _ _ hc hd => hc.happens hd) horderly ho)
    · obtain ⟨link, hlink⟩ := operate_of_isEnding env.recorded (by rw [hclosed]; rfl)
        fun _ => hclosed
      rw [hlink]
      exact Or.inr ⟨hclosed, hlife⟩

/-- **The life of streams and applications.** -/
theorem lifecycle_of_finish (env : Environment σ) (id : Nat) (terms : Terms) (s : σ)
    (ops later : List (Moment × Operation)) (t : Moment) :
    let ended := (initial id terms (s, [])).run env.recorded (ops ++ [(t, .finish)])
    Lifecycle id ended.calls ∧ (ended.run env.recorded later).calls = ended.calls ∧
      ∀ answer ∈ ended.answers env.recorded later, answer = .ok 0 := by
  intro ended
  -- by induction on the operations before the end
  have hrun : ((initial id terms (s, [])).run env.recorded ops).Recorded id :=
    run_induction (fun _ o h => h.operate env o) ⟨rfl, Or.inl (.initial id terms s)⟩ ops
  obtain ⟨hclosed, hlife⟩ := hrun.finish (env.moved t)
  have hended : ended =
      ((initial id terms (s, [])).run env.recorded ops).finish (env.moved t).recorded :=
    run_append env.recorded _ ops _
  rw [← hended] at hclosed hlife
  obtain ⟨⟨link, hlink⟩, hanswers⟩ := run_of_isEnding env.recorded (c := ended)
    (by rw [hclosed]; rfl) fun _ _ _ => hclosed
  refine ⟨hlife, ?_, hanswers⟩
  rw [hlink]
  rfl

/-- A peer connects, creates two streams and deletes the first one; the connection is then finished
twice. -/
theorem lifecycle_of_finish_two_streams :
    let env : Environment Unit := ⟨.silent Unit, .seeded 0, ⟨0, 0⟩⟩
    let hello : List UInt8 := 3 :: List.replicate 3072 0
    let connect : List UInt8 := [3, 0, 0, 0, 0, 0, 35, 20, 0, 0, 0, 0,
      2, 0, 7, 99, 111, 110, 110, 101, 99, 116, 0, 63, 240, 0, 0, 0, 0, 0, 0,
      3, 0, 3, 97, 112, 112, 2, 0, 4, 108, 105, 118, 101, 0, 0, 9]
    let create : List UInt8 := [3, 0, 0, 0, 0, 0, 25, 20, 0, 0, 0, 0,
      2, 0, 12, 99, 114, 101, 97, 116, 101, 83, 116, 114, 101, 97, 109, 0, 64, 0, 0, 0, 0, 0, 0, 0, 5]
    let delete : List UInt8 := [3, 0, 0, 0, 0, 0, 34, 20, 0, 0, 0, 0,
      2, 0, 12, 100, 101, 108, 101, 116, 101, 83, 116, 114, 101, 97, 109, 0, 0, 0, 0, 0, 0, 0, 0, 0,
      5, 0, 63, 240, 0, 0, 0, 0, 0, 0]
    let ops : List (Moment × Operation) := [(⟨0, 0⟩, .parse hello), (⟨0, 0⟩, .parse connect),
      (⟨0, 0⟩, .parse (create ++ create ++ delete))]
    let ended := (initial 1 .standard ((), [])).run env.recorded (ops ++ [(⟨0, 0⟩, .finish)])
    Lifecycle 1 ended.calls ∧
      (ended.run env.recorded [(⟨0, 0⟩, .finish), (⟨0, 0⟩, .parse create)]).calls = ended.calls ∧
      ended.calls = [.connect "live" true, .createStream 1 true, .createStream 2 true,
        .deleteStream 1, .deleteStream 2, .leave, .disconnect 1] ∧
      (Call.requests ended.calls).length < 2 ^ 32 := by
  intro env hello connect create delete ops ended
  obtain ⟨hlife, hlater, -⟩ := lifecycle_of_finish env 1 .standard () ops
    [(⟨0, 0⟩, .finish), (⟨0, 0⟩, .parse create)] ⟨0, 0⟩
  -- the second stream is deleted by the end itself
  have hcalls : ended.calls = [.connect "live" true, .createStream 1 true, .createStream 2 true,
      .deleteStream 1, .deleteStream 2, .leave, .disconnect 1] := by decide +kernel
  refine ⟨hlife, hlater, hcalls, ?_⟩
  rw [hcalls]
  decide

end Connection

end LiveIngest
