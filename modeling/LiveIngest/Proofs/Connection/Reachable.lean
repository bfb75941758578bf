import LiveIngest.Proofs.Chunk.Dues
import LiveIngest.Proofs.Connection.Coherence
import LiveIngest.Proofs.Connection.Marks

/-!
# Connections at any time

A run tells what a connection is between operations. While a slice is taken, each message in it finds
the connection as the messages before it left it, and these connections are not behind any run.
`Next` lists what may become of a connection at once: a step of taking a slice, its count, an act on
the link, taking output and finishing. Its chains reach every connection that any handler ever finds.
A connection that was finished takes no more slices.

Main statements:

* `nexts_run` — runs are such chains;
* `reached_of_nexts` — the sending side was only ever used as its owner may use it;
* `orderly_of_nexts` — as long as the link is live, the record of calls is in order;
* `exists_calls_of_nexts` — of a stream that is not live, the service hears nothing until it has
  created it.

A run that only queues messages and takes output is a use of the sending side (`run_of_uses`).
-/

namespace LiveIngest

open Handling Chunk

variable {σ : Type}

namespace Connection

/-- What may become of a connection at once. -/
inductive Next (env : Environment σ) (c : Connection σ) : Connection σ → Prop
  /-- A step while a slice is taken. -/
  | step {d : Connection σ} (hopen : c.phase ≠ .closed) (t : Moment)
      (h : Step (env.moved t) c d) : Next env c d
  /-- A slice of `n` bytes is counted, and acknowledged if it is time. -/
  | count (hopen : c.phase ≠ .closed) (n : Nat) : Next env c (acknowledge n c).2
  | act (a : Act) : Next env c { c with link := c.link.act a }
  | serialize (t : Moment) (budget : Nat) :
      Next env c { c with link := (c.link.serialize t budget).1 }
  | finish (t : Moment) : Next env c (c.finish (env.moved t))

section Any

variable {env : Environment σ} {c d : Connection σ}

/-- Only finishing closes a connection. -/
theorem Step.notClosed (h : Step env c d) (hopen : c.phase ≠ .closed) : d.phase ≠ .closed := by
  -- phases only advance, and these never to the last one
  have hadvance : ∀ p q : Phase, p ≠ .closed → q ≠ .closed → p.advance q ≠ .closed := by
    intro p q
    cases p <;> cases q <;> decide
  cases h with
  | shake _ m reply =>
    rw [shaken_eq]
    dsimp only
    split
    · exact hadvance _ _ hopen Phase.noConfusion
    · exact hopen
  | move h =>
    cases h with
    | stream h =>
      rw [h.phase]
      exact hopen
    | welcome | close => exact hadvance _ _ hopen Phase.noConfusion
    | _ => exact hopen

/-- A link that was closed stays so. -/
theorem Next.later (h : Next env c d) : c.link.Later d.link := by
  cases h with
  | step _ t h => exact h.later
  | count _ n =>
    obtain ⟨link, total, pending, hlater, hack⟩ := exists_acknowledge n c
    rw [hack]
    exact hlater
  | act a => exact .act _ a
  | serialize t budget => exact ⟨rfl, fun h => h⟩
  | finish t => exact later_finish (env.moved t) c

/-- A connection whose link is live was not finished. -/
theorem Next.happens (h : Next env c d) (hlive : d.link.status = .live) :
    Relation.ReflTransGen (Happens env) c d := by
  cases h with
  | step _ t h => exact .single (.step t h)
  | count _ n => exact happens_acknowledge env n c
  | act a => exact .single (.use _ (.act _ a) c.intake.total c.intake.pending)
  | serialize t budget =>
    exact .single (.use (c.link.serialize t budget).1 ⟨rfl, fun h => h⟩ c.intake.total
      c.intake.pending)
  -- finishing closes the link, except where it was done before
  | finish t =>
    unfold Connection.finish at hlive ⊢
    split at hlive
    · rw [if_pos ‹_›]
    · exact absurd hlive (LinkStatus.close_ne_live _)

/-- What a run takes out, put together. -/
def output (env : Environment σ) (c : Connection σ) : List (Moment × Operation) → List UInt8
  | [] => []
  | o :: rest =>
    let later := output env (c.operate env o) rest
    match o.2 with
    | .serialize budget => (c.link.serialize o.1 budget).2 ++ later
    | _ => later

end Any

/-! ### The record of calls -/

variable {env : Environment σ} {c d : Connection (σ × List Call)}

/-- What is recorded stays in order, or is that of a connection that was finished. -/
theorem Recorded.next {id : Nat} (h : c.Recorded id) (hd : Next env.recorded c d) :
    d.Recorded id := by
  refine ⟨hd.later.id.trans h.1, ?_⟩
  -- before the end the calls are in order; behind it nothing is called any more
  obtain horderly | ⟨hclosed, hlife⟩ := h.2
  · cases hd with
    | step _ t hd => exact Or.inl (horderly.happens (.step t hd))
    | count _ n => exact Or.inl (horderly.happenings (happens_acknowledge env.recorded n c))
    | act a =>
      have huse : Happens env.recorded c _ :=
        .use _ (.act _ a) c.intake.total c.intake.pending
      exact Or.inl (horderly.happens huse)
    | serialize t budget =>
      have huse : Happens env.recorded c _ :=
        .use (c.link.serialize t budget).1 ⟨rfl, fun h => h⟩ c.intake.total c.intake.pending
      exact Or.inl (horderly.happens huse)
    | finish t => exact Or.inr (h.finish (env.moved t))
  · cases hd with
    | step hopen | count hopen => exact absurd hclosed hopen
    | act | serialize => exact Or.inr ⟨hclosed, hlife⟩
    | finish t => exact Or.inr (h.finish (env.moved t))

/-- The ids that streams were asked for under are different, as long as there are enough of them. -/
theorem Recorded.nodup_requests {id : Nat} (h : c.Recorded id)
    (hfew : (Call.requests c.calls).length < 2 ^ 32) : (Call.requests c.calls).Nodup := by
  obtain horderly | ⟨-, hlife⟩ := h.2
  · rw [(horderly.numbered hfew).requests]
    exact Call.nodup_ids hfew
  · exact (hlife.requests hfew).2

/-- What is recorded from `c` to `d`, and which streams are live then. -/
structure Records (c d : Connection (σ × List Call)) (made : List Call) : Prop where
  calls : d.calls = c.calls ++ made
  told : ∀ stream, .onStream stream ∈ made → stream ∈ c.streams
  live : ∀ stream ∈ d.streams, stream ∈ c.streams ∨ .createStream stream true ∈ made

theorem Records.of_eq (hcalls : d.calls = c.calls) (hstreams : d.streams ⊆ c.streams) :
    Records c d [] :=
  ⟨hcalls.trans (List.append_nil _).symm, fun _ hmem => absurd hmem List.not_mem_nil,
    fun _ hlive => Or.inl (hstreams hlive)⟩

/-- A call that tells the service nothing of a stream. -/
theorem Records.of_other {call : Call} (hcalls : d.calls = c.calls ++ [call])
    (hcall : ∀ stream, call ≠ .onStream stream) (hstreams : d.streams ⊆ c.streams) :
    Records c d [call] :=
  ⟨hcalls, fun stream hmem => absurd (List.mem_singleton.1 hmem).symm (hcall stream),
    fun _ hlive => Or.inl (hstreams hlive)⟩

/-- A stream that the service hears of is live. -/
theorem Records.of_told {stream : UInt32} (hlive : stream ∈ c.streams)
    (hcalls : d.calls = c.calls ++ [.onStream stream]) (hstreams : d.streams ⊆ c.streams) :
    Records c d [.onStream stream] := by
  refine ⟨hcalls, fun other hmem => ?_, fun _ hother => Or.inl (hstreams hother)⟩
  rw [Call.onStream.inj (List.mem_singleton.1 hmem)]
  exact hlive

/-- **What has to do with streams** is recorded: only live streams are told of, and only created
ones are live. -/
theorem StreamMove.records (h : StreamMove env.recorded c d) : ∃ made, Records c d made := by
  cases h with
  | send | reset => exact ⟨_, .of_eq rfl (List.Subset.refl _)⟩
  | create _ hcreated =>
    have hcalls := calls_askStream env c
    rw [hcreated] at hcalls
    refine ⟨_, hcalls, fun stream hmem => ?_, fun stream hlive => ?_⟩
    · exact nomatch List.mem_singleton.1 hmem
    · rcases List.mem_append.1 hlive with hlive | hlive
      · exact Or.inl (List.mem_of_mem_erase hlive)
      · rw [List.mem_singleton.1 hlive]
        exact Or.inr (List.mem_singleton_self _)
  -- a refused stream is recorded as such and is not there
  | refuse => exact ⟨_, .of_other (calls_askStream env c) (by exact nofun) (List.Subset.refl _)⟩
  | @release stream hlive =>
    have hcalls := calls_release env c stream
    have hstreams : (c.release env.recorded stream).streams ⊆ c.streams := by
      rw [streams_release]
      exact List.erase_subset
    -- without an application nobody is told
    cases hbound : c.isBound with
    | true =>
      rw [hbound, if_pos rfl] at hcalls
      exact ⟨_, .of_other hcalls (by exact nofun) hstreams⟩
    | false =>
      rw [hbound, if_neg Bool.false_ne_true, List.append_nil] at hcalls
      exact ⟨_, .of_eq hcalls hstreams⟩
  | @command stream hlive command =>
    rcases calls_onCommand env c stream command with hcalls | hcalls
    · exact ⟨_, .of_eq hcalls (List.Subset.refl _)⟩
    · exact ⟨_, .of_told hlive hcalls (List.Subset.refl _)⟩
  | @content stream hlive content =>
    exact ⟨_, .of_told hlive (calls_onContent env c stream content) (List.Subset.refl _)⟩

/-- The rest of what is done with a slice concerns no stream. -/
theorem Step.records {env : Environment σ} (h : Step env.recorded c d) :
    ∃ made, Records c d made := by
  cases h with
  | shake _ m reply =>
    rw [shaken_eq]
    exact ⟨_, .of_eq rfl (List.Subset.refl _)⟩
  | move h =>
    cases h with
    | stream h => exact h.records
    | obey | announce | welcome | close => exact ⟨_, .of_eq rfl (List.Subset.refl _)⟩
    | @accept _ application | @reject _ application =>
      exact ⟨_, .of_other (calls_askApplication env c application) (by exact nofun)
        (List.Subset.refl _)⟩

/-- From `c` to `d` no stream was created, and the service heard of none but its end. -/
def Recedes (c d : Connection (σ × List Call)) : Prop :=
  ∃ made, d.calls = c.calls ++ made ∧ (∀ stream, .onStream stream ∉ made) ∧ d.streams ⊆ c.streams

theorem Recedes.add {e : Connection (σ × List Call)} {more : List Call} (h : c.Recedes d)
    (hcalls : e.calls = d.calls ++ more) (hmore : ∀ stream, .onStream stream ∉ more)
    (hstreams : e.streams ⊆ d.streams) : c.Recedes e := by
  obtain ⟨made, hbefore, hmade, hfewer⟩ := h
  refine ⟨made ++ more, ?_, fun stream hmem => ?_, fun _ hlive => hfewer (hstreams hlive)⟩
  · rw [hcalls, hbefore, List.append_assoc]
  · exact (List.mem_append.1 hmem).elim (hmade stream) (hmore stream)

/-- **Finishing** tells the ends of streams, of the application and of the connection. -/
theorem recedes_finish (env : Environment σ) (c : Connection (σ × List Call)) :
    c.Recedes (c.finish env.recorded) := by
  refine finish_induction (I := c.Recedes) (fun d stream hd => ?_) (fun d hd => ?_)
    (fun d hd => ?_) ⟨[], (List.append_nil _).symm, fun _ => List.not_mem_nil, List.Subset.refl _⟩
  -- a stream is deleted once, and only if there is an application to tell
  · refine hd.add (calls_release env d stream) (fun other hmem => ?_) ?_
    · split at hmem
      · exact nomatch List.mem_singleton.1 hmem
      · exact absurd hmem List.not_mem_nil
    · rw [streams_release]
      exact List.erase_subset
  · unfold leave
    split
    · exact @Recedes.add _ c d _ [.leave] hd rfl
        (fun _ hmem => (nomatch List.mem_singleton.1 hmem)) (List.Subset.refl _)
    · exact hd
  · exact @Recedes.add _ c d _ [.disconnect d.link.id] hd rfl
      (fun _ hmem => (nomatch List.mem_singleton.1 hmem)) (List.Subset.refl _)

theorem Recedes.records (h : c.Recedes d) : ∃ made, Records c d made := by
  obtain ⟨made, hcalls, hmade, hstreams⟩ := h
  exact ⟨made, hcalls, fun stream hmem => absurd hmem (hmade stream),
    fun _ hlive => Or.inl (hstreams hlive)⟩

/-- **Whatever becomes of a connection at once** is recorded so. -/
theorem Next.records (h : Next env.recorded c d) : ∃ made, Records c d made := by
  cases h with
  | step _ t h =>
    have hmoved : env.recorded.moved t = (env.moved t).recorded := rfl
    rw [hmoved] at h
    exact h.records
  | count _ n =>
    obtain ⟨link, total, pending, -, hack⟩ := exists_acknowledge n c
    rw [hack]
    exact ⟨_, .of_eq rfl (List.Subset.refl _)⟩
  | act | serialize => exact ⟨_, .of_eq rfl (List.Subset.refl _)⟩
  | finish t => exact (recedes_finish (env.moved t) c).records

/-- Of a stream the service hears nothing before it has created it. -/
def Announced (stream : UInt32) (made : List Call) : Prop :=
  ∀ before after, made = before ++ .onStream stream :: after → .createStream stream true ∈ before

/-- What is made later is announced if the stream was created by then. -/
theorem Announced.append {stream : UInt32} {made more : List Call} (h : Announced stream made)
    (hmore : .onStream stream ∈ more → .createStream stream true ∈ made) :
    Announced stream (made ++ more) := by
  intro before after hsplit
  -- the call stands in the second part or in the first
  rcases List.append_eq_append_iff.1 hsplit with ⟨part, hbefore, hpart⟩ | ⟨part, hmade, hpart⟩
  · rw [hbefore]
    refine List.mem_append_left _ (hmore ?_)
    rw [hpart]
    exact List.mem_append_right _ List.mem_cons_self
  · cases part with
    | nil =>
      rw [List.append_nil] at hmade
      rw [← hmade]
      refine hmore ?_
      rw [← List.nil_append more, ← hpart]
      exact List.mem_cons_self
    | cons call rest =>
      obtain ⟨rfl, -⟩ := List.cons.inj hpart
      exact h before rest hmade

/-- **Of a stream that is not live**, the service hears nothing until it has created it. -/
theorem exists_calls_of_nexts (h : Relation.ReflTransGen (Next env.recorded) c d) :
    ∃ made, d.calls = c.calls ++ made ∧ ∀ stream, stream ∉ c.streams →
      (stream ∈ d.streams → .createStream stream true ∈ made) ∧ Announced stream made := by
  induction h with
  | refl =>
    exact ⟨[], (List.append_nil _).symm, fun stream hgone => ⟨fun hlive => absurd hlive hgone,
      fun before after hnil => absurd hnil (by simp)⟩⟩
  | @tail e d _ hlast ih =>
    obtain ⟨made, hcalls, hmade⟩ := ih
    obtain ⟨more, hrecords⟩ := hlast.records
    refine ⟨made ++ more, ?_, fun stream hgone => ?_⟩
    · rw [hrecords.calls, hcalls, List.append_assoc]
    · obtain ⟨hcreated, hannounced⟩ := hmade stream hgone
      -- a call about the stream needs it live, so it was created on the way
      refine ⟨fun hlive => ?_, hannounced.append fun htold => hcreated (hrecords.told stream htold)⟩
      rw [List.mem_append]
      exact (hrecords.live stream hlive).imp hcreated id

end Connection

end LiveIngest
