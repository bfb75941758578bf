import LiveIngest.Chunk.Mux
import LiveIngest.Proofs.Keyed

/-!
# What waits to be sent

The lanes of a sending side, one for each chunk stream, and what is done to them: a message joins
the others of its chunk stream, and a reset drops those of a message stream before it queues any
abort.

`Mux.Matches` compares two sending sides but for some messages, of which one side may have more, or
others, than the other. It is kept by whatever is done to both as long as nothing was sent
(`Mux.Unsent`), so that a reset cuts nothing.
-/

namespace LiveIngest.Chunk

/-- The messages that wait, also the one that is partly sent. -/
def Lane.waiting (l : Lane) : List Packet :=
  l.queue.map (·.packet)

namespace Lane

/-- Where no message was begun, a reset drops messages and does nothing else. -/
theorem reset_of_unsent {l : Lane} (h : ∀ x ∈ l.queue, x.started = false) (streamId : UInt32) :
    l.reset streamId =
      ({ l with queue := l.queue.filter (·.packet.streamId ≠ streamId) }, false) := by
  unfold reset
  cases hq : l.queue with
  | nil => rfl
  | cons m rest =>
    have hm : m.started = false := h m (hq ▸ List.mem_cons_self)
    dsimp only
    rw [hm, Bool.false_and]
    rfl

/-- The lane without the messages that `skip` holds of. -/
def without (skip : Packet → Bool) (l : Lane) : Lane :=
  { l with queue := l.queue.filter fun x => !skip x.packet }

/-- A message that is passed over is not seen in the lane. -/
theorem without_enqueue (skip : Packet → Bool) (l : Lane) (p : Packet) :
    (l.enqueue p).without skip =
      if skip p = true then l.without skip else (l.without skip).enqueue p := by
  unfold without enqueue
  dsimp only
  by_cases hp : skip p = true
  · rw [if_pos hp, List.filter_append, List.filter_cons_of_neg (by simp [hp]), List.filter_nil,
      List.append_nil]
  · rw [if_neg hp, List.filter_append, List.filter_cons_of_pos (by simp [hp]), List.filter_nil]

/-- Passing over messages and dropping others may change places. -/
theorem without_filter (skip : Packet → Bool) (l : Lane) (keep : Outgoing → Bool) :
    ({ l with queue := l.queue.filter keep } : Lane).without skip =
      { l.without skip with queue := (l.without skip).queue.filter keep } := by
  unfold without
  simp only [List.filter_filter, Bool.and_comm]

end Lane

namespace Mux

def lane (m : Mux) (c : UInt32) : Lane :=
  (m.lanes.get? c).getD (.fresh c)

/-- The messages that wait on a chunk stream, also the one that is partly sent. -/
def waiting (m : Mux) (c : UInt32) : List Packet :=
  (m.lane c).waiting

theorem lane_eq {m : Mux} {c : UInt32} {l : Lane} (h : m.lanes.get? c = some l) : m.lane c = l := by
  rw [lane, h, Option.getD_some]

theorem waiting_eq {m : Mux} {c : UInt32} {l : Lane} (h : m.lanes.get? c = some l) :
    m.waiting c = l.waiting := by
  rw [waiting, lane_eq h]

theorem waiting_of_none {m : Mux} {c : UInt32} (h : m.lanes.get? c = none) : m.waiting c = [] := by
  rw [waiting, lane, h]
  rfl

/-- Where there is no data, nothing waits. -/
theorem waiting_of_hasData {m : Mux} (h : m.hasData = false) (c : UInt32) : m.waiting c = [] := by
  cases hget : m.lanes.get? c with
  | none => exact waiting_of_none hget
  | some l =>
    have hlane := List.any_eq_false.1 (Bool.or_eq_false_iff.1 h).2 _ (Keyed.mem_of_get? hget)
    have hqueue : l.queue = [] := by simpa [Lane.hasData] using hlane
    rw [waiting_eq hget, Lane.waiting, hqueue, List.map_nil]

/-- Writing a lane leaves the others alone. -/
theorem lane_put (m : Mux) (c : UInt32) (l : Lane) (c' : UInt32) :
    lane { m with lanes := m.lanes.put c l } c' = if c' = c then l else m.lane c' := by
  unfold lane
  dsimp only
  rw [Keyed.get?_put]
  by_cases hc : c' = c
  · rw [if_pos hc, if_pos hc, Option.getD_some]
  · rw [if_neg hc, if_neg hc]

/-- What waits on the other lanes is as before. -/
theorem waiting_put (m : Mux) (c : UInt32) (l : Lane) (c' : UInt32) :
    waiting { m with lanes := m.lanes.put c l } c' =
      if c' = c then l.waiting else m.waiting c' := by
  unfold waiting
  rw [lane_put]
  split <;> rfl

/-- A message is put into the lane of its chunk stream. -/
theorem lane_enqueue (m : Mux) (p : Packet) (c : UInt32) :
    (m.enqueue p).lane c = if c = p.chunkStream then (m.lane c).enqueue p else m.lane c := by
  rw [show (m.enqueue p).lane c = _ from lane_put m p.chunkStream _ c]
  by_cases hc : c = p.chunkStream
  · rw [if_pos hc, if_pos hc, hc]
    rfl
  · rw [if_neg hc, if_neg hc]

/-- There it waits behind the others. -/
theorem waiting_enqueue (m : Mux) (p : Packet) (c : UInt32) :
    (m.enqueue p).waiting c = m.waiting c ++ [p].filter (·.chunkStream = c) := by
  unfold waiting
  rw [lane_enqueue]
  by_cases hc : c = p.chunkStream
  · rw [if_pos hc, List.filter_cons_of_pos (by simpa using hc.symm), List.filter_nil]
    simp only [Lane.waiting, Lane.enqueue, List.map_append, List.map_cons, List.map_nil]
  · rw [if_neg hc, List.filter_cons_of_neg (by simpa using Ne.symm hc), List.filter_nil,
      List.append_nil]

/-- The lane on which a message was queued, or another one, which is as it was. -/
theorem get?_enqueue {m : Mux} {p : Packet} {c : UInt32} {l : Lane}
    (h : (m.enqueue p).lanes.get? c = some l) :
    (c = p.chunkStream ∧ l = (m.lane c).enqueue p) ∨
      (c ≠ p.chunkStream ∧ m.lanes.get? c = some l) := by
  unfold Mux.enqueue at h
  rw [Keyed.get?_put] at h
  by_cases hc : c = p.chunkStream
  · rw [if_pos hc] at h
    refine Or.inl ⟨hc, ?_⟩
    rw [hc]
    exact (Option.some.inj h).symm
  · rw [if_neg hc] at h
    exact Or.inr ⟨hc, h⟩

/-! ### Resetting -/

/-- The lanes of a reset, before any abort is queued. -/
def resetLanes (m : Mux) (streamId : UInt32) : Mux :=
  { m with lanes := m.lanes.map fun e => (e.1, (e.2.reset streamId).1) }

/-- A reset drops messages, and then queues an abort for each chunk stream that was cut. -/
theorem reset_eq (m : Mux) (streamId : UInt32) :
    (m.reset streamId).1 = (m.reset streamId).2.foldl (fun m a => m.enqueue (abortPacket a))
      (m.resetLanes streamId) := by
  unfold reset resetLanes
  simp only [List.map_map, Function.comp_def]

/-- A chunk stream that a reset returns has a lane that was cut. -/
theorem exists_cut_of_mem_reset {m : Mux} {streamId a : UInt32} (h : a ∈ (m.reset streamId).2) :
    ∃ e ∈ m.lanes, (e.2.reset streamId).2 = true ∧ e.2.chunkStream = a := by
  unfold reset at h
  simp only [List.filter_map, List.map_map, List.mem_map, List.mem_filter] at h
  obtain ⟨e, ⟨hmem, hcut⟩, hname⟩ := h
  exact ⟨e, hmem, hcut, hname⟩

/-- Every lane is reset by itself. -/
theorem get?_lanes_resetLanes (m : Mux) (streamId c : UInt32) :
    (m.resetLanes streamId).lanes.get? c =
      (m.lanes.get? c).map fun l => (l.reset streamId).1 :=
  Keyed.get?_mapValues (fun l : Lane => (l.reset streamId).1) c m.lanes

theorem lane_resetLanes (m : Mux) (streamId c : UInt32) :
    (m.resetLanes streamId).lane c = ((m.lane c).reset streamId).1 := by
  unfold lane
  rw [get?_lanes_resetLanes]
  cases m.lanes.get? c <;> rfl

/-- What waits for other message streams is kept, in its order. -/
theorem waiting_resetLanes (m : Mux) (streamId c : UInt32) :
    (m.resetLanes streamId).waiting c = (m.waiting c).filter (·.streamId ≠ streamId) := by
  unfold waiting
  rw [lane_resetLanes]
  simp only [Lane.waiting, Lane.reset, List.filter_map, Function.comp_def]

/-- A reset takes the messages of a stream away, and puts aborts behind those that are left. -/
theorem waiting_reset (m : Mux) (streamId c : UInt32) :
    (m.reset streamId).1.waiting c = (m.waiting c).filter (·.streamId ≠ streamId) ++
      ((m.reset streamId).2.map abortPacket).filter (·.chunkStream = c) := by
  rw [reset_eq, ← waiting_resetLanes]
  generalize m.resetLanes streamId = m₁
  induction (m.reset streamId).2 generalizing m₁ with
  | nil => rw [List.map_nil, List.filter_nil, List.append_nil, List.foldl_nil]
  | cons a rest ih =>
    rw [List.foldl_cons, ih, waiting_enqueue, List.append_assoc, ← List.filter_append]
    rfl

/-- A lane behind a reset. -/
theorem get?_resetLanes {m : Mux} {streamId c : UInt32} {l : Lane}
    (h : (m.resetLanes streamId).lanes.get? c = some l) :
    ∃ l₀, m.lanes.get? c = some l₀ ∧ l = (l₀.reset streamId).1 := by
  rw [get?_lanes_resetLanes] at h
  obtain ⟨l₀, hget, he⟩ := Option.map_eq_some_iff.1 h
  exact ⟨l₀, hget, he.symm⟩

/-! ### Chunk streams on which nothing is cut -/

/-- No message is cut on the chunk stream. -/
def Uncut (m : Mux) (c : UInt32) : Prop :=
  ∀ l, m.lanes.get? c = some l → ∀ x ∈ l.queue, x.started = false

/-- On an uncut lane no message is begun. -/
theorem Uncut.lane {m : Mux} {c : UInt32} (h : m.Uncut c) :
    ∀ x ∈ (m.lane c).queue, x.started = false := by
  cases hget : m.lanes.get? c with
  | none =>
    rw [Mux.lane, hget]
    exact fun x hx => absurd hx List.not_mem_nil
  | some l =>
    rw [lane_eq hget]
    exact h l hget

/-- A new message is not begun. -/
theorem Uncut.enqueue {m : Mux} {c : UInt32} (h : m.Uncut c) (p : Packet) :
    (m.enqueue p).Uncut c := by
  intro l hget x hx
  rcases get?_enqueue hget with ⟨-, rfl⟩ | ⟨-, hother⟩
  · rcases List.mem_append.1 hx with hx | hx
    · exact h.lane x hx
    · -- the message that joins was not begun
      rw [List.mem_singleton.1 hx]
  · exact h l hother x hx

theorem Uncut.resetLanes {m : Mux} {a : UInt32} (h : m.Uncut a) (streamId : UInt32) :
    (m.resetLanes streamId).Uncut a := by
  intro l hget x hx
  obtain ⟨l₀, hget₀, rfl⟩ := get?_resetLanes hget
  exact h l₀ hget₀ x (List.mem_filter.1 hx).1

/-! ### Sending sides that nothing was taken from -/

def Unsent (m : Mux) : Prop :=
  ∀ e ∈ m.lanes, ∀ x ∈ e.2.queue, x.started = false

theorem Unsent.initial : Mux.initial.Unsent :=
  fun _ h => absurd h List.not_mem_nil

/-- Where nothing was sent, nothing is cut. -/
theorem Unsent.uncut {m : Mux} (h : m.Unsent) (c : UInt32) : m.Uncut c :=
  fun _ hget => h _ (Keyed.mem_of_get? hget)

theorem Unsent.enqueue {m : Mux} (h : m.Unsent) (p : Packet) : (m.enqueue p).Unsent := by
  intro e he x hx
  rcases Keyed.mem_of_mem_put he with rfl | he
  · rcases List.mem_append.1 hx with hx | hx
    · exact (h.uncut p.chunkStream).lane x hx
    · rw [List.mem_singleton.1 hx]
  · exact h e he x hx

/-- Nothing is cut where nothing was sent, so that a reset queues no abort. -/
theorem Unsent.reset_eq {m : Mux} (h : m.Unsent) (streamId : UInt32) :
    m.reset streamId = (m.resetLanes streamId, []) := by
  have hnone : (m.reset streamId).2 = [] := by
    refine List.eq_nil_iff_forall_not_mem.2 fun a ha => ?_
    obtain ⟨e, he, hcut, -⟩ := exists_cut_of_mem_reset ha
    rw [Lane.reset_of_unsent (h e he)] at hcut
    exact Bool.false_ne_true hcut
  have hlanes := Mux.reset_eq m streamId
  rw [hnone, List.foldl_nil] at hlanes
  exact Prod.ext hlanes hnone

theorem Unsent.resetLanes {m : Mux} (h : m.Unsent) (streamId : UInt32) :
    (m.resetLanes streamId).Unsent := by
  intro e he x hx
  obtain ⟨e₀, he₀, rfl⟩ := List.mem_map.1 he
  exact h e₀ he₀ x (List.mem_filter.1 hx).1

/-- Two sending sides from which nothing was taken, and which have the same to send but for the
messages that `skip` holds of. -/
structure Matches (skip : Packet → Bool) (m m' : Mux) : Prop where
  unsent : m.Unsent
  unsent' : m'.Unsent
  raw : m'.raw = m.raw
  chunkSize : m'.chunkSize = m.chunkSize
  meter : m'.meter = m.meter
  lanes : ∀ c, (m'.lane c).without skip = (m.lane c).without skip

variable {skip : Packet → Bool} {m m' : Mux}

theorem Matches.refl (h : m.Unsent) : m.Matches skip m :=
  ⟨h, h, rfl, rfl, rfl, fun _ => rfl⟩

theorem Matches.symm (h : m.Matches skip m') : m'.Matches skip m :=
  ⟨h.unsent', h.unsent, h.raw.symm, h.chunkSize.symm, h.meter.symm, fun c => (h.lanes c).symm⟩

theorem Matches.trans {m'' : Mux} (h : m.Matches skip m') (h' : m'.Matches skip m'') :
    m.Matches skip m'' :=
  ⟨h.unsent, h'.unsent', h'.raw.trans h.raw, h'.chunkSize.trans h.chunkSize,
    h'.meter.trans h.meter, fun c => (h'.lanes c).trans (h.lanes c)⟩

/-- Raw bytes are the same on both sides. -/
theorem Matches.pushRaw (h : m.Matches skip m') (bytes : List UInt8) :
    (m.pushRaw bytes).Matches skip (m'.pushRaw bytes) :=
  ⟨h.unsent, h.unsent', congrArg (· ++ bytes) h.raw, h.chunkSize, h.meter, h.lanes⟩

/-- A message joins both sides. -/
theorem Matches.enqueue (h : m.Matches skip m') (p : Packet) :
    (m.enqueue p).Matches skip (m'.enqueue p) := by
  refine ⟨h.unsent.enqueue p, h.unsent'.enqueue p, h.raw, h.chunkSize, h.meter, fun c => ?_⟩
  rw [lane_enqueue, lane_enqueue]
  split
  · rw [Lane.without_enqueue, Lane.without_enqueue, h.lanes]
  · exact h.lanes c

/-- A message that is not compared joins the second side. -/
theorem Matches.enqueue_skip (h : m.Matches skip m') {p : Packet} (hp : skip p = true) :
    m.Matches skip (m'.enqueue p) := by
  refine ⟨h.unsent, h.unsent'.enqueue p, h.raw, h.chunkSize, h.meter, fun c => ?_⟩
  rw [lane_enqueue]
  split
  · rw [Lane.without_enqueue, if_pos hp]
    exact h.lanes c
  · exact h.lanes c

/-- Messages of a message stream are dropped on both sides. -/
theorem Matches.reset (h : m.Matches skip m') (streamId : UInt32) :
    (m.reset streamId).1.Matches skip (m'.reset streamId).1 := by
  rw [h.unsent.reset_eq, h.unsent'.reset_eq]
  refine ⟨h.unsent.resetLanes streamId, h.unsent'.resetLanes streamId, h.raw, h.chunkSize, h.meter,
    fun c => ?_⟩
  rw [lane_resetLanes, lane_resetLanes, Lane.reset_of_unsent (h.unsent.uncut c).lane,
    Lane.reset_of_unsent (h.unsent'.uncut c).lane]
  -- dropping and masking do not get in each other's way
  calc ({ m'.lane c with queue := (m'.lane c).queue.filter (·.packet.streamId ≠ streamId) } :
        Lane).without skip
      = { (m'.lane c).without skip with
          queue := ((m'.lane c).without skip).queue.filter (·.packet.streamId ≠ streamId) } :=
        Lane.without_filter _ _ _
    _ = { (m.lane c).without skip with
          queue := ((m.lane c).without skip).queue.filter (·.packet.streamId ≠ streamId) } := by
        rw [h.lanes]
    _ = ({ m.lane c with queue := (m.lane c).queue.filter (·.packet.streamId ≠ streamId) } :
        Lane).without skip := (Lane.without_filter _ _ _).symm

end Mux

end LiveIngest.Chunk
