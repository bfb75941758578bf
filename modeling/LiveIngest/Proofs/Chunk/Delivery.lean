import LiveIngest.Proofs.Chunk.Lanes
import LiveIngest.Proofs.Chunk.Refinement
import LiveIngest.Proofs.Message.Control

/-!
# From the sending side to the receiving side

The bytes that one side sends, read by the other. Callers put messages on the sending side, take
bytes out under budgets, and reset message streams, in any order (`Action`). The receiving side
reads what was taken out, and its driver obeys the chunk sizes and aborts that it receives
(`Demux.obey`).

`Mux.Feeds` is the invariant that relates the two sides:

* the chunk sizes agree, and the receiver rests between two chunks;
* every lane tracks the receiver's record of its chunk stream;
* an abort that waits is on the control lane, and no message is cut on the lane that it names. The
  control lane goes out first, so the abort arrives before that lane writes again.

Main statement: `drainAll_outputs` — along every run, the receiver has got, on each chunk stream and
in order, exactly the messages that were written completely.
-/

namespace LiveIngest.Chunk

/-! ### Lanes by priority -/

/-- **The lane that writes.** It is the lowest one with something to send. -/
theorem nextOfLanes?_eq_some {size : Nat} {lanes lanes' : Keyed UInt32 Lane} {bytes : List UInt8}
    {finished : Option Packet} (hlanes : lanes.Ascending)
    (h : nextOfLanes? size lanes = some (lanes', bytes, finished)) :
    ∃ c l w, lanes.get? c = some l ∧ l.next? size = some w ∧ lanes' = lanes.put c w.lane ∧
      bytes = w.bytes ∧ finished = w.finished ∧
      ∀ c' l', c' < c → lanes.get? c' = some l' → l'.queue = [] := by
  induction lanes generalizing lanes' with
  | nil => exact absurd h (by simp [nextOfLanes?])
  -- the lane in front writes, or it has nothing to send and a later one writes
  | cons e rest ih =>
    obtain ⟨id, l⟩ := e
    obtain ⟨hhead, hrest⟩ := List.pairwise_cons.1 hlanes
    unfold nextOfLanes? at h
    split at h
    · rename_i w hw
      obtain ⟨rfl, rfl, rfl⟩ : (id, w.lane) :: rest = lanes' ∧ w.bytes = bytes ∧
          w.finished = finished := by
        simpa only [Option.some.injEq, Prod.mk.injEq] using h
      refine ⟨id, l, w, ?_, hw, ?_, rfl, rfl, fun c' l' hlt hget => ?_⟩
      · rw [Keyed.get?_cons, if_pos rfl]
      · rw [Keyed.put, if_pos rfl]
      · -- no key is lower than the first
        rw [Keyed.get?_cons, if_neg (UInt32.ne_of_lt hlt).symm] at hget
        exact absurd (hhead _ (Keyed.mem_of_get? hget)) (UInt32.not_lt.2 (UInt32.le_of_lt hlt))
    · rename_i hnone
      obtain ⟨⟨rest', written⟩, hnext, he⟩ := Option.map_eq_some_iff.1 h
      obtain ⟨rfl, rfl⟩ := Prod.mk.inj he
      obtain ⟨c, l', w, hget, hw, rfl, rfl, rfl, hlower⟩ := ih hrest hnext
      -- the lane that writes is behind the first one
      have hlt : id < c := hhead _ (Keyed.mem_of_get? hget)
      have hne : c ≠ id := (UInt32.ne_of_lt hlt).symm
      refine ⟨c, l', w, ?_, hw, ?_, rfl, rfl, fun c' x hx hget' => ?_⟩
      · rw [Keyed.get?_cons, if_neg hne.symm]
        exact hget
      · rw [Keyed.put, if_neg hne, if_neg (UInt32.not_lt.2 (UInt32.le_of_lt hlt))]
      · rw [Keyed.get?_cons] at hget'
        split at hget'
        · obtain rfl := Option.some.inj hget'
          exact Lane.queue_of_next?_none hnone
        · exact hlower c' x hx hget'

/-! ### The driver of the receiving side -/

namespace Demux

/-- Obey a message: chunk sizes and aborts are carried out, everything else is left alone. -/
def obey (p : Packet) (d : Demux) : Demux :=
  match Control.parse p.type p.payload with
  | .ok (.setChunkSize size) => d.setChunkSize size.toNat
  | .ok (.abort c) => d.abort c
  | _ => d

/-- An abort gives up what one chunk stream has pending. -/
theorem records_abort (d : Demux) (c : UInt32) :
    (d.abort c).records = Function.update d.records c ((d.records c).map Record.giveUp) := by
  unfold Demux.abort
  cases hget : d.streams.get? c with
  -- a chunk stream that nothing is known of stays so
  | none =>
    have hnone : d.records c = none := by
      rw [records, hget, Option.map_none]
    rw [hnone, Option.map_none, ← hnone, Function.update_eq_self]
  | some a =>
    have hsome : d.records c = some a.record := by
      rw [records, hget, Option.map_some]
    rw [hsome, Option.map_some]
    exact records_put d d.stage c a.clear

/-- A reader at rest stays so when a message is aborted. -/
theorem Resting.abort {d : Demux} (h : d.Resting) (c : UInt32) : (d.abort c).Resting := by
  unfold Demux.abort
  cases hget : d.streams.get? c with
  | none => exact h
  | some a =>
    have hput := h.put (a := a.clear) (h.streams c a hget).1 (Assembly.balanced_clear a)
    rwa [← h.stage] at hput

theorem chunkSize_abort (d : Demux) (c : UInt32) : (d.abort c).chunkSize = d.chunkSize := by
  unfold Demux.abort
  split <;> rfl

/-- A reader at rest stays so when it obeys a message. -/
theorem Resting.obey {d : Demux} (h : d.Resting) (p : Packet) : (d.obey p).Resting := by
  unfold Demux.obey
  split
  · exact h.setChunkSize _
  · exact h.abort _
  · exact h

/-- The driver does nothing that a machine between two chunks does not bear. -/
theorem gentle_obey : Gentle obey := by
  intro p d h
  unfold Demux.obey
  split
  · exact h.setChunkSize _
  · exact h.abort _
  · exact h

/-- The receiver changes its chunk size when the sender does. -/
theorem chunkSize_obey (p : Packet) (d : Demux) :
    (obey p d).chunkSize = Mux.sizeAfter d.chunkSize (some p) := by
  unfold obey Mux.sizeAfter
  dsimp only
  -- only type 1 changes the size, on both sides
  by_cases htype : p.type = 1
  · rw [if_pos htype, htype]
    cases hparse : Control.parse 1 p.payload with
    | error e => rfl
    | ok control =>
      cases control with
      | setChunkSize size => rfl
      | abort c => exact absurd (Control.type_of_parse hparse) (by rw [Control.type]; decide)
      | _ => rfl
  · rw [if_neg htype]
    cases hparse : Control.parse p.type p.payload with
    | error e => rfl
    | ok control =>
      cases control with
      | setChunkSize size => exact absurd (Control.type_of_parse hparse).symm htype
      | abort c => exact chunkSize_abort d c
      | _ => rfl

/-- Only an abort changes records. -/
theorem records_obey_of_ne {p : Packet} (h : p.type ≠ 2) (d : Demux) :
    (obey p d).records = d.records := by
  unfold obey
  split
  · rfl
  · rename_i hparse
    exact absurd (Control.type_of_parse hparse).symm h
  · rfl

/-- An abort that was sent is the abort that is obeyed. -/
theorem obey_abortPacket (c : UInt32) (d : Demux) : obey (Mux.abortPacket c) d = d.abort c := by
  have hparse : Control.parse (Mux.abortPacket c).type (Mux.abortPacket c).payload =
      .ok (.abort c) := Control.parse_abort c
  unfold obey
  rw [hparse]

end Demux

/-! ### Both sides -/

namespace Mux

/-- The receiver `d` knows all that was sent by `m`. -/
structure Feeds (m : Mux) (d : Demux) : Prop where
  raw : m.raw = []
  resting : d.Resting
  chunkSize : d.chunkSize = m.chunkSize
  ascending : m.lanes.Ascending
  fits : ∀ c l, m.lanes.get? c = some l → l.Fits c
  tracks : ∀ c l, m.lanes.get? c = some l → l.Tracks (d.records c)
  /-- An abort waits on the control lane, and goes out before the lane it names writes again. -/
  aborts : ∀ c, ∀ p ∈ m.waiting c, p.type = 2 →
    c = Priority.control.chunkStream ∧
      ∃ a, p = abortPacket a ∧ (a = Priority.control.chunkStream ∨ m.Uncut a)

/-- A fresh sender feeds a fresh reader. -/
theorem Feeds.initial : Feeds .initial .initial where
  raw := rfl
  resting := .initial
  chunkSize := rfl
  ascending := .nil
  fits := fun _ _ h => absurd h (by simp [Mux.initial])
  tracks := fun _ _ h => absurd h (by simp [Mux.initial])
  aborts := fun _ _ h => absurd h List.not_mem_nil

/-- A message that waits is of its chunk stream. -/
theorem Feeds.chunkStream_of_mem {m : Mux} {d : Demux} (h : m.Feeds d) {c : UInt32} {p : Packet}
    (hp : p ∈ m.waiting c) : p.chunkStream = c := by
  cases hget : m.lanes.get? c with
  | none =>
    rw [waiting_of_none hget] at hp
    exact absurd hp List.not_mem_nil
  | some l =>
    rw [waiting_eq hget] at hp
    exact ((h.fits c l hget).packets p hp).1

/-! ### Putting messages on lanes -/

/-- A lane has what fits its chunk stream, the fresh one included. -/
theorem Feeds.fits_lane {m : Mux} {d : Demux} (h : m.Feeds d) {c : UInt32} (hname : Nameable c) :
    (m.lane c).Fits c := by
  cases hget : m.lanes.get? c with
  | none =>
    rw [lane, hget]
    exact .fresh hname
  | some l =>
    rw [lane_eq hget]
    exact h.fits c l hget

/-- A lane remembers what the reader has on record. -/
theorem Feeds.tracks_lane {m : Mux} {d : Demux} (h : m.Feeds d) (c : UInt32) :
    (m.lane c).Tracks (d.records c) := by
  cases hget : m.lanes.get? c with
  | none =>
    rw [lane, hget]
    exact .fresh c _
  | some l =>
    rw [lane_eq hget]
    exact h.tracks c l hget

/-- **A message joins a lane.** -/
theorem Feeds.enqueue {m : Mux} {d : Demux} (h : m.Feeds d) {p : Packet}
    (hname : Nameable p.chunkStream) (hlength : p.length = p.payload.length)
    (hbound : p.length < 2 ^ 24)
    (habort : p.type = 2 → p.chunkStream = Priority.control.chunkStream ∧
      ∃ a, p = abortPacket a ∧ (a = Priority.control.chunkStream ∨ m.Uncut a)) :
    (m.enqueue p).Feeds d where
  raw := h.raw
  resting := h.resting
  chunkSize := h.chunkSize
  ascending := h.ascending.put _ _
  fits := by
    intro c l hget
    rcases get?_enqueue hget with ⟨rfl, rfl⟩ | ⟨-, hother⟩
    · exact (h.fits_lane hname).enqueue rfl hlength hbound
    · exact h.fits c l hother
  tracks := by
    intro c l hget
    rcases get?_enqueue hget with ⟨rfl, rfl⟩ | ⟨-, hother⟩
    · exact (h.tracks_lane _).enqueue p
    · exact h.tracks c l hother
  aborts := by
    have hkeep : ∀ a, a = Priority.control.chunkStream ∨ m.Uncut a →
        a = Priority.control.chunkStream ∨ (m.enqueue p).Uncut a :=
      fun a => Or.imp_right (·.enqueue p)
    intro c q hq htype
    rw [waiting_enqueue] at hq
    rcases List.mem_append.1 hq with hq | hq
    · obtain ⟨hc, a, ha, huncut⟩ := h.aborts c q hq htype
      exact ⟨hc, a, ha, hkeep a huncut⟩
    · -- `q` is the message that joins
      obtain ⟨hqp, hc⟩ := List.mem_filter.1 hq
      obtain rfl := List.mem_singleton.1 hqp
      obtain ⟨hcontrol, a, ha, huncut⟩ := habort htype
      exact ⟨(of_decide_eq_true hc).symm.trans hcontrol, a, ha, hkeep a huncut⟩

/-- Aborts join the control lane, each for a chunk stream on which nothing is cut. -/
theorem Feeds.enqueueAborts {m : Mux} {d : Demux} (h : m.Feeds d) {cut : List UInt32}
    (hcut : ∀ a ∈ cut, m.Uncut a) :
    (cut.foldl (fun m a => m.enqueue (abortPacket a)) m).Feeds d := by
  induction cut generalizing m with
  | nil => exact h
  | cons a rest ih =>
    -- an abort is queued for a chunk stream on which nothing is cut
    have hone : (m.enqueue (abortPacket a)).Feeds d := by
      have hname : Nameable (abortPacket a).chunkStream :=
        (by decide : Nameable Priority.control.chunkStream)
      have hlength : (abortPacket a).length = 4 := Bytes.length_bigEndian 4 a.toNat
      refine h.enqueue hname rfl (by rw [hlength]; decide) fun _ => ?_
      exact ⟨rfl, a, rfl, Or.inr (hcut a List.mem_cons_self)⟩
    exact ih hone fun b hb => (hcut b (List.mem_cons_of_mem _ hb)).enqueue _

/-! ### Resetting -/

/-- What waits on a stream can be dropped: lanes and records stay in step, and every abort that is
queued keeps its reason. -/
theorem Feeds.resetLanes {m : Mux} {d : Demux} (h : m.Feeds d) (streamId : UInt32) :
    (m.resetLanes streamId).Feeds d where
  raw := h.raw
  resting := h.resting
  chunkSize := h.chunkSize
  ascending := h.ascending.mapValues fun l => (l.reset streamId).1
  fits := by
    intro c l hget
    have hwaiting := waiting_resetLanes m streamId c
    rw [waiting_eq hget] at hwaiting
    obtain ⟨l₀, hget₀, rfl⟩ := get?_resetLanes hget
    have hfits := h.fits c l₀ hget₀
    -- what still waits was waiting before
    refine ⟨hfits.chunkStream, hfits.nameable, fun p hp => hfits.packets p ?_⟩
    rw [hwaiting, waiting_eq hget₀] at hp
    exact (List.mem_filter.1 hp).1
  tracks := by
    intro c l hget
    obtain ⟨l₀, hget₀, rfl⟩ := get?_resetLanes hget
    exact ((h.tracks c l₀ hget₀).reset streamId).1
  aborts := by
    intro c p hp htype
    rw [waiting_resetLanes] at hp
    obtain ⟨hc, a, ha, huncut⟩ := h.aborts c p (List.mem_filter.1 hp).1 htype
    exact ⟨hc, a, ha, huncut.imp_right (·.resetLanes streamId)⟩

/-- Behind a reset, nothing is cut on the chunk streams that it returns. -/
theorem Feeds.uncut_resetLanes {m : Mux} {d : Demux} (h : m.Feeds d) {streamId a : UInt32}
    (ha : a ∈ (m.reset streamId).2) : (m.resetLanes streamId).Uncut a := by
  obtain ⟨⟨c, l⟩, hmem, hcut, hname⟩ := exists_cut_of_mem_reset ha
  -- keys ascend, so the lane that was cut is the one found under its key
  have hget := h.ascending.get?_of_mem hmem
  have hc : a = c := hname.symm.trans (h.fits c l hget).chunkStream
  intro l' hget' x hx
  obtain ⟨l₀, hget₀, rfl⟩ := get?_resetLanes hget'
  rw [hc, hget] at hget₀
  obtain rfl := Option.some.inj hget₀
  exact ((h.tracks c l hget).reset streamId).2 hcut x hx

/-- **Resetting a message stream.** Messages of the stream leave the lanes, and aborts join them. -/
theorem Feeds.reset {m : Mux} {d : Demux} (h : m.Feeds d) (streamId : UInt32) :
    (m.reset streamId).1.Feeds d := by
  rw [reset_eq]
  exact (h.resetLanes streamId).enqueueAborts fun a ha => h.uncut_resetLanes ha

/-! ### Writing -/

/-- Writing `bytes` leads from `m` to `m'`; reading them leads from `d` to `d'` and brings the
messages that have left the lanes. -/
structure Delivers (m : Mux) (d : Demux) (bytes : List UInt8) (m' : Mux) (d' : Demux)
    (ps : List Packet) : Prop where
  feeds : m'.Feeds d'
  scan : ∀ rest, d.scan Demux.obey (bytes ++ rest) =
    (d'.scan Demux.obey rest).after bytes.length ps
  waiting : ∀ c, m.waiting c = ps.filter (·.chunkStream = c) ++ m'.waiting c

/-- Nothing sent is nothing delivered. -/
theorem Delivers.refl {m : Mux} {d : Demux} (h : m.Feeds d) : m.Delivers d [] m d [] where
  feeds := h
  scan := fun _ => (Transcript.after_zero _).symm
  waiting := fun _ => rfl

/-- What is delivered after the other is delivered together. -/
theorem Delivers.trans {m m₁ m₂ : Mux} {d d₁ d₂ : Demux} {xs ys : List UInt8}
    {ps qs : List Packet} (h₁ : m.Delivers d xs m₁ d₁ ps) (h₂ : m₁.Delivers d₁ ys m₂ d₂ qs) :
    m.Delivers d (xs ++ ys) m₂ d₂ (ps ++ qs) where
  feeds := h₂.feeds
  scan := by
    intro rest
    rw [List.append_assoc, h₁.scan, h₂.scan, Transcript.after_after, List.length_append]
  waiting := by
    intro c
    rw [h₁.waiting, h₂.waiting, List.filter_append, List.append_assoc]

/-- A message that was finished is obeyed on both sides. -/
theorem Feeds.obey {m : Mux} {d : Demux} (h : m.Feeds d) {p : Packet}
    (habort : p.type = 2 → ∃ a, p = abortPacket a ∧ m.Uncut a) :
    Feeds { m with chunkSize := sizeAfter m.chunkSize (some p) } (d.obey p) where
  raw := h.raw
  resting := h.resting.obey p
  chunkSize := by
    rw [Demux.chunkSize_obey, h.chunkSize]
  ascending := h.ascending
  fits := h.fits
  tracks := by
    intro c l hget
    by_cases htype : p.type = 2
    · obtain ⟨a, rfl, huncut⟩ := habort htype
      rw [Demux.obey_abortPacket, Demux.records_abort]
      -- the receiver gives up what it holds on `a`, and no lane counts on it
      by_cases hc : c = a
      · rw [hc, Function.update_self]
        subst hc
        exact (h.tracks c l hget).giveUp (huncut l hget)
      · rw [Function.update_of_ne hc]
        exact h.tracks c l hget
    · rw [Demux.records_obey_of_ne htype]
      exact h.tracks c l hget
  aborts := h.aborts

/-- No lane but the control lane writes while a message waits there, so that a chunk stream on which
nothing is cut stays so. -/
theorem Feeds.uncut_put {m : Mux} {d : Demux} (h : m.Feeds d) {c : UInt32} {l : Lane}
    (hget : m.lanes.get? c = some l)
    (hlower : ∀ c' l', c' < c → m.lanes.get? c' = some l' → l'.queue = []) {p : Packet}
    (hp : p ∈ m.waiting Priority.control.chunkStream) {a : UInt32}
    (ha : a ≠ Priority.control.chunkStream) (huncut : m.Uncut a) (l₁ : Lane) :
    Uncut { m with lanes := m.lanes.put c l₁ } a := by
  intro l' hget'
  rw [Keyed.get?_put] at hget'
  split at hget'
  · -- the lane of `a` would write, and the control lane is lower
    rename_i hac
    have hlt : Priority.control.chunkStream < c := by
      have hname := (h.fits c l hget).nameable.1
      refine UInt32.lt_iff_toNat_lt.2 (Nat.lt_of_le_of_ne hname fun heq => ?_)
      exact ha (hac.trans (UInt32.toNat.inj heq.symm))
    -- so it has nothing to send
    cases hcontrol : m.lanes.get? Priority.control.chunkStream with
    | none =>
      rw [waiting_of_none hcontrol] at hp
      exact absurd hp List.not_mem_nil
    | some l₂ =>
      rw [waiting_eq hcontrol, Lane.waiting, hlower _ l₂ hlt hcontrol] at hp
      exact absurd hp List.not_mem_nil
  · exact huncut l' hget'

/-- What a lane writes reaches the record of its chunk stream; the driver has not reacted yet. -/
theorem Feeds.put {m : Mux} {d d₁ : Demux} (h : m.Feeds d) {c : UInt32} {l : Lane}
    (hget : m.lanes.get? c = some l)
    (hlower : ∀ c' l', c' < c → m.lanes.get? c' = some l' → l'.queue = []) {w : Written} {f : Frame}
    {r₁ : Record} (hs : l.Sends (d.records c) m.chunkSize c w f r₁) (hresting : d₁.Resting)
    (hsize : d₁.chunkSize = d.chunkSize)
    (hrecords : d₁.records =
      Function.update d.records c (some (r₁.extend c f.payload).1)) :
    Feeds { m with lanes := m.lanes.put c w.lane } d₁ where
  raw := h.raw
  resting := hresting
  chunkSize := hsize.trans h.chunkSize
  ascending := h.ascending.put c w.lane
  fits := by
    intro c' l' hget'
    rw [Keyed.get?_put] at hget'
    split at hget'
    · rename_i hc
      rw [← Option.some.inj hget', hc]
      exact hs.lane
    · exact h.fits c' l' hget'
  tracks := by
    intro c' l' hget'
    rw [Keyed.get?_put] at hget'
    rw [hrecords]
    split at hget'
    · rename_i hc
      rw [← Option.some.inj hget', hc, Function.update_self]
      exact hs.tracks
    · rename_i hc
      rw [Function.update_of_ne hc]
      exact h.tracks c' l' hget'
  aborts := by
    intro c' p hp htype
    -- the abort waited before
    have hmem : p ∈ m.waiting c' := by
      rw [waiting_put] at hp
      split at hp
      · rename_i hc
        rw [hc, waiting_eq hget, hs.waiting]
        exact List.mem_append_right _ hp
      · exact hp
    obtain ⟨hcontrol, a, ha, huncut⟩ := h.aborts c' p hmem htype
    by_cases hself : a = Priority.control.chunkStream
    · exact ⟨hcontrol, a, ha, Or.inl hself⟩
    · have hkept := h.uncut_put hget hlower (hcontrol ▸ hmem) hself (huncut.resolve_left hself)
      exact ⟨hcontrol, a, ha, Or.inr (hkept w.lane)⟩

/-- The message that a lane has finished, if there is one, has left its chunk stream. -/
theorem Feeds.waiting_written {m : Mux} {d : Demux} (h : m.Feeds d) {c : UInt32} {l : Lane}
    (hget : m.lanes.get? c = some l) {w : Written}
    (hw : l.waiting = w.finished.toList ++ w.lane.waiting) (c' : UInt32) :
    m.waiting c' = w.finished.toList.filter (·.chunkStream = c') ++
      waiting { m with lanes := m.lanes.put c w.lane } c' := by
  have hof : ∀ p ∈ w.finished.toList, p.chunkStream = c := fun p hp =>
    h.chunkStream_of_mem (waiting_eq hget ▸ hw ▸ List.mem_append_left _ hp)
  rw [waiting_put]
  -- only the lane that was served has changed
  by_cases hc : c' = c
  · have hall : w.finished.toList.filter (·.chunkStream = c') = w.finished.toList := by
      rw [List.filter_eq_self]
      exact fun p hp => decide_eq_true ((hof p hp).trans hc.symm)
    rw [if_pos hc, hall, hc, waiting_eq hget, hw]
  · have hnone : w.finished.toList.filter (·.chunkStream = c') = [] := by
      rw [List.filter_eq_nil_iff]
      exact fun p hp heq => hc ((of_decide_eq_true heq).symm.trans (hof p hp))
    rw [if_neg hc, hnone, List.nil_append]

/-- An abort that was finished finds nothing cut on the chunk stream that it names. -/
theorem Feeds.uncut_written {m : Mux} {d : Demux} (h : m.Feeds d) {c : UInt32} {l : Lane}
    (hget : m.lanes.get? c = some l) {w : Written} {p : Packet} (hp : w.finished = some p)
    (hw : l.waiting = w.finished.toList ++ w.lane.waiting)
    (huntouched : ∀ x ∈ w.lane.queue, x.started = false) (htype : p.type = 2) :
    ∃ a, p = abortPacket a ∧ Uncut { m with lanes := m.lanes.put c w.lane } a := by
  have hmem : p ∈ m.waiting c := by
    rw [waiting_eq hget, hw, hp]
    exact List.mem_append_left _ (List.mem_singleton_self p)
  obtain ⟨hcontrol, a, rfl, huncut⟩ := h.aborts c p hmem htype
  refine ⟨a, rfl, fun l' hget' x hx => ?_⟩
  rw [Keyed.get?_put] at hget'
  split at hget'
  · -- the abort names its own chunk stream, on which it was the message under way
    rw [← Option.some.inj hget'] at hx
    exact huntouched x hx
  · rename_i hac
    have hne : a ≠ Priority.control.chunkStream := fun heq => hac (heq.trans hcontrol.symm)
    exact huncut.resolve_left hne l' hget' x hx

/-- **One chunk.** The receiver takes its bytes, and is handed the message if it was finished. -/
theorem Feeds.next {m m' : Mux} {d : Demux} (h : m.Feeds d) {bytes : List UInt8}
    (hn : m.next? = some (m', bytes)) : ∃ d' ps, m.Delivers d bytes m' d' ps := by
  unfold next? at hn
  obtain ⟨⟨lanes, written, finished⟩, hlanes, he⟩ := Option.map_eq_some_iff.1 hn
  obtain ⟨rfl, rfl⟩ := Prod.mk.inj he
  -- the lane of `c` writes `w`, which is the bytes of the chunk `f`
  obtain ⟨c, l, w, hget, hw, rfl, rfl, rfl, hlower⟩ := nextOfLanes?_eq_some h.ascending hlanes
  have hpos : 0 < m.chunkSize := h.chunkSize ▸ h.resting.chunkSize_pos
  obtain ⟨f, r₁, hs⟩ := (h.tracks c l hget).next (h.fits c l hget) hpos hw
  -- the receiver accepts the chunk
  have hopen : Record.open? (d.records f.chunkStream) f.heading = some r₁ := by
    rw [hs.chunkStream]
    exact hs.opens
  have haccepts : d.records.Accepts d.chunkSize f := by
    refine ⟨hs.fits, ?_⟩
    rw [hopen, h.chunkSize]
    exact hs.payload
  have hread : d.records.read f =
      (Function.update d.records c (some (r₁.extend c f.payload).1), w.finished) := by
    unfold Records.read
    rw [hopen]
    dsimp only
    rw [hs.chunkStream, hs.finished]
  -- and reads it
  obtain ⟨d₁, hresting, hsize, hrecords, hscan⟩ := h.resting.scan_frame haccepts Demux.obey
  rw [hread] at hrecords hscan
  have hput := h.put hget hlower hs hresting hsize hrecords
  have hleft := h.waiting_written hget hs.waiting
  rw [← hs.bytes] at hscan
  cases hfinished : w.finished with
  | none =>
    rw [hfinished] at hscan hleft
    exact ⟨d₁, [], hput, hscan, hleft⟩
  | some p =>
    rw [hfinished] at hscan hleft
    have huntouched : ∀ x ∈ w.lane.queue, x.started = false :=
      hs.untouched (by rw [hfinished]; rfl)
    exact ⟨d₁.obey p, [p], hput.obey (h.uncut_written hget hfinished hs.waiting huntouched), hscan,
      hleft⟩

/-- Any number of chunks. -/
theorem Feeds.fill {m : Mux} {d : Demux} (h : m.Feeds d) (room : Nat)
    (pieces : List (List UInt8)) :
    ∃ (chunks : List (List UInt8)) (d' : Demux) (ps : List Packet),
      (m.fill room pieces).2 = chunks.reverse ++ pieces ∧
      m.Delivers d chunks.flatten (m.fill room pieces).1 d' ps := by
  fun_induction m.fill room pieces generalizing d with
  | case1 m room pieces hn => exact ⟨[], d, [], rfl, .refl h⟩
  | case2 m room pieces m' bytes hn hroom => exact ⟨[], d, [], rfl, .refl h⟩
  -- the next chunk fits, and the rest is filled after it
  | case3 m room pieces m' bytes hn hroom ih =>
    obtain ⟨d₁, ps, hone⟩ := h.next hn
    obtain ⟨chunks, d', qs, hpieces, hrest⟩ := ih hone.feeds
    refine ⟨bytes :: chunks, d', ps ++ qs, ?_, ?_⟩
    · rw [hpieces, List.reverse_cons, List.append_assoc]
      rfl
    · rw [List.flatten_cons]
      exact hone.trans hrest

/-- **Taking bytes out.** -/
theorem Feeds.serialize {m : Mux} {d : Demux} (h : m.Feeds d) (now budget : Nat) :
    ∃ d' ps, m.Delivers d (m.serialize now budget).2 (m.serialize now budget).1 d' ps := by
  -- no raw bytes wait, so all of the budget is for chunks
  have hm : { m with raw := m.raw.drop budget } = m := by
    rw [h.raw, List.drop_nil, ← h.raw]
  unfold Mux.serialize
  dsimp only
  rw [hm, h.raw, List.take_nil]
  obtain ⟨chunks, d', ps, hpieces, hdelivers⟩ := h.fill (budget - [].length) [[]]
  have hout : (m.fill (budget - ([] : List UInt8).length) [[]]).2.reverse.flatten =
      chunks.flatten := by
    rw [hpieces, List.reverse_append, List.reverse_reverse]
    rfl
  refine ⟨d', ps, ?_⟩
  rw [hout]
  obtain ⟨hfeeds, hscan, hwaiting⟩ := hdelivers
  split
  · exact ⟨hfeeds, hscan, hwaiting⟩
  · -- counting what was sent is not seen by the receiver
    exact ⟨⟨hfeeds.raw, hfeeds.resting, hfeeds.chunkSize, hfeeds.ascending, hfeeds.fits,
      hfeeds.tracks, hfeeds.aborts⟩, hscan, hwaiting⟩

/-- The messages that have left a chunk stream on the way from one sending side to another. They
were in front. -/
def left (m m' : Mux) (c : UInt32) : List Packet :=
  (m.waiting c).take ((m.waiting c).length - (m'.waiting c).length)

/-- What left a queue is what the queue has lost in front. -/
theorem left_eq_of_append {m m' : Mux} {c : UInt32} {ps : List Packet}
    (h : m.waiting c = ps ++ m'.waiting c) : m.left m' c = ps := by
  unfold left
  rw [h, List.length_append, Nat.add_sub_cancel]
  exact List.take_left

/-- What left the lane of a chunk stream is what was delivered on it. -/
theorem Delivers.left_eq {m m' : Mux} {d d' : Demux} {bytes : List UInt8} {ps : List Packet}
    (h : m.Delivers d bytes m' d' ps) (c : UInt32) :
    m.left m' c = ps.filter (·.chunkStream = c) :=
  left_eq_of_append (h.waiting c)

end Mux

/-! ### Runs -/

/-- What the owner of a sending side may do. -/
inductive Action
  | enqueue (chunkStream timestamp : UInt32) (type : UInt8) (streamId : UInt32)
      (payload : List UInt8)
  | serialize (now budget : Nat)
  | reset (streamId : UInt32)
  deriving DecidableEq, Repr

/-- Messages have a chunk stream with a name and a length that fits its field. Aborts come from
resets only. -/
def Action.Allowed : Action → Prop
  | enqueue c _ type _ payload => Nameable c ∧ payload.length < 2 ^ 24 ∧ type ≠ 2
  | serialize _ _ | reset _ => True

instance : (a : Action) → Decidable a.Allowed
  | .enqueue c _ type _ payload =>
    inferInstanceAs (Decidable (Nameable c ∧ payload.length < 2 ^ 24 ∧ type ≠ 2))
  | .serialize _ _ | .reset _ => isTrue trivial

/-- A run of the sending side. Beside what was taken out, it keeps account of messages: each one
that was ever queued on a chunk stream, aborts included, those that were written completely, and
those that a reset dropped. -/
structure Run where
  mux : Mux
  outputs : List (List UInt8)
  queued : UInt32 → List Packet
  written : UInt32 → List Packet
  dropped : UInt32 → List Packet

namespace Run

def initial : Run where
  mux := .initial
  outputs := []
  queued := fun _ => []
  written := fun _ => []
  dropped := fun _ => []

def enqueue (s : Run) (p : Packet) : Run :=
  { s with
    mux := s.mux.enqueue p
    queued := fun c => s.queued c ++ [p].filter (·.chunkStream = c) }

def serialize (s : Run) (now budget : Nat) : Run :=
  { s with
    mux := (s.mux.serialize now budget).1
    outputs := s.outputs ++ [(s.mux.serialize now budget).2]
    written := fun c => s.written c ++ s.mux.left (s.mux.serialize now budget).1 c }

def reset (s : Run) (streamId : UInt32) : Run :=
  { s with
    mux := (s.mux.reset streamId).1
    queued := fun c => s.queued c ++
      ((s.mux.reset streamId).2.map Mux.abortPacket).filter (·.chunkStream = c)
    dropped := fun c => s.dropped c ++ (s.mux.waiting c).filter (·.streamId = streamId) }

def act (s : Run) : Action → Run
  | .enqueue chunkStream timestamp type streamId payload =>
    s.enqueue (.ofPayload timestamp type streamId chunkStream payload)
  | .serialize now budget => s.serialize now budget
  | .reset streamId => s.reset streamId

def actAll (s : Run) (actions : List Action) : Run :=
  actions.foldl act s

/-- Of the messages that were queued on a chunk stream, some were written and the others wait, in
the order in which they were queued, but for those that were dropped. -/
structure Balanced (s : Run) : Prop where
  inOrder : ∀ c, (s.written c ++ s.mux.waiting c).Sublist (s.queued c)
  complete : ∀ c, (s.written c ++ s.mux.waiting c ++ s.dropped c).Perm (s.queued c)

/-- A packet that is queued is still to come. -/
theorem Balanced.enqueue {s : Run} (h : s.Balanced) (p : Packet) : (s.enqueue p).Balanced := by
  have hwaiting := Mux.waiting_enqueue s.mux p
  refine ⟨fun c => ?_, fun c => ?_⟩
  · -- what is queued last waits last
    show (s.written c ++ (s.mux.enqueue p).waiting c).Sublist (s.queued c ++ _)
    rw [hwaiting, ← List.append_assoc]
    exact (h.inOrder c).append (List.Sublist.refl _)
  · show (s.written c ++ (s.mux.enqueue p).waiting c ++ s.dropped c).Perm (s.queued c ++ _)
    rw [hwaiting, ← List.append_assoc, List.append_assoc]
    refine (List.perm_append_comm.append_left _).trans ?_
    rw [← List.append_assoc]
    exact (h.complete c).append_right _

/-- What has left a lane was written. -/
theorem Balanced.serialize {s : Run} (h : s.Balanced) {now budget : Nat}
    (hleft : ∀ c, s.mux.waiting c = s.mux.left (s.mux.serialize now budget).1 c ++
      (s.mux.serialize now budget).1.waiting c) : (s.serialize now budget).Balanced := by
  have hmoved : ∀ c, (s.serialize now budget).written c ++ (s.serialize now budget).mux.waiting c =
      s.written c ++ s.mux.waiting c := by
    intro c
    rw [hleft c, ← List.append_assoc]
    rfl
  refine ⟨fun c => ?_, fun c => ?_⟩
  · rw [hmoved]
    exact h.inOrder c
  · rw [hmoved]
    exact h.complete c

/-- What a reset drops is taken off the packets to come. -/
theorem Balanced.reset {s : Run} (h : s.Balanced) (streamId : UInt32) :
    (s.reset streamId).Balanced := by
  have hwaiting := s.mux.waiting_reset streamId
  refine ⟨fun c => ?_, fun c => ?_⟩
  · show (s.written c ++ (s.mux.reset streamId).1.waiting c).Sublist (s.queued c ++ _)
    rw [hwaiting, ← List.append_assoc]
    refine List.Sublist.append (List.Sublist.trans ?_ (h.inOrder c)) (List.Sublist.refl _)
    exact (List.Sublist.refl _).append List.filter_sublist
  · show (s.written c ++ (s.mux.reset streamId).1.waiting c ++
      (s.dropped c ++ (s.mux.waiting c).filter (·.streamId = streamId))).Perm (s.queued c ++ _)
    -- what waited is dropped or goes on waiting
    have hsplit : ((s.mux.waiting c).filter (·.streamId = streamId) ++
        (s.mux.waiting c).filter (·.streamId ≠ streamId)).Perm (s.mux.waiting c) := by
      have hperm := List.filter_append_perm (·.streamId = streamId) (s.mux.waiting c)
      simpa only [decide_not] using hperm
    rw [hwaiting, List.perm_iff_count]
    intro p
    have hbefore := List.perm_iff_count.1 (h.complete c) p
    have hparts := List.perm_iff_count.1 hsplit p
    simp only [List.count_append] at hbefore hparts ⊢
    omega

/-- The receiver has read all outputs of a run, and the account is right. -/
structure Followed (s : Run) (d : Demux) (ps : List Packet) : Prop where
  feeds : s.mux.Feeds d
  scan : Demux.initial.scan Demux.obey s.outputs.flatten =
    ⟨d, s.outputs.flatten.length, ps, .usedUp⟩
  delivered : ∀ c, ps.filter (·.chunkStream = c) = s.written c
  inOrder : ∀ c, (s.written c ++ s.mux.waiting c).Sublist (s.queued c)
  complete : ∀ c, (s.written c ++ s.mux.waiting c ++ s.dropped c).Perm (s.queued c)

/-- Nothing has been sent, and nothing was received. -/
theorem Followed.initial : Followed .initial .initial [] where
  feeds := .initial
  scan := rfl
  delivered := fun _ => rfl
  inOrder := fun _ => List.Sublist.refl []
  complete := fun _ => List.Perm.refl []

/-- A run that was followed is balanced. -/
theorem Followed.balanced {s : Run} {d : Demux} {ps : List Packet} (h : s.Followed d ps) :
    s.Balanced :=
  ⟨h.inOrder, h.complete⟩

/-- Queueing a packet sends nothing. -/
theorem Followed.enqueue {s : Run} {d : Demux} {ps : List Packet} (h : s.Followed d ps)
    {p : Packet} (hname : Nameable p.chunkStream) (hlength : p.length = p.payload.length)
    (hbound : p.length < 2 ^ 24) (htype : p.type ≠ 2) : (s.enqueue p).Followed d ps := by
  obtain ⟨hinOrder, hcomplete⟩ := h.balanced.enqueue p
  exact ⟨h.feeds.enqueue hname hlength hbound fun h2 => absurd h2 htype, h.scan, h.delivered,
    hinOrder, hcomplete⟩

/-- **What is sent is received**: the bytes of a turn take the reader along. -/
theorem Followed.serialize {s : Run} {d : Demux} {ps : List Packet} (h : s.Followed d ps)
    (now budget : Nat) : ∃ d' ps', (s.serialize now budget).Followed d' ps' := by
  obtain ⟨d', qs, hdelivers⟩ := h.feeds.serialize now budget
  obtain ⟨hinOrder, hcomplete⟩ := h.balanced.serialize fun c => by
    rw [hdelivers.left_eq]
    exact hdelivers.waiting c
  refine ⟨d', ps ++ qs, hdelivers.feeds, ?_, fun c => ?_, hinOrder, hcomplete⟩
  · -- the earlier outputs are scanned first, and then the last one
    have hnext := hdelivers.scan []
    rw [List.append_nil] at hnext
    have hall : (s.serialize now budget).outputs.flatten =
        s.outputs.flatten ++ (s.mux.serialize now budget).2 := by
      rw [Run.serialize, List.flatten_append, List.flatten_singleton]
    rw [hall, Demux.scan_append, h.scan, List.length_append]
    dsimp only
    rw [hnext]
    simp only [Demux.scan, Transcript.after, Nat.add_zero, List.append_nil]
  · rw [List.filter_append, h.delivered, ← hdelivers.left_eq]
    rfl

/-- Resetting a stream sends nothing by itself. -/
theorem Followed.reset {s : Run} {d : Demux} {ps : List Packet} (h : s.Followed d ps)
    (streamId : UInt32) : (s.reset streamId).Followed d ps := by
  obtain ⟨hinOrder, hcomplete⟩ := h.balanced.reset streamId
  exact ⟨h.feeds.reset streamId, h.scan, h.delivered, hinOrder, hcomplete⟩

/-- **The receiver follows every run.** -/
theorem exists_followed {actions : List Action} (h : ∀ a ∈ actions, a.Allowed) :
    ∃ d ps, (initial.actAll actions).Followed d ps := by
  -- by induction on the actions, from any run that is followed
  suffices ∀ (s : Run) (d : Demux) (ps : List Packet), s.Followed d ps →
      ∃ d' ps', (s.actAll actions).Followed d' ps' from
    this initial .initial [] Followed.initial
  induction actions with
  | nil => exact fun s d ps hs => ⟨d, ps, hs⟩
  | cons a rest ih =>
    intro s d ps hs
    obtain ⟨ha, hrest⟩ := List.forall_mem_cons.1 h
    obtain ⟨d₁, ps₁, hone⟩ : ∃ d₁ ps₁, (s.act a).Followed d₁ ps₁ := by
      cases a with
      | enqueue chunkStream timestamp type streamId payload =>
        obtain ⟨hname, hbound, htype⟩ := ha
        exact ⟨d, ps, hs.enqueue hname rfl hbound htype⟩
      | serialize now budget => exact hs.serialize now budget
      | reset streamId => exact ⟨d, ps, hs.reset streamId⟩
    exact ih hrest (s.act a) d₁ ps₁ hone

end Run

/-- **What is written arrives.** Put messages on the sending side, take bytes out under any budgets
and reset message streams, in any order, and let a receiver that obeys chunk sizes and aborts read
what was taken out. It takes every byte without a fault. On each chunk stream it is handed exactly
the messages that were written completely, in the order in which they were queued: of those that
were queued, the others still wait, or were dropped by a reset. A message that waits has bytes to be
sent, unless it was not begun. -/
theorem drainAll_outputs {actions : List Action} (h : ∀ a ∈ actions, a.Allowed) :
    let s := Run.initial.actAll actions
    let t := Demux.initial.drainAll Demux.obey s.outputs
    t.ending = .usedUp ∧ t.taken = s.outputs.flatten.length ∧
      ∀ c, t.packets.filter (·.chunkStream = c) = s.written c ∧
        (s.written c ++ s.mux.waiting c).Sublist (s.queued c) ∧
        (s.written c ++ s.mux.waiting c ++ s.dropped c).Perm (s.queued c) ∧
        ∀ l, s.mux.lanes.get? c = some l → ∀ m ∈ l.queue, m.started = true → m.unsent ≠ [] := by
  intro s t
  obtain ⟨d, ps, hs⟩ := Run.exists_followed h
  -- pulling packets one after the other is one scan of the bytes
  have ht : t = ⟨d, s.outputs.flatten.length, ps, .usedUp⟩ := by
    rw [← hs.scan]
    exact Demux.Sound.initial.drainAll_eq_scan Demux.gentle_obey _
  rw [ht]
  refine ⟨rfl, rfl, fun c => ⟨hs.delivered c, hs.inOrder c, hs.complete c, ?_⟩⟩
  intro l hget m hm hstarted
  -- what has started is the one message in front, and it is not sent out yet
  cases hs.feeds.tracks c l hget with
  | between hqueue =>
    exact absurd (hstarted.symm.trans (hqueue m hm).1) (by decide)
  | within m' rest hqueue hrest _ hunsent =>
    rw [hqueue] at hm
    rcases List.mem_cons.1 hm with rfl | hm
    · exact hunsent
    · exact absurd (hstarted.symm.trans (hrest m hm).1) (by decide)

/-- A chunk size of two is announced. Then a message of five bytes is cut after its first chunk and
dropped, and so is one behind it; a message of another message stream stays in between, and one more
is queued afterwards. The receiver is told to give up the message that was cut. -/
theorem drainAll_outputs_reset :
    let actions : List Action := [.enqueue 2 0 1 0 [0, 0, 0, 2], .serialize 0 146,
      .enqueue 4 10 9 1 [1, 2, 3, 4, 5], .enqueue 4 20 9 7 [6, 7, 8], .enqueue 4 25 9 1 [9],
      .serialize 0 20, .reset 1, .enqueue 4 30 9 7 [10], .serialize 0 1000]
    let s := Run.initial.actAll actions
    let t := Demux.initial.drainAll Demux.obey s.outputs
    (∀ a ∈ actions, a.Allowed) ∧ t.ending = .usedUp ∧
      t.packets.filter (·.chunkStream = 4) = s.written 4 ∧
      s.written 4 = [.ofPayload 20 9 7 4 [6, 7, 8], .ofPayload 30 9 7 4 [10]] ∧
      t.packets.filter (·.chunkStream = 2) =
        [.ofPayload 0 1 0 2 [0, 0, 0, 2], Mux.abortPacket 4] := by
  intro actions s t
  have hactions : ∀ a ∈ actions, a.Allowed := by decide
  obtain ⟨hending, -, hstreams⟩ := drainAll_outputs hactions
  exact ⟨hactions, hending, (hstreams 4).1, by decide +kernel,
    (hstreams 2).1.trans (by decide +kernel)⟩

end LiveIngest.Chunk
