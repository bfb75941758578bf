import LiveIngest.Proofs.Chunk.Queues
import LiveIngest.Proofs.Chunk.Reference

/-!
# What lanes write

The sending side of a chunk stream against the record that its peer keeps of it.

A lane writes chunks: `Lane.frame` is the next one as data, and `Lane.headers_eq` says that its
bytes are the ones sent. `Lane.Tracks` relates a lane to the peer's record. Either nothing of the
waiting messages was sent, and the record has the header that the lane remembers (`between`); or the
first message was cut, and the record holds its header and the payload sent so far (`within`).
Everything that happens to a lane keeps the relation: a message that joins it, a reset, and a peer
that gives a message up.

Main statement: `Tracks.next` — the chunk that a lane writes may come next on the peer's record, it
completes a message exactly when the lane has finished one, and it is the same message.
-/

namespace LiveIngest.Chunk

/-! ### Writing headers -/

def Spelling.shortest (id : UInt32) : Spelling :=
  if id.toNat < 64 then .short else if id.toNat < 320 then .medium else .long

/-- A time in the 24-bit field, unless it does not fit. -/
def TimeField.ofTime (t : UInt32) : TimeField :=
  if extendedMark ≤ t then .extended t else .plain t

/-- Chunk streams that a basic header can name. -/
def Nameable (id : UInt32) : Prop :=
  2 ≤ id.toNat ∧ id.toNat < 65600

instance (id : UInt32) : Decidable (Nameable id) := inferInstanceAs (Decidable (_ ∧ _))

/-- An id that has a name is covered by its shortest spelling. -/
theorem Spelling.covers_shortest {id : UInt32} (h : Nameable id) : (shortest id).Covers id := by
  obtain ⟨hlow, hhigh⟩ := h
  unfold shortest
  split
  · rename_i hshort
    exact ⟨hlow, hshort⟩
  · rename_i hshort
    have h64 : 64 ≤ id.toNat := Nat.le_of_not_lt hshort
    -- an id from 64 on takes two bytes or three
    split
    · rename_i hmedium
      exact ⟨h64, hmedium⟩
    · exact ⟨h64, hhigh⟩

/-- A basic header is written in the shortest spelling. -/
theorem BasicHeader.encode_eq {id : UInt32} (h : Nameable id) (format : UInt8) :
    BasicHeader.encode ⟨format, id⟩ = (Spelling.shortest id).bytes format id := by
  obtain ⟨hlow, hhigh⟩ := h
  unfold BasicHeader.encode Spelling.shortest
  dsimp only
  by_cases hshort : id.toNat < 64
  · rw [if_pos ⟨hlow, hshort⟩, if_pos hshort]
    rfl
  · have h64 : 64 ≤ id.toNat := Nat.le_of_not_lt hshort
    rw [if_neg (fun hboth => hshort hboth.2), if_neg hshort]
    by_cases hmedium : id.toNat < 320
    · rw [if_pos ⟨h64, hmedium⟩, if_pos hmedium]
      rfl
    · -- the id is in range, so writing does not clamp it
      rw [if_neg (fun hboth => hmedium hboth.2), if_neg hmedium, Nat.min_eq_left (by omega)]
      rfl

@[simp] theorem TimeField.value_ofTime (t : UInt32) : (ofTime t).value = t := by
  unfold ofTime
  split <;> rfl

/-- Every time fits its field, with an extension where it has to. -/
theorem TimeField.fits_ofTime (t : UInt32) : (ofTime t).Fits := by
  unfold ofTime
  split
  · trivial
  · rename_i h
    exact UInt32.not_le.1 h

/-- A message header is written as its field and, where it does not fit, its extension. -/
theorem MessageHeader.encode_eq {format : UInt8} (hformat : format ≤ 2) (t : UInt32) (length : Nat)
    (type : UInt8) (streamId : UInt32) :
    MessageHeader.encode ⟨format, t, length, type, streamId⟩ =
      Bytes.bigEndian 3 (TimeField.ofTime t).mark.toNat ++
        (if format ≤ 1 then Bytes.bigEndian 3 length ++ [type] else []) ++
        (if format = 0 then Bytes.littleEndian 4 streamId.toNat else []) ++
        (TimeField.ofTime t).extension := by
  unfold encode isExtended TimeField.ofTime
  rw [if_neg (UInt8.not_lt.2 hformat)]
  -- the time fits the field, or the field announces that it follows
  by_cases hmark : extendedMark ≤ t
  · simp only [hformat, hmark, and_self, decide_true, if_true]
    rfl
  · simp only [hmark, and_false, decide_false, Bool.false_eq_true, if_false]
    rfl

/-! ### The next chunk of a lane -/

namespace Lane

/-- The message header of the next chunk of a message. -/
def heading (l : Lane) (m : Outgoing) : Heading :=
  let p := m.packet
  if m.started then .bare
  else
    match l.previous with
    | some h =>
      if h.streamId = p.streamId ∧ h.timestamp ≤ p.timestamp then
        let distance := TimeField.ofTime (p.timestamp - h.timestamp)
        if h.length = p.length ∧ h.type = p.type then .sameKind distance
        else .sameStream distance p.length p.type
      else .full (.ofTime p.timestamp) p.length p.type p.streamId
    | none => .full (.ofTime p.timestamp) p.length p.type p.streamId

def frame (l : Lane) (m : Outgoing) (size : Nat) : Frame where
  spelling := .shortest l.chunkStream
  chunkStream := l.chunkStream
  heading := l.heading m
  payload := m.unsent.take size

/-- The heading of a message fits if its length does. -/
theorem fits_heading (l : Lane) {m : Outgoing} (h : m.packet.length < 2 ^ 24) :
    (l.heading m).Fits := by
  -- the time fits in each form, so what is left is the length where there is one
  have htime := TimeField.fits_ofTime
  unfold heading
  dsimp only
  split
  · trivial
  · split
    · split
      · split
        · exact htime _
        · exact ⟨htime _, h⟩
      · exact ⟨htime _, h⟩
    · exact ⟨htime _, h⟩

/-- **The headers that a lane writes are those of its frame.** -/
theorem headers_eq {l : Lane} (hl : Nameable l.chunkStream) (m : Outgoing) (size : Nat) :
    l.headers m = (l.frame m size).headers := by
  unfold headers Frame.headers frame heading firstFormat
  dsimp only
  -- a full header, which is written in two cases
  have hfull : ∀ t : UInt32, BasicHeader.encode ⟨0, l.chunkStream⟩ ++
      MessageHeader.encode ⟨0, t, m.packet.length, m.packet.type, m.packet.streamId⟩ =
      (Spelling.shortest l.chunkStream).bytes 0 l.chunkStream ++
        (Heading.full (.ofTime t) m.packet.length m.packet.type m.packet.streamId).fixed ++
        (TimeField.ofTime t).extension := by
    intro t
    rw [BasicHeader.encode_eq hl, MessageHeader.encode_eq (by decide)]
    simp [Heading.fixed]
  split
  · -- the message goes on
    rw [BasicHeader.encode_eq hl]
    simp [Heading.fixed, Heading.extension, Heading.format]
  · cases l.previous with
    | none => exact hfull _
    | some h =>
      dsimp only
      split
      · split
        · dsimp only
          rw [BasicHeader.encode_eq hl, MessageHeader.encode_eq (by decide)]
          simp [Heading.fixed, Heading.extension, Heading.format]
        · dsimp only
          rw [BasicHeader.encode_eq hl, MessageHeader.encode_eq (by decide)]
          simp [Heading.fixed, Heading.extension, Heading.format]
      · exact hfull _

/-- The next chunk of a lane, by the message it belongs to. -/
theorem next?_cons {l : Lane} {m : Outgoing} {rest : List Outgoing} (hq : l.queue = m :: rest)
    {size : Nat} (hsize : 0 < size) :
    l.next? size = some
      (if m.unsent.length ≤ size then
        ⟨{ l with queue := rest, previous := some m.packet.toPacketHeader },
          l.headers m ++ m.unsent.take size, some m.packet⟩
      else
        ⟨{ l with queue := { m with unsent := m.unsent.drop size, started := true } :: rest },
          l.headers m ++ m.unsent.take size, none⟩) := by
  unfold next?
  rw [hq]
  dsimp only
  rw [Nat.max_eq_left hsize]
  -- a lane finishes the message when nothing is left behind the chunk
  by_cases hlast : m.unsent.length ≤ size
  · rw [if_pos hlast, if_pos (by rw [List.drop_of_length_le hlast]; rfl)]
  · rw [if_neg hlast, if_neg]
    rw [List.isEmpty_iff, List.drop_eq_nil_iff]
    exact hlast

/-- A lane that writes nothing has nothing to write. -/
theorem queue_of_next?_none {l : Lane} {size : Nat} (h : l.next? size = none) : l.queue = [] := by
  -- whatever waits in front, some bytes of it are written
  cases hq : l.queue with
  | nil => rfl
  | cons m rest =>
    unfold next? at h
    rw [hq] at h
    dsimp only at h
    split at h
    · exact absurd h (Option.some_ne_none _)
    · exact absurd h (Option.some_ne_none _)

/-- A lane whose messages chunks can carry. -/
structure Fits (l : Lane) (c : UInt32) : Prop where
  chunkStream : l.chunkStream = c
  nameable : Nameable c
  packets : ∀ p ∈ l.waiting, p.chunkStream = c ∧ p.length = p.payload.length ∧ p.length < 2 ^ 24

theorem Fits.fresh {c : UInt32} (h : Nameable c) : (Lane.fresh c).Fits c :=
  ⟨rfl, h, fun _ hp => absurd hp List.not_mem_nil⟩

/-- A lane stays fit for its chunk stream as packets are queued. -/
theorem Fits.enqueue {l : Lane} {c : UInt32} (h : l.Fits c) {p : Packet} (hc : p.chunkStream = c)
    (hlength : p.length = p.payload.length) (hbound : p.length < 2 ^ 24) :
    (l.enqueue p).Fits c := by
  refine ⟨h.chunkStream, h.nameable, fun q hq => ?_⟩
  rw [waiting, Lane.enqueue, List.map_append] at hq
  rcases List.mem_append.1 hq with hq | hq
  · exact h.packets q hq
  · rw [List.map_singleton, List.mem_singleton] at hq
    rw [hq]
    exact ⟨hc, hlength, hbound⟩

end Lane

/-! ### The peer's record -/

/-- The record shows the header of a message. -/
def Record.Shows (r : Record) (h : PacketHeader) : Prop :=
  r.timestamp = h.timestamp ∧ r.length = h.length ∧ r.type = h.type ∧ r.streamId = h.streamId

/-- A record that shows a header gives back the packet. -/
theorem Record.Shows.packet_eq {r : Record} {p : Packet} (h : r.Shows p.toPacketHeader) :
    r.packet p.chunkStream p.payload = p := by
  obtain ⟨htime, hlength, htype, hstream⟩ := h
  rw [packet, htime, hlength, htype, hstream]

/-- Give up the message under way. -/
def Record.giveUp (r : Record) : Record :=
  { r with pending := none }

section Extending

variable {r : Record} {p : Packet} {got unsent : List UInt8}

/-- The record of a message of which `got` came misses the rest of its payload. -/
theorem Record.Shows.missing_eq (h : r.Shows p.toPacketHeader) (hpending : r.pending = some got)
    (hpayload : got ++ unsent = p.payload) (hlength : p.length = p.payload.length) :
    r.missing = unsent.length := by
  have hsum := congrArg List.length hpayload
  rw [List.length_append] at hsum
  rw [missing, soFar, hpending, Option.getD_some, h.2.1]
  omega

/-- The rest of the payload completes the message. -/
theorem Record.Shows.extend_last (h : r.Shows p.toPacketHeader) (hpending : r.pending = some got)
    (hpayload : got ++ unsent = p.payload) (hlength : p.length = p.payload.length) :
    r.extend p.chunkStream unsent = (r.giveUp, some p) := by
  unfold extend
  rw [if_pos (Nat.le_of_eq (h.missing_eq hpending hpayload hlength)), soFar, hpending,
    Option.getD_some, hpayload, h.packet_eq]
  rfl

/-- Less than the rest does not. -/
theorem Record.Shows.extend_cut (h : r.Shows p.toPacketHeader) (hpending : r.pending = some got)
    (hpayload : got ++ unsent = p.payload) (hlength : p.length = p.payload.length) {size : Nat}
    (hsize : size < unsent.length) (c : UInt32) :
    r.extend c (unsent.take size) =
      ({ r with pending := some (got ++ unsent.take size) }, none) := by
  have hmissing := h.missing_eq hpending hpayload hlength
  unfold extend
  rw [if_neg (by rw [hmissing, List.length_take]; omega), soFar, hpending, Option.getD_some]

end Extending

def Outgoing.Untouched (m : Outgoing) : Prop :=
  m.started = false ∧ m.unsent = m.packet.payload

namespace Lane

/-- The lane and the peer's record of its chunk stream agree. -/
inductive Tracks (l : Lane) (r : Option Record) : Prop
  /-- Nothing of the waiting messages was sent, and a header that the lane remembers is on record.
  The peer may hold a message that was dropped in the middle; then nothing is remembered. -/
  | between (hqueue : ∀ m ∈ l.queue, m.Untouched)
      (hprevious : ∀ h, l.previous = some h → ∃ r', r = some r' ∧ r'.Shows h)
  /-- The first message was cut. -/
  | within (m : Outgoing) (rest : List Outgoing) (hqueue : l.queue = m :: rest)
      (hrest : ∀ x ∈ rest, x.Untouched) (hstarted : m.started = true) (hunsent : m.unsent ≠ [])
      (r' : Record) (got : List UInt8) (hrecord : r = some r')
      (hshows : r'.Shows m.packet.toPacketHeader) (hpending : r'.pending = some got)
      (hpayload : got ++ m.unsent = m.packet.payload)

/-- A lane that nothing was sent on asks nothing of the record. -/
theorem Tracks.fresh (c : UInt32) (r : Option Record) : (Lane.fresh c).Tracks r :=
  .between (fun _ hx => absurd hx List.not_mem_nil)
    fun _ hh => absurd hh.symm (Option.some_ne_none _)

/-- A message that joins a lane waits behind the others. -/
theorem Tracks.enqueue {l : Lane} {r : Option Record} (h : l.Tracks r) (p : Packet) :
    (l.enqueue p).Tracks r := by
  have hnew : Outgoing.Untouched ⟨p, p.payload, false⟩ := ⟨rfl, rfl⟩
  -- the new message comes last and is untouched; the one in front may be under way
  cases h with
  | between hqueue hprevious =>
    refine .between (fun m hm => ?_) hprevious
    rcases List.mem_append.1 hm with hm | hm
    · exact hqueue m hm
    · rw [List.mem_singleton.1 hm]
      exact hnew
  | within m rest hqueue hrest hstarted hunsent r' got hrecord hshows hpending hpayload =>
    refine .within m (rest ++ [⟨p, p.payload, false⟩]) ?_ (fun x hx => ?_) hstarted hunsent r' got
      hrecord hshows hpending hpayload
    · rw [Lane.enqueue, hqueue, List.cons_append]
    · rcases List.mem_append.1 hx with hx | hx
      · exact hrest x hx
      · rw [List.mem_singleton.1 hx]
        exact hnew

/-- Dropping a message that was cut makes the lane forget; dropping others leaves it as it is. -/
theorem Tracks.reset {l : Lane} {r : Option Record} (h : l.Tracks r) (streamId : UInt32) :
    (l.reset streamId).1.Tracks r ∧
      ((l.reset streamId).2 = true → ∀ m ∈ (l.reset streamId).1.queue, m.started = false) := by
  unfold Lane.reset
  cases h with
  | between hqueue hprevious =>
    have hkept : ∀ m ∈ l.queue.filter (·.packet.streamId ≠ streamId), m.Untouched :=
      fun m hm => hqueue m (List.mem_filter.1 hm).1
    refine ⟨.between hkept fun h hh => hprevious h ?_, fun _ m hm => (hkept m hm).1⟩
    exact (Option.ite_none_left_eq_some.1 hh).2
  | within m rest hqueue hrest hstarted hunsent r' got hrecord hshows hpending hpayload =>
    have hkept : ∀ x ∈ rest.filter (·.packet.streamId ≠ streamId), x.Untouched :=
      fun x hx => hrest x (List.mem_filter.1 hx).1
    rw [hqueue]
    dsimp only
    by_cases hcut : m.packet.streamId = streamId
    · -- the message that was cut is dropped, and the header is forgotten
      rw [List.filter_cons_of_neg (by simpa using hcut)]
      refine ⟨.between hkept fun h hh => ?_, fun _ x hx => (hkept x hx).1⟩
      simp [hstarted, hcut] at hh
    · -- it stays in front, and the record goes with it
      rw [List.filter_cons_of_pos (by simpa using hcut)]
      refine ⟨.within m _ rfl hkept hstarted hunsent r' got hrecord hshows hpending hpayload, ?_⟩
      simp [hcut]

/-- The peer may give up what it holds of a message that the lane is not in the middle of. -/
theorem Tracks.giveUp {l : Lane} {r : Option Record} (h : l.Tracks r)
    (hqueue : ∀ m ∈ l.queue, m.started = false) : l.Tracks (r.map Record.giveUp) := by
  cases h with
  | between huntouched hprevious =>
    refine .between huntouched fun h hh => ?_
    obtain ⟨r', rfl, hshows⟩ := hprevious h hh
    exact ⟨r'.giveUp, rfl, hshows⟩
  | within m rest hcons _ hstarted =>
    have hhead : m.started = false := hqueue m (hcons ▸ List.mem_cons_self)
    exact absurd (hstarted.symm.trans hhead) (by decide)

/-- **Opening.** The headers of the next chunk bring the peer's record to the message they belong
to, with the payload that was sent before. -/
theorem Tracks.exists_open {l : Lane} {r : Option Record} (h : l.Tracks r) {m : Outgoing}
    {rest : List Outgoing} (hq : l.queue = m :: rest) :
    ∃ r₁ got, Record.open? r (l.heading m) = some r₁ ∧ r₁.Shows m.packet.toPacketHeader ∧
      r₁.pending = some got ∧ got ++ m.unsent = m.packet.payload ∧ ∀ x ∈ rest, x.Untouched := by
  cases h with
  | between hqueue hprevious =>
    rw [hq] at hqueue
    obtain ⟨hstarted, hunsent⟩ := hqueue m List.mem_cons_self
    have hrest : ∀ x ∈ rest, x.Untouched := fun x hx => hqueue x (List.mem_cons_of_mem _ hx)
    have hpayload : [] ++ m.unsent = m.packet.payload := hunsent
    unfold heading
    rw [hstarted]
    dsimp only
    rw [if_neg Bool.false_ne_true]
    -- a full header leans on nothing
    have hfull : ∃ r₁ got, Record.open? r (.full (.ofTime m.packet.timestamp) m.packet.length
        m.packet.type m.packet.streamId) = some r₁ ∧ r₁.Shows m.packet.toPacketHeader ∧
        r₁.pending = some got ∧ got ++ m.unsent = m.packet.payload ∧ ∀ x ∈ rest, x.Untouched :=
      ⟨_, [], rfl, ⟨TimeField.value_ofTime _, rfl, rfl, rfl⟩, rfl, hpayload, hrest⟩
    cases hprev : l.previous with
    | none => exact hfull
    | some h =>
      dsimp only
      split
      · rename_i hlean
        obtain ⟨r', rfl, htime, hlength, htype, hstream⟩ := hprevious h hprev
        -- the distance leads from the time on record to the time of the message
        have hdistance : r'.timestamp +
            (TimeField.ofTime (m.packet.timestamp - h.timestamp)).value = m.packet.timestamp := by
          rw [TimeField.value_ofTime, htime, UInt32.add_comm, UInt32.sub_add_cancel]
        split
        · rename_i hkind
          exact ⟨_, [], rfl, ⟨hdistance, hlength.trans hkind.1, htype.trans hkind.2,
            hstream.trans hlean.1⟩, rfl, hpayload, hrest⟩
        · exact ⟨_, [], rfl, ⟨hdistance, rfl, rfl, hstream.trans hlean.1⟩, rfl, hpayload, hrest⟩
      · exact hfull
  | within m' rest' hqueue hrest hstarted hunsent r' got hrecord hshows hpending hpayload =>
    -- a header of format 3 leaves the record as it is
    obtain ⟨rfl, rfl⟩ := List.cons.inj (hq.symm.trans hqueue)
    refine ⟨r', got, ?_, hshows, hpending, hpayload, hrest⟩
    unfold heading
    rw [if_pos hstarted, hrecord, Record.open?, Option.map_some, hpending]

/-- A chunk that a lane writes, as the peer takes it: `f` is the chunk, and `r₁` the record that its
headers open. -/
structure Sends (l : Lane) (r : Option Record) (size : Nat) (c : UInt32) (w : Written) (f : Frame)
    (r₁ : Record) : Prop where
  bytes : w.bytes = f.bytes
  fits : f.Fits
  chunkStream : f.chunkStream = c
  opens : Record.open? r f.heading = some r₁
  payload : f.payload.length = min size r₁.missing
  /-- The peer is handed a message exactly when the lane has finished it. -/
  finished : (r₁.extend c f.payload).2 = w.finished
  tracks : w.lane.Tracks (some (r₁.extend c f.payload).1)
  lane : w.lane.Fits c
  waiting : l.waiting = w.finished.toList ++ w.lane.waiting
  untouched : w.finished.isSome → ∀ x ∈ w.lane.queue, x.started = false

/-- **One chunk.** What a lane writes is a chunk that may come next on the peer's record, and lane
and record agree again behind it. -/
theorem Tracks.next {l : Lane} {r : Option Record} (h : l.Tracks r) {c : UInt32} (hl : l.Fits c)
    {size : Nat} (hsize : 0 < size) {w : Written} (hw : l.next? size = some w) :
    ∃ (f : Frame) (r₁ : Record), l.Sends r size c w f r₁ := by
  cases hq : l.queue with
  | nil =>
    rw [next?, hq] at hw
    exact absurd hw.symm (Option.some_ne_none _)
  | cons m rest =>
    obtain ⟨r₁, got, hopen, hshows, hpending, hpayload, hrest⟩ := h.exists_open hq
    have hwaiting : l.waiting = m.packet :: rest.map (·.packet) := by
      rw [waiting, hq, List.map_cons]
    obtain ⟨hchunk, hannounced, hbound⟩ := hl.packets m.packet (hwaiting ▸ List.mem_cons_self)
    have hmissing : r₁.missing = m.unsent.length :=
      hshows.missing_eq hpending hpayload hannounced
    have hnameable : Nameable l.chunkStream := hl.chunkStream ▸ hl.nameable
    have hfits : (l.frame m size).Fits :=
      ⟨Spelling.covers_shortest hnameable, l.fits_heading hbound⟩
    have hbytes : l.headers m ++ m.unsent.take size = (l.frame m size).bytes := by
      rw [headers_eq hnameable m size]
      rfl
    have htaken : (l.frame m size).payload.length = min size r₁.missing := by
      rw [hmissing]
      exact List.length_take
    refine ⟨l.frame m size, r₁, ?_⟩
    rw [next?_cons hq hsize] at hw
    by_cases hlast : m.unsent.length ≤ size
    · -- the last chunk
      rw [if_pos hlast] at hw
      obtain rfl := Option.some.inj hw
      have hextend : r₁.extend c (l.frame m size).payload = (r₁.giveUp, some m.packet) := by
        rw [frame, List.take_of_length_le hlast, ← hchunk]
        exact hshows.extend_last hpending hpayload hannounced
      refine ⟨hbytes, hfits, hl.chunkStream, hopen, htaken, ?_, ?_,
        ⟨hl.chunkStream, hl.nameable, fun p hp => ?_⟩, hwaiting, fun _ x hx => (hrest x hx).1⟩
      · rw [hextend]
      · -- the header of the message is remembered, and it is on record
        rw [hextend]
        refine .between hrest fun h hh => ?_
        rw [← Option.some.inj hh]
        exact ⟨r₁.giveUp, rfl, hshows⟩
      · exact hl.packets p (hwaiting ▸ List.mem_cons_of_mem _ hp)
    · -- the message is cut, and there is more of it
      rw [if_neg hlast] at hw
      obtain rfl := Option.some.inj hw
      have hextend : r₁.extend c (l.frame m size).payload =
          ({ r₁ with pending := some (got ++ m.unsent.take size) }, none) :=
        hshows.extend_cut hpending hpayload hannounced (Nat.lt_of_not_le hlast) c
      refine ⟨hbytes, hfits, hl.chunkStream, hopen, htaken, ?_, ?_,
        ⟨hl.chunkStream, hl.nameable, fun p hp => ?_⟩, hwaiting, fun hsome => by cases hsome⟩
      · rw [hextend]
      · rw [hextend]
        refine .within _ rest rfl hrest rfl ?_ _ _ rfl hshows rfl ?_
        · rw [ne_eq, List.drop_eq_nil_iff]
          exact hlast
        · rw [List.append_assoc, List.take_append_drop]
          exact hpayload
      · exact hl.packets p (hwaiting ▸ hp)

end Lane

end LiveIngest.Chunk
