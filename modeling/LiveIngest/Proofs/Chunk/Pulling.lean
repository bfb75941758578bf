import LiveIngest.Proofs.Chunk.Delivery

/-!
# How output is taken out

What goes out of a sending side, told apart into its parts. A **parcel** is a chunk together with
the message that it carries a part of. `Served` says which parcels may go out of lanes, one after
the other, and what is left: each parcel is the next one of the lowest lane that has something to
send. `Mux.Sends` puts the raw bytes in front of them.

Both relations leave no choice. Of two ways to take something out, one is the beginning of the other
(`Mux.Sends.compare`), so budgets decide how much goes out, and never what.

Main statement: `Mux.pulls_wire` — bytes that are taken out under any budgets, one after the other,
are the beginning of what a single large budget gives, and they are whole parcels behind the raw
bytes.
-/

namespace LiveIngest.Chunk

/-- Bytes are added to the total, whatever becomes of the window of the meter. -/
theorem Meter.totalBytes_record (m : Meter) (now bytes : Nat) :
    (m.record now bytes).totalBytes = m.totalBytes + bytes := by
  unfold record
  dsimp only
  split <;> rfl

/-! ### Parcels -/

/-- A chunk, and the message that it carries a part of. -/
structure Parcel where
  chunkStream : UInt32
  packet : Packet
  headers : List UInt8
  part : List UInt8
  isFirst : Bool
  isLast : Bool
  deriving DecidableEq, Repr

namespace Parcel

def bytes (p : Parcel) : List UInt8 :=
  p.headers ++ p.part

/-- The message, if this is its last chunk. -/
def finished? (p : Parcel) : Option Packet :=
  if p.isLast then some p.packet else none

end Parcel

/-! ### Headers -/

/-- A basic header takes one to three bytes. -/
theorem BasicHeader.length_encode (h : BasicHeader) :
    1 ≤ h.encode.length ∧ h.encode.length ≤ 3 := by
  unfold encode
  dsimp only
  split
  · exact ⟨Nat.le_refl 1, by simp⟩
  · split
    · exact ⟨by simp, by simp⟩
    · rw [List.length_cons, Bytes.length_littleEndian]
      exact ⟨by decide, by decide⟩

/-- Eleven bytes, and an extended timestamp. -/
theorem MessageHeader.length_encode_le (h : MessageHeader) : h.encode.length ≤ 15 := by
  unfold encode
  dsimp only
  split
  · exact Nat.zero_le _
  · simp only [List.length_append, Bytes.length_bigEndian]
    -- 3 bytes of time, 3 of length, 1 of type, 4 of stream and 4 of extension at most
    have hkind :
        (if h.format ≤ 1 then Bytes.bigEndian 3 h.length ++ [h.type] else []).length ≤ 4 := by
      split
      · rw [List.length_append, Bytes.length_bigEndian, List.length_singleton]
      · exact Nat.zero_le _
    have hstream :
        (if h.format = 0 then Bytes.littleEndian 4 h.streamId.toNat else []).length ≤ 4 := by
      split
      · rw [Bytes.length_littleEndian]
      · exact Nat.zero_le _
    have htime :
        (if h.isExtended then Bytes.bigEndian 4 h.timestamp.toNat else []).length ≤ 4 := by
      split
      · rw [Bytes.length_bigEndian]
      · exact Nat.zero_le _
    omega

namespace Lane

/-- **No headers are larger than announced**, and none are empty. -/
theorem length_headers (l : Lane) (m : Outgoing) :
    1 ≤ (l.headers m).length ∧ (l.headers m).length ≤ maxHeaderSize := by
  unfold headers maxHeaderSize
  split
  · have hbasic := BasicHeader.length_encode ⟨3, l.chunkStream⟩
    omega
  · dsimp only
    rw [List.length_append]
    have hbasic := BasicHeader.length_encode
      ⟨(firstFormat l.previous m.packet.toPacketHeader).1, l.chunkStream⟩
    have hmessage := MessageHeader.length_encode_le
      { format := (firstFormat l.previous m.packet.toPacketHeader).1
        timestamp := (firstFormat l.previous m.packet.toPacketHeader).2
        length := m.packet.length, type := m.packet.type, streamId := m.packet.streamId }
    omega

/-- The next parcel of the lane of a chunk stream; `m` is the message in front. -/
def parcel (l : Lane) (chunkStream : UInt32) (m : Outgoing) (size : Nat) : Parcel where
  chunkStream
  packet := m.packet
  headers := l.headers m
  part := m.unsent.take size
  isFirst := !m.started
  isLast := m.unsent.length ≤ size

/-- The lane behind its next parcel; `rest` waits behind the message in front. -/
def behind (l : Lane) (m : Outgoing) (rest : List Outgoing) (size : Nat) : Lane :=
  if m.unsent.length ≤ size then
    { l with queue := rest, previous := some m.packet.toPacketHeader }
  else
    { l with queue := { m with unsent := m.unsent.drop size, started := true } :: rest }

/-- A lane with a message in front sends that message's next parcel. -/
theorem next?_eq_parcel {l : Lane} {m : Outgoing} {rest : List Outgoing} (hq : l.queue = m :: rest)
    {size : Nat} (hsize : 0 < size) (c : UInt32) :
    l.next? size = some
      ⟨l.behind m rest size, (l.parcel c m size).bytes, (l.parcel c m size).finished?⟩ := by
  rw [next?_cons hq hsize]
  unfold behind Parcel.finished? parcel
  by_cases hlast : m.unsent.length ≤ size
  · simp only [hlast, if_true, decide_true]
    rfl
  · simp only [hlast, if_false, decide_false, Bool.false_eq_true]
    rfl

/-- A parcel has at least a basic header. -/
theorem bytes_parcel_ne_nil (l : Lane) (c : UInt32) (m : Outgoing) (size : Nat) :
    (l.parcel c m size).bytes ≠ [] := by
  have hlength := (l.length_headers m).1
  intro h
  rw [show l.headers m = [] from (List.append_eq_nil_iff.1 h).1] at hlength
  exact absurd hlength (by decide)

/-- A chunk has its headers, under whatever size it is written. -/
theorem bytes_next?_ne_nil {l : Lane} {size : Nat} {w : Written} (h : l.next? size = some w) :
    w.bytes ≠ [] := by
  -- a size of zero counts as one
  have hpos : l.next? size = l.next? (max size 1) := by
    unfold next?
    rw [max_eq_left (Nat.le_max_right size 1)]
  cases hq : l.queue with
  | nil =>
    rw [next?, hq] at h
    cases h
  | cons m rest =>
    rw [hpos, next?_eq_parcel hq (Nat.lt_of_lt_of_le Nat.one_pos (Nat.le_max_right size 1))
      l.chunkStream] at h
    obtain rfl := Option.some.inj h
    exact l.bytes_parcel_ne_nil l.chunkStream m _

/-- A parcel is at most a chunk and the longest header. -/
theorem length_bytes_parcel_le (l : Lane) (c : UInt32) (m : Outgoing) (size : Nat) :
    (l.parcel c m size).bytes.length ≤ size + maxHeaderSize := by
  have hheaders := (l.length_headers m).2
  have hpart : (m.unsent.take size).length ≤ size := List.length_take_le _ _
  show (l.headers m ++ m.unsent.take size).length ≤ _
  rw [List.length_append]
  omega

end Lane

theorem bytes_nextOfLanes?_ne_nil {size : Nat} {lanes lanes' : Keyed UInt32 Lane}
    {bytes : List UInt8} {finished : Option Packet}
    (h : nextOfLanes? size lanes = some (lanes', bytes, finished)) : bytes ≠ [] := by
  induction lanes generalizing lanes' with
  | nil => cases h
  | cons e rest ih =>
    unfold nextOfLanes? at h
    split at h
    · rename_i w hw
      cases h
      exact Lane.bytes_next?_ne_nil hw
    · obtain ⟨⟨rest', written⟩, hrest, he⟩ := Option.map_eq_some_iff.1 h
      cases he
      exact ih hrest

/-! ### Parcels one after the other -/

/-- `parcels` may go out of `lanes` one after the other, under a chunk size that changes with the
messages that announce it. Each one is the next parcel of the lowest lane that has something to
send. What is left is told at the end. -/
inductive Served : Keyed UInt32 Lane → Nat → List Parcel → Keyed UInt32 Lane → Nat → Prop
  | nil (lanes : Keyed UInt32 Lane) (size : Nat) : Served lanes size [] lanes size
  | cons {lanes lanes' : Keyed UInt32 Lane} {size size' : Nat} {c : UInt32} {l : Lane}
      {m : Outgoing} {rest : List Outgoing} {parcels : List Parcel}
      (hget : lanes.get? c = some l) (hqueue : l.queue = m :: rest)
      (hlower : ∀ c' l', c' < c → lanes.get? c' = some l' → l'.queue = [])
      (h : Served (lanes.put c (l.behind m rest size))
        (Mux.sizeAfter size (l.parcel c m size).finished?) parcels lanes' size') :
      Served lanes size (l.parcel c m size :: parcels) lanes' size'

namespace Served

variable {lanes lanes₁ lanes₂ : Keyed UInt32 Lane} {size size₁ size₂ : Nat}
  {parcels parcels₁ parcels₂ : List Parcel}

/-- Parcels may be served one part after the other. -/
theorem trans (h : Served lanes size parcels₁ lanes₁ size₁)
    (h' : Served lanes₁ size₁ parcels₂ lanes₂ size₂) :
    Served lanes size (parcels₁ ++ parcels₂) lanes₂ size₂ := by
  induction h with
  | nil => exact h'
  | cons hget hqueue hlower _ ih => exact .cons hget hqueue hlower (ih h')

/-- Every parcel has bytes. -/
theorem eq_nil_of_flatMap_eq_nil (h : Served lanes size parcels lanes₁ size₁)
    (hbytes : parcels.flatMap Parcel.bytes = []) : parcels = [] := by
  cases h with
  | nil => rfl
  | cons => exact absurd (List.append_eq_nil_iff.1 hbytes).1 (Lane.bytes_parcel_ne_nil _ _ _ _)

/-- Lanes that have nothing to send send nothing. -/
theorem eq_nil_of_hasData (h : Served lanes size parcels lanes₁ size₁)
    (hdata : (lanes.any fun l => l.2.hasData) = false) : parcels = [] := by
  cases h with
  | nil => rfl
  | @cons _ _ _ _ c l m rest parcels hget hqueue =>
    -- the lane that goes first would have nothing to send
    have hlane := List.any_eq_false.1 hdata _ (Keyed.mem_of_get? hget)
    rw [Lane.hasData, hqueue] at hlane
    exact absurd rfl hlane

/-- Where nothing goes out, nothing changes. -/
theorem eq_of_nil (h : Served lanes size [] lanes₁ size₁) : lanes₁ = lanes ∧ size₁ = size := by
  cases h
  exact ⟨rfl, rfl⟩

/-- **There is no choice.** Of two lists of parcels that may go out, one is the beginning of the
other. -/
theorem compare (h₁ : Served lanes size parcels₁ lanes₁ size₁)
    (h₂ : Served lanes size parcels₂ lanes₂ size₂) :
    (∃ more, parcels₂ = parcels₁ ++ more ∧ Served lanes₁ size₁ more lanes₂ size₂) ∨
      ∃ more, parcels₁ = parcels₂ ++ more ∧ Served lanes₂ size₂ more lanes₁ size₁ := by
  induction h₁ generalizing parcels₂ with
  | nil => exact Or.inl ⟨parcels₂, rfl, h₂⟩
  | @cons lanes lanes₁ size size₁ c l m rest parcels₁ hget hqueue hlower h₁ ih =>
    cases h₂ with
    | nil => exact Or.inr ⟨_, rfl, .cons hget hqueue hlower h₁⟩
    | @cons _ _ _ _ c' l' m' rest' parcels₂ hget' hqueue' hlower' h₂ =>
      -- the lowest lane that has something to send is one and the same
      have hc : c = c' := by
        refine UInt32.le_antisymm (UInt32.not_lt.1 fun hlt => ?_) (UInt32.not_lt.1 fun hlt => ?_)
        · exact absurd (hqueue'.symm.trans (hlower c' l' hlt hget')) (List.cons_ne_nil _ _)
        · exact absurd (hqueue.symm.trans (hlower' c l hlt hget)) (List.cons_ne_nil _ _)
      subst hc
      obtain rfl := Option.some.inj (hget.symm.trans hget')
      obtain ⟨rfl, rfl⟩ := List.cons.inj (hqueue.symm.trans hqueue')
      rcases ih h₂ with ⟨more, rfl, hmore⟩ | ⟨more, rfl, hmore⟩
      · exact Or.inl ⟨more, rfl, hmore⟩
      · exact Or.inr ⟨more, rfl, hmore⟩

end Served

/-! ### Taking out -/

namespace Mux

/-- The chunk size stays positive: a size of zero counts as one. -/
theorem sizeAfter_pos {size : Nat} (h : 0 < size) (sent : Option Packet) :
    0 < sizeAfter size sent := by
  unfold sizeAfter
  split
  · split
    · split
      · exact Nat.lt_of_lt_of_le Nat.one_pos (Nat.le_max_right _ _)
      · exact h
    · exact h
  · exact h

/-- The lanes are in order, and a chunk takes a byte at least. -/
structure Orderly (m : Mux) : Prop where
  ascending : m.lanes.Ascending
  chunkSize_pos : 0 < m.chunkSize

/-- From `m`, the raw bytes `raw` and then `parcels` went out, and `m'` is left. -/
structure Sends (m : Mux) (raw : List UInt8) (parcels : List Parcel) (m' : Mux) : Prop where
  raw_eq : m.raw = raw ++ m'.raw
  /-- No parcel goes out while raw bytes wait. -/
  rawFirst : parcels ≠ [] → m'.raw = []
  served : Served m.lanes m.chunkSize parcels m'.lanes m'.chunkSize

/-- What goes out, as bytes. -/
def wire (raw : List UInt8) (parcels : List Parcel) : List UInt8 :=
  raw ++ parcels.flatMap Parcel.bytes

namespace Sends

variable {m m₁ m₂ : Mux} {raw raw₁ raw₂ : List UInt8} {parcels parcels₁ parcels₂ : List Parcel}

theorem refl (m : Mux) : m.Sends [] [] m :=
  ⟨rfl, fun h => absurd rfl h, .nil _ _⟩

/-- Taking out goes on where it stopped, and the bytes are put together. -/
theorem trans (h₁ : m.Sends raw₁ parcels₁ m₁) (h₂ : m₁.Sends raw₂ parcels₂ m₂) :
    m.Sends (raw₁ ++ raw₂) (parcels₁ ++ parcels₂) m₂ ∧
      wire (raw₁ ++ raw₂) (parcels₁ ++ parcels₂) = wire raw₁ parcels₁ ++ wire raw₂ parcels₂ := by
  -- behind a parcel no raw bytes are left
  have hraw : parcels₁ ≠ [] → raw₂ = [] ∧ m₂.raw = [] := fun hne =>
    List.append_eq_nil_iff.1 (h₂.raw_eq.symm.trans (h₁.rawFirst hne))
  refine ⟨⟨?_, fun hne => ?_, h₁.served.trans h₂.served⟩, ?_⟩
  · rw [h₁.raw_eq, h₂.raw_eq, List.append_assoc]
  · by_cases hfirst : parcels₁ = []
    · rw [hfirst, List.nil_append] at hne
      exact h₂.rawFirst hne
    · exact (hraw hfirst).2
  · unfold wire
    by_cases hfirst : parcels₁ = []
    · simp [hfirst]
    · simp [(hraw hfirst).1]

/-- Where nothing goes out, nothing is missing. -/
theorem eq_of_wire_eq_nil (h : m.Sends raw parcels m₁) (hwire : wire raw parcels = []) :
    m₁.raw = m.raw ∧ m₁.lanes = m.lanes ∧ m₁.chunkSize = m.chunkSize := by
  obtain ⟨hraw, hparcels⟩ := List.append_eq_nil_iff.1 hwire
  have heq := h.raw_eq
  rw [hraw, List.nil_append] at heq
  have hserved := h.served
  rw [hserved.eq_nil_of_flatMap_eq_nil hparcels] at hserved
  exact ⟨heq.symm, hserved.eq_of_nil⟩

/-- A way that stops within the raw bytes is the beginning of every way that gets behind them. -/
theorem compare_of_nil (h₁ : m.Sends raw₁ [] m₁) (h₂ : m.Sends raw₂ parcels₂ m₂)
    (hne : parcels₂ ≠ []) :
    ∃ raw parcels, wire raw₂ parcels₂ = wire raw₁ [] ++ wire raw parcels ∧
      m₁.Sends raw parcels m₂ := by
  have hall : raw₂ = raw₁ ++ m₁.raw := by
    rw [← h₁.raw_eq, h₂.raw_eq, h₂.rawFirst hne, List.append_nil]
  obtain ⟨hlanes, hsize⟩ := h₁.served.eq_of_nil
  refine ⟨m₁.raw, parcels₂, ?_, ?_, fun _ => h₂.rawFirst hne, ?_⟩
  · rw [hall, wire, wire, wire, List.flatMap_nil, List.append_nil, List.append_assoc]
  · rw [h₂.rawFirst hne, List.append_nil]
  · rw [hlanes, hsize]
    exact h₂.served

/-- **Budgets do not decide what goes out.** Of two ways to take something out, one is the beginning
of the other. -/
theorem compare (h₁ : m.Sends raw₁ parcels₁ m₁) (h₂ : m.Sends raw₂ parcels₂ m₂) :
    (∃ raw parcels, wire raw₂ parcels₂ = wire raw₁ parcels₁ ++ wire raw parcels ∧
      m₁.Sends raw parcels m₂) ∨
    ∃ raw parcels, wire raw₁ parcels₁ = wire raw₂ parcels₂ ++ wire raw parcels ∧
      m₂.Sends raw parcels m₁ := by
  by_cases hne₁ : parcels₁ = [] <;> by_cases hne₂ : parcels₂ = []
  · -- both stop within the raw bytes
    subst hne₁ hne₂
    obtain ⟨hlanes₁, hsize₁⟩ := h₁.served.eq_of_nil
    obtain ⟨hlanes₂, hsize₂⟩ := h₂.served.eq_of_nil
    rcases List.append_eq_append_iff.1 (h₁.raw_eq.symm.trans h₂.raw_eq) with
      ⟨more, hraw, hleft⟩ | ⟨more, hraw, hleft⟩
    · refine Or.inl ⟨more, [], by simp [wire, hraw], hleft, fun h => absurd rfl h, ?_⟩
      rw [hlanes₁, hsize₁, hlanes₂, hsize₂]
      exact .nil _ _
    · refine Or.inr ⟨more, [], by simp [wire, hraw], hleft, fun h => absurd rfl h, ?_⟩
      rw [hlanes₁, hsize₁, hlanes₂, hsize₂]
      exact .nil _ _
  · subst hne₁
    exact Or.inl (compare_of_nil h₁ h₂ hne₂)
  · subst hne₂
    exact Or.inr (compare_of_nil h₂ h₁ hne₁)
  · -- both have taken all raw bytes
    have hraw₁ := h₁.raw_eq
    have hraw₂ := h₂.raw_eq
    rw [h₁.rawFirst hne₁, List.append_nil] at hraw₁
    rw [h₂.rawFirst hne₂, List.append_nil] at hraw₂
    obtain rfl : raw₁ = raw₂ := hraw₁.symm.trans hraw₂
    rcases h₁.served.compare h₂.served with ⟨more, rfl, hmore⟩ | ⟨more, rfl, hmore⟩
    · refine Or.inl ⟨[], more, by simp [wire], ?_, fun _ => h₂.rawFirst hne₂, hmore⟩
      rw [h₁.rawFirst hne₁, h₂.rawFirst hne₂]
      rfl
    · refine Or.inr ⟨[], more, by simp [wire], ?_, fun _ => h₁.rawFirst hne₁, hmore⟩
      rw [h₁.rawFirst hne₁, h₂.rawFirst hne₂]
      rfl

end Sends

/-! ### What a call takes out -/

/-- Nothing is queued at first. -/
theorem Orderly.initial : Mux.initial.Orderly :=
  ⟨.nil, by decide⟩

/-- Raw bytes are queued beside the lanes. -/
theorem Orderly.pushRaw {m : Mux} (h : m.Orderly) (bytes : List UInt8) :
    (m.pushRaw bytes).Orderly :=
  ⟨h.ascending, h.chunkSize_pos⟩

/-- A queued packet goes to its own lane. -/
theorem Orderly.enqueue {m : Mux} (h : m.Orderly) (p : Packet) : (m.enqueue p).Orderly :=
  ⟨h.ascending.put _ _, h.chunkSize_pos⟩

/-- A reset leaves what is queued in order. -/
theorem Orderly.reset {m : Mux} (h : m.Orderly) (streamId : UInt32) :
    (m.reset streamId).1.Orderly := by
  rw [reset_eq]
  have hlanes : (m.resetLanes streamId).Orderly :=
    ⟨h.ascending.mapValues fun l => (l.reset streamId).1, h.chunkSize_pos⟩
  generalize m.resetLanes streamId = m₁ at hlanes ⊢
  induction (m.reset streamId).2 generalizing m₁ with
  | nil => exact hlanes
  | cons a rest ih => exact ih _ (hlanes.enqueue _)

/-- **The next chunk** is the next parcel of the lowest lane that has something to send. -/
theorem Orderly.next {m m' : Mux} (h : m.Orderly) {bytes : List UInt8}
    (hn : m.next? = some (m', bytes)) :
    m'.Orderly ∧ m'.raw = m.raw ∧ m'.meter = m.meter ∧
      ∃ p : Parcel, bytes = p.bytes ∧ p.bytes.length ≤ m.chunkSize + maxHeaderSize ∧
        Served m.lanes m.chunkSize [p] m'.lanes m'.chunkSize := by
  unfold next? at hn
  obtain ⟨⟨lanes, written, finished⟩, hlanes, he⟩ := Option.map_eq_some_iff.1 hn
  obtain ⟨rfl, rfl⟩ := Prod.mk.inj he
  obtain ⟨c, l, w, hget, hw, rfl, rfl, rfl, hlower⟩ := nextOfLanes?_eq_some h.ascending hlanes
  -- the lane that is served has a message in front
  cases hqueue : l.queue with
  | nil =>
    rw [Lane.next?, hqueue] at hw
    exact absurd hw.symm (Option.some_ne_none _)
  | cons front rest =>
    rw [Lane.next?_eq_parcel hqueue h.chunkSize_pos c] at hw
    obtain rfl := Option.some.inj hw
    exact ⟨⟨h.ascending.put _ _, sizeAfter_pos h.chunkSize_pos _⟩, rfl, rfl, _, rfl,
      l.length_bytes_parcel_le c front m.chunkSize, .cons hget hqueue hlower (.nil _ _)⟩

/-- The lanes have nothing to send exactly if none has data. -/
theorem nextOfLanes?_eq_none_iff (size : Nat) (lanes : Keyed UInt32 Lane) :
    nextOfLanes? size lanes = none ↔ (lanes.any fun l => l.2.hasData) = false := by
  induction lanes with
  | nil => exact ⟨fun _ => rfl, fun _ => rfl⟩
  | cons e rest ih =>
    obtain ⟨id, l⟩ := e
    rw [nextOfLanes?, List.any_cons, Bool.or_eq_false_iff]
    cases hw : l.next? size with
    | some w =>
      refine ⟨fun hnone => absurd hnone (Option.some_ne_none _), fun hboth => ?_⟩
      -- a lane that writes has something to send
      have hqueue : l.queue = [] := by simpa [Lane.hasData] using hboth.1
      rw [Lane.next?, hqueue] at hw
      exact absurd hw.symm (Option.some_ne_none _)
    | none =>
      have hlane : l.hasData = false := by
        rw [Lane.hasData, Lane.queue_of_next?_none hw]
        rfl
      rw [Option.map_eq_none_iff, ih]
      exact ⟨fun hrest => ⟨hlane, hrest⟩, fun hboth => hboth.2⟩

/-- There is nothing to send exactly if no lane has data. -/
theorem next?_eq_none_iff (m : Mux) :
    m.next? = none ↔ (m.lanes.any fun l => l.2.hasData) = false := by
  unfold next?
  rw [Option.map_eq_none_iff, nextOfLanes?_eq_none_iff]

/-- **Parcels fill the room that there is**, until nothing waits or a parcel of full size would not
be sure to fit. -/
theorem Orderly.fill {m : Mux} (h : m.Orderly) (room : Nat) (pieces : List (List UInt8)) :
    let filled := m.fill room pieces
    filled.1.Orderly ∧ filled.1.meter = m.meter ∧
      ∃ parcels : List Parcel,
        filled.2 = (parcels.map Parcel.bytes).reverse ++ pieces ∧
        (parcels.flatMap Parcel.bytes).length ≤ room ∧
        Served m.lanes m.chunkSize parcels filled.1.lanes filled.1.chunkSize ∧
        ((filled.1.lanes.any fun l => l.2.hasData) = false ∨
          room < (parcels.flatMap Parcel.bytes).length + filled.1.chunkSize + maxHeaderSize) := by
  fun_induction m.fill room pieces with
  | case1 m room pieces hn =>
    exact ⟨h, rfl, [], rfl, Nat.zero_le _, .nil _ _, Or.inl ((next?_eq_none_iff m).1 hn)⟩
  | case2 m room pieces m' bytes hn hroom =>
    refine ⟨h, rfl, [], rfl, Nat.zero_le _, .nil _ _, Or.inr ?_⟩
    rw [List.flatMap_nil, List.length_nil, Nat.zero_add]
    exact hroom
  -- the next parcel fits, and the rest is filled after it
  | case3 m room pieces m' bytes hn hroom ih =>
    obtain ⟨horderly, -, hmeter, p, rfl, hsize, hserved⟩ := h.next hn
    obtain ⟨hlast, hsame, parcels, hpieces, hlength, hrest, hend⟩ := ih horderly
    refine ⟨hlast, hsame.trans hmeter, p :: parcels, ?_, ?_, hserved.trans hrest, ?_⟩
    · rw [hpieces, List.map_cons, List.reverse_cons, List.append_assoc]
      rfl
    · rw [List.flatMap_cons, List.length_append]
      omega
    · refine hend.imp_right fun hlate => ?_
      rw [List.flatMap_cons, List.length_append]
      omega

/-- Filling ends where there is nothing to send. -/
theorem fill_of_none {m : Mux} (h : m.next? = none) (room : Nat) (pieces : List (List UInt8)) :
    m.fill room pieces = (m, pieces) := by
  unfold fill
  split
  · rfl
  · rename_i hsome
    rw [h] at hsome
    cases hsome

/-- A chunk goes out if one of full size fits. -/
theorem fill_of_some {m m' : Mux} {bytes : List UInt8} (h : m.next? = some (m', bytes))
    {room : Nat} (hroom : m.chunkSize + maxHeaderSize ≤ room) (pieces : List (List UInt8)) :
    m.fill room pieces = m'.fill (room - bytes.length) (bytes :: pieces) := by
  conv_lhs => unfold fill
  split
  · rename_i hnone
    rw [h] at hnone
    cases hnone
  · rename_i hsome
    rw [h] at hsome
    cases hsome
    rw [if_neg (Nat.not_lt.2 hroom)]

/-- Chunks join the pieces that were written before. -/
theorem suffix_fill (m : Mux) (room : Nat) (pieces : List (List UInt8)) :
    pieces <:+ (m.fill room pieces).2 := by
  fun_induction m.fill room pieces with
  | case1 | case2 => exact List.suffix_refl _
  | case3 m room pieces m' bytes _ _ ih => exact (List.suffix_cons bytes pieces).trans ih

/-- With room enough, every lane is emptied. -/
theorem Orderly.exists_room {m : Mux} (h : m.Orderly) :
    ∃ enough, ∀ room pieces, enough ≤ room →
      ((m.fill room pieces).1.lanes.any fun l => l.2.hasData) = false := by
  -- by induction on the backlog, which each chunk makes smaller
  induction hbacklog : m.backlog using Nat.strong_induction_on generalizing m with
  | _ backlog ih =>
    cases hn : m.next? with
    | none =>
      refine ⟨0, fun room pieces _ => ?_⟩
      rw [fill_of_none hn]
      exact (next?_eq_none_iff m).1 hn
    | some next =>
      obtain ⟨m', bytes⟩ := next
      obtain ⟨horderly, -, -, p, rfl, hsize, -⟩ := h.next hn
      obtain ⟨enough, henough⟩ := ih _ (hbacklog ▸ backlog_next?_lt hn) horderly rfl
      refine ⟨m.chunkSize + maxHeaderSize + enough, fun room pieces hroom => ?_⟩
      rw [fill_of_some hn (by omega)]
      exact henough _ _ (by omega)

/-- A call fills what the raw bytes leave of its budget. -/
theorem serialize_eq (m : Mux) (now budget : Nat) :
    let filled := fill { m with raw := m.raw.drop budget } (budget - (m.raw.take budget).length)
      [m.raw.take budget]
    (m.serialize now budget).2 = filled.2.reverse.flatten ∧
      ∃ meter, (m.serialize now budget).1 = { filled.1 with meter } ∧
        meter.totalBytes = filled.1.meter.totalBytes + (m.serialize now budget).2.length := by
  intro filled
  have hserialize : m.serialize now budget =
      if filled.2.reverse.flatten.isEmpty then (filled.1, filled.2.reverse.flatten)
      else ({ filled.1 with
        meter := filled.1.meter.record now filled.2.reverse.flatten.length },
        filled.2.reverse.flatten) := rfl
  rw [hserialize]
  -- nothing is recorded for an empty piece
  by_cases hempty : filled.2.reverse.flatten = []
  · rw [hempty, List.isEmpty_nil, if_pos rfl]
    exact ⟨rfl, _, rfl, rfl⟩
  · rw [if_neg (by rwa [List.isEmpty_iff])]
    exact ⟨rfl, _, rfl, Meter.totalBytes_record _ _ _⟩

/-- **What a call takes out, and what it leaves.** It stops where nothing waits on the lanes, or
where a parcel of full size would not be sure to fit. -/
theorem Orderly.serialize {m : Mux} (h : m.Orderly) (now budget : Nat) :
    let r := m.serialize now budget
    r.1.Orderly ∧ r.1.raw = m.raw.drop budget ∧ r.2.length ≤ budget ∧
      r.1.meter.totalBytes = m.meter.totalBytes + r.2.length ∧
      (∃ raw parcels, r.2 = wire raw parcels ∧ m.Sends raw parcels r.1) ∧
      ((r.1.lanes.any fun l => l.2.hasData) = false ∨
        budget < r.2.length + r.1.chunkSize + maxHeaderSize) := by
  intro r
  obtain ⟨hout, meter, hmux, htotal⟩ := serialize_eq m now budget
  let rest : Mux := { m with raw := m.raw.drop budget }
  have hrest : rest.Orderly := ⟨h.ascending, h.chunkSize_pos⟩
  obtain ⟨hlast, hsame, parcels, hpieces, hlength, hserved, hend⟩ :=
    hrest.fill (budget - (m.raw.take budget).length) [m.raw.take budget]
  obtain ⟨hraw, -⟩ := fill_cases rest (budget - (m.raw.take budget).length) [m.raw.take budget]
  rw [hpieces, List.reverse_append, List.reverse_reverse, List.reverse_singleton,
    List.singleton_append, List.flatten_cons, ← List.flatMap_def] at hout
  have htake : (m.raw.take budget).length ≤ budget := List.length_take_le _ _
  have hlengths : r.2.length = (m.raw.take budget).length +
      (parcels.flatMap Parcel.bytes).length := by
    rw [hout, List.length_append]
  rw [hmux]
  refine ⟨⟨hlast.ascending, hlast.chunkSize_pos⟩, hraw, ?_, ?_,
    ⟨m.raw.take budget, parcels, hout, ?_, ?_, hserved⟩, ?_⟩
  · omega
  · show meter.totalBytes = _
    rw [htotal, hsame]
  · show m.raw = m.raw.take budget ++ (rest.fill _ _).1.raw
    rw [hraw, List.take_append_drop]
  · -- raw bytes that are left have used up the budget
    intro hne
    show (rest.fill _ _).1.raw = []
    rw [hraw]
    show m.raw.drop budget = []
    by_contra hleft
    have hlong : budget < m.raw.length := by
      rw [List.drop_eq_nil_iff] at hleft
      omega
    rw [List.length_take] at hlength
    have hnone : (parcels.flatMap Parcel.bytes).length = 0 := by omega
    exact hne (hserved.eq_nil_of_flatMap_eq_nil (List.length_eq_zero_iff.1 hnone))
  · refine hend.imp_right fun hlate => ?_
    show budget < r.2.length + (rest.fill _ _).1.chunkSize + maxHeaderSize
    omega

/-- With a budget that is large enough, a call takes out everything. -/
theorem Orderly.exists_budget {m : Mux} (h : m.Orderly) :
    ∃ enough, ∀ now budget, enough ≤ budget → (m.serialize now budget).1.hasData = false := by
  -- room for the raw bytes, which go first, and for the chunks behind them
  have hrest : Orderly { m with raw := [] } := ⟨h.ascending, h.chunkSize_pos⟩
  obtain ⟨enough, henough⟩ := hrest.exists_room
  refine ⟨m.raw.length + enough, fun now budget hbudget => ?_⟩
  obtain ⟨-, meter, hmux, -⟩ := serialize_eq m now budget
  have hall : m.raw.drop budget = [] := List.drop_of_length_le (by omega)
  rw [hall] at hmux
  rw [hmux]
  obtain ⟨hraw, -⟩ := fill_cases { m with raw := [] } (budget - (m.raw.take budget).length)
    [m.raw.take budget]
  have hlanes := henough (budget - (m.raw.take budget).length) [m.raw.take budget]
    (by rw [List.length_take]; omega)
  show (!_ || _) = false
  rw [hlanes, hraw]
  rfl

/-- From a sending side that has no data, nothing goes out. -/
theorem Sends.wire_eq_nil {m m' : Mux} {raw : List UInt8} {parcels : List Parcel}
    (h : m.Sends raw parcels m') (hdata : m.hasData = false) : wire raw parcels = [] := by
  obtain ⟨hraw, hlanes⟩ := Bool.or_eq_false_iff.1 hdata
  have hempty : m.raw = [] := by simpa using hraw
  rw [wire, (List.append_eq_nil_iff.1 (h.raw_eq.symm.trans hempty)).1, List.nil_append,
    h.served.eq_nil_of_hasData hlanes]
  rfl

theorem bytes_next?_ne_nil {m m' : Mux} {bytes : List UInt8} (h : m.next? = some (m', bytes)) :
    bytes ≠ [] := by
  unfold next? at h
  obtain ⟨⟨lanes, written, finished⟩, hlanes, he⟩ := Option.map_eq_some_iff.1 h
  cases he
  exact bytes_nextOfLanes?_ne_nil hlanes

/-- **A call that gives nothing leaves nothing**, if its budget was enough for a chunk of full
size. -/
theorem hasData_of_serialize_eq_nil {m : Mux} {now budget : Nat}
    (hbudget : m.chunkSize + maxHeaderSize ≤ budget) (hout : (m.serialize now budget).2 = []) :
    (m.serialize now budget).1.hasData = false := by
  obtain ⟨hpieces, meter, hmux, -⟩ := serialize_eq m now budget
  rw [hout] at hpieces
  have hempty := List.flatten_eq_nil_iff.1 hpieces.symm
  -- no raw bytes were given, so there were none
  have htake : m.raw.take budget = [] :=
    hempty _ (List.mem_reverse.2 ((suffix_fill _ _ _).mem (List.mem_singleton_self _)))
  have hraw : m.raw.drop budget = [] := by
    have hpos : 0 < maxHeaderSize := by decide
    rw [(List.take_eq_nil_iff.1 htake).resolve_left (by omega), List.drop_nil]
  rw [htake, hraw, List.length_nil, Nat.sub_zero] at hempty hmux
  cases hnext : next? { m with raw := [] } with
  | none =>
    rw [fill_of_none hnext] at hmux
    have hlanes : (m.lanes.any fun l => l.2.hasData) = false :=
      (next?_eq_none_iff { m with raw := [] }).1 hnext
    rw [hmux]
    show (!_ || _) = false
    rw [hlanes]
    rfl
  | some next =>
    -- a chunk would have gone out
    obtain ⟨m', bytes⟩ := next
    rw [fill_of_some hnext hbudget] at hempty
    refine absurd (hempty bytes (List.mem_reverse.2 ?_)) (bytes_next?_ne_nil hnext)
    exact (suffix_fill _ _ _).mem List.mem_cons_self

/-! ### Calls one after the other -/

/-- A sending side as its owner may find it: after any operations, in any order. -/
inductive Reached : Mux → Prop
  | initial : Reached .initial
  | pushRaw {m : Mux} (h : Reached m) (bytes : List UInt8) : Reached (m.pushRaw bytes)
  | enqueue {m : Mux} (h : Reached m) (p : Packet) : Reached (m.enqueue p)
  | reset {m : Mux} (h : Reached m) (streamId : UInt32) : Reached (m.reset streamId).1
  | serialize {m : Mux} (h : Reached m) (now budget : Nat) : Reached (m.serialize now budget).1

/-- Whatever a sender was called with, it is in order. -/
theorem Reached.orderly {m : Mux} (h : m.Reached) : m.Orderly := by
  induction h with
  | initial => exact .initial
  | pushRaw _ bytes ih => exact ih.pushRaw bytes
  | enqueue _ p ih => exact ih.enqueue p
  | reset _ streamId ih => exact ih.reset streamId
  | serialize _ now budget ih => exact (ih.serialize now budget).1

/-- Take bytes out, call by call. A call has its time and its budget. -/
def pulls (m : Mux) : (calls : List (Nat × Nat)) → Mux × List (List UInt8)
  | [] => (m, [])
  | call :: rest =>
    let r := m.serialize call.1 call.2
    let later := r.1.pulls rest
    (later.1, r.2 :: later.2)

/-- What all calls together take out, and what they leave. -/
theorem Orderly.pulls {m : Mux} (h : m.Orderly) (calls : List (Nat × Nat)) :
    (m.pulls calls).1.Orderly ∧
      List.Forall₂ (fun call out => out.length ≤ call.2) calls (m.pulls calls).2 ∧
      (m.pulls calls).1.meter.totalBytes =
        m.meter.totalBytes + (m.pulls calls).2.flatten.length ∧
      ∃ raw parcels, (m.pulls calls).2.flatten = wire raw parcels ∧
        m.Sends raw parcels (m.pulls calls).1 := by
  -- on the calls; what each puts out is appended to the wire
  induction calls generalizing m with
  | nil => exact ⟨h, .nil, rfl, [], [], rfl, .refl m⟩
  | cons call rest ih =>
    obtain ⟨horderly, -, hlength, htotal, ⟨raw₁, parcels₁, hout, hfirst⟩, -⟩ :=
      h.serialize call.1 call.2
    obtain ⟨hlast, hlengths, htotals, raw₂, parcels₂, houts, hrest⟩ := ih horderly
    obtain ⟨hsends, hwire⟩ := hfirst.trans hrest
    refine ⟨hlast, .cons hlength hlengths, ?_, _, _, ?_, hsends⟩
    · rw [Mux.pulls, List.flatten_cons, List.length_append, htotals, htotal, Nat.add_assoc]
    · rw [Mux.pulls, List.flatten_cons, hout, houts, hwire]

/-- **How output is taken out does not change the wire.** Take bytes out under any budgets, one call
after the other. Each call keeps to its budget. All of them together give raw bytes first and then
whole parcels, each the next one of the lowest lane that has something to send: the beginning of
what a single large budget gives, and all of it once nothing is left. Compared with any single call,
the one that gave less has stopped where the other one goes on; where both gave the same bytes, they
leave the same chunk size. The meter counts what was given. -/
theorem pulls_wire {m : Mux} (h : m.Reached) (calls : List (Nat × Nat)) :
    let m' := (m.pulls calls).1
    let out := (m.pulls calls).2.flatten
    List.Forall₂ (fun call out => out.length ≤ call.2) calls (m.pulls calls).2 ∧
      (∃ raw parcels, out = wire raw parcels ∧ m.Sends raw parcels m') ∧
      (∃ enough, ∀ now budget, enough ≤ budget → out <+: (m.serialize now budget).2 ∧
        (m'.hasData = false → out = (m.serialize now budget).2)) ∧
      (∀ now budget, let single := m.serialize now budget
        (single.2 = out → single.1.chunkSize = m'.chunkSize) ∧
        ((∃ raw parcels, single.2 = out ++ wire raw parcels ∧ m'.Sends raw parcels single.1) ∨
          ∃ raw parcels, out = single.2 ++ wire raw parcels ∧ single.1.Sends raw parcels m')) ∧
      m'.meter.totalBytes = m.meter.totalBytes + out.length := by
  intro m' out
  obtain ⟨-, hlengths, htotal, raw, parcels, hout, hsends⟩ := h.orderly.pulls calls
  have hcompare : ∀ now budget, let single := m.serialize now budget
      (∃ raw parcels, single.2 = out ++ wire raw parcels ∧ m'.Sends raw parcels single.1) ∨
        ∃ raw parcels, out = single.2 ++ wire raw parcels ∧ single.1.Sends raw parcels m' := by
    intro now budget single
    obtain ⟨-, -, -, -, ⟨raw₁, parcels₁, hsingle, hfirst⟩, -⟩ := h.orderly.serialize now budget
    rw [hsingle, show out = _ from hout]
    exact hsends.compare hfirst
  refine ⟨hlengths, ⟨raw, parcels, hout, hsends⟩, ?_, fun now budget => ⟨fun hsame => ?_,
    hcompare now budget⟩, htotal⟩
  · obtain ⟨enough, henough⟩ := h.orderly.exists_budget
    refine ⟨enough, fun now budget hbudget => ?_⟩
    rcases hcompare now budget with ⟨raw, parcels, hsingle, hmore⟩ | ⟨raw, parcels, hbehind, hmore⟩
    · refine ⟨⟨_, hsingle.symm⟩, fun hdata => ?_⟩
      rw [hsingle, hmore.wire_eq_nil hdata, List.append_nil]
    · -- the single call leaves nothing, so the others cannot be ahead of it
      rw [hmore.wire_eq_nil (henough now budget hbudget), List.append_nil] at hbehind
      exact ⟨hbehind ▸ List.prefix_refl _, fun _ => hbehind⟩
  · rcases hcompare now budget with ⟨raw, parcels, hsingle, hmore⟩ | ⟨raw, parcels, hbehind, hmore⟩
    · have hnil : wire raw parcels = [] := by
        rw [hsame] at hsingle
        exact List.append_right_eq_self.1 hsingle.symm
      exact (hmore.eq_of_wire_eq_nil hnil).2.2
    · have hnil : wire raw parcels = [] := by
        rw [hsame] at hbehind
        exact List.append_right_eq_self.1 hbehind.symm
      exact (hmore.eq_of_wire_eq_nil hnil).2.2.symm

/-- Three raw bytes, the announcement that the chunk size grows from two to three, and a message of
five bytes: six calls, of which one has too small a budget for a chunk, give what a single one
gives. -/
theorem pulls_wire_six_calls :
    let m := (((initial.enqueue (.ofPayload 0 1 0 2 [0, 0, 0, 2])).serialize 0 200).1.pushRaw
      [7, 8, 9] |>.enqueue (.ofPayload 0 1 0 2 [0, 0, 0, 3])).enqueue
      (.ofPayload 10 9 1 4 [1, 2, 3, 4, 5])
    let calls := [(0, 2), (0, 21), (1, 19), (1, 20), (2, 21), (1000, 64)]
    m.Reached ∧
      (m.pulls calls).2.map List.length = [2, 7, 0, 3, 15, 3] ∧
      (m.pulls calls).1.chunkSize = 3 ∧ (m.pulls calls).1.hasData = false ∧
      ∃ enough, ∀ now budget, enough ≤ budget →
        (m.pulls calls).2.flatten = (m.serialize now budget).2 := by
  intro m calls
  have hm : m.Reached :=
    .enqueue (.enqueue (.pushRaw (.serialize (.enqueue .initial _) _ _) _) _) _
  have hdata : (m.pulls calls).1.hasData = false := by decide +kernel
  obtain ⟨-, -, ⟨enough, henough⟩, -⟩ := pulls_wire hm calls
  exact ⟨hm, by decide +kernel, by decide +kernel, hdata, enough, fun now budget hbudget =>
    (henough now budget hbudget).2 hdata⟩

end Mux

end LiveIngest.Chunk
