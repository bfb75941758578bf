import LiveIngest.Proofs.Chunk.Pulling

/-!
# What was sent

A message has been sent when all of its payload is in parcels that went out. A `Receipt` puts the
parcels of one chunk stream together: it keeps the bytes of the message under way, and the messages
whose last parcel came, each with all the bytes that came for it.

`Run.Shipped` ties a run of a sending side to what went out of it. The outputs are shipments, raw
bytes and parcels each; the receipt of every chunk stream shows the messages that were written, and
every one of them with its whole payload.

Main statement: `Run.Shipped.serialize` — a call adds a shipment, and keeps all this.
-/

namespace LiveIngest.Chunk

/-! ### Receipts -/

/-- What the parcels of a chunk stream have brought. -/
structure Receipt where
  /-- The messages whose last parcel came, each with the bytes that came for it. -/
  complete : List (Packet × List UInt8)
  /-- The bytes of the message under way. -/
  got : List UInt8
  deriving DecidableEq, Repr

namespace Receipt

def empty : Receipt := ⟨[], []⟩

/-- A first parcel gives up the message under way, which was dropped. -/
def add (r : Receipt) (p : Parcel) : Receipt :=
  let got := (if p.isFirst then [] else r.got) ++ p.part
  if p.isLast then ⟨r.complete ++ [(p.packet, got)], []⟩ else { r with got }

def packets (r : Receipt) : List Packet :=
  r.complete.map (·.1)

/-- Every message came with its whole payload. -/
def Whole (r : Receipt) : Prop :=
  ∀ e ∈ r.complete, e.2 = e.1.payload

/-- The receipt of the parcels of a chunk stream. -/
def ofParcels (c : UInt32) (parcels : List Parcel) : Receipt :=
  (parcels.filter (·.chunkStream = c)).foldl add empty

/-- Parcels that come later are added to what has come. -/
theorem ofParcels_append (c : UInt32) (parcels more : List Parcel) :
    ofParcels c (parcels ++ more) =
      (more.filter (·.chunkStream = c)).foldl add (ofParcels c parcels) := by
  unfold ofParcels
  rw [List.filter_append, List.foldl_append]

end Receipt

/-! ### Lanes against receipts -/

namespace Lane

/-- Of the message in front, `got` went out and the rest did not; of the others nothing did. -/
def Holds (l : Lane) (got : List UInt8) : Prop :=
  ∀ m rest, l.queue = m :: rest →
    (m.Untouched ∨ m.started = true ∧ got ++ m.unsent = m.packet.payload) ∧
      ∀ x ∈ rest, x.Untouched

theorem Holds.fresh (c : UInt32) (got : List UInt8) : (Lane.fresh c).Holds got :=
  fun _ _ hq => absurd hq.symm (List.cons_ne_nil _ _)

/-- A lane on which nothing was begun says nothing of what went out. -/
theorem Holds.of_untouched {l : Lane} (h : ∀ x ∈ l.queue, x.Untouched) (got : List UInt8) :
    l.Holds got := by
  intro m rest hq
  rw [hq] at h
  obtain ⟨hm, hrest⟩ := List.forall_mem_cons.1 h
  exact ⟨Or.inl hm, hrest⟩

/-- A new message waits behind what is sent in part. -/
theorem Holds.enqueue {l : Lane} {got : List UInt8} (h : l.Holds got) (p : Packet) :
    (l.enqueue p).Holds got := by
  have hnew : Outgoing.Untouched ⟨p, p.payload, false⟩ := ⟨rfl, rfl⟩
  -- a message may be partly sent only in front, and the new one comes last
  cases hqueue : l.queue with
  | nil =>
    refine .of_untouched (fun x hx => ?_) got
    rw [Lane.enqueue, hqueue, List.nil_append] at hx
    rw [List.mem_singleton.1 hx]
    exact hnew
  | cons front rest =>
    intro m later hq
    rw [Lane.enqueue, hqueue, List.cons_append] at hq
    obtain ⟨rfl, rfl⟩ := List.cons.inj hq
    obtain ⟨hfront, hrest⟩ := h front rest hqueue
    refine ⟨hfront, fun x hx => ?_⟩
    rcases List.mem_append.1 hx with hx | hx
    · exact hrest x hx
    · rw [List.mem_singleton.1 hx]
      exact hnew

/-- Dropping messages leaves what went out of the one in front, or drops that one. -/
theorem Holds.filter {l : Lane} {got : List UInt8} (h : l.Holds got) (keep : Outgoing → Bool)
    (previous : Option PacketHeader) :
    ({ l with queue := l.queue.filter keep, previous } : Lane).Holds got := by
  cases hqueue : l.queue with
  | nil => exact .of_untouched (fun x hx => absurd hx List.not_mem_nil) got
  | cons front rest =>
    obtain ⟨hfront, hrest⟩ := h front rest hqueue
    have hkept : ∀ x ∈ rest.filter keep, x.Untouched := fun x hx => hrest x (List.mem_filter.1 hx).1
    by_cases hkeep : keep front = true
    · intro m later hq
      rw [List.filter_cons_of_pos hkeep] at hq
      obtain ⟨rfl, rfl⟩ := List.cons.inj hq
      exact ⟨hfront, hkept⟩
    · rw [List.filter_cons_of_neg hkeep]
      exact .of_untouched hkept got

/-- What was sent in part is given up, and with it what has come of it. -/
theorem Holds.reset {l : Lane} {got : List UInt8} (h : l.Holds got) (streamId : UInt32) :
    (l.reset streamId).1.Holds got :=
  h.filter _ _

/-- **One parcel.** It brings what went out of the lane, and completes the message in front exactly
if that one has left the lane. -/
theorem Holds.parcel {l : Lane} {r : Receipt} (h : l.Holds r.got) (hwhole : r.Whole) {m : Outgoing}
    {rest : List Outgoing} (hq : l.queue = m :: rest) (c : UInt32) (size : Nat) :
    let r' := r.add (l.parcel c m size)
    (l.behind m rest size).Holds r'.got ∧ r'.Whole ∧
      ∃ ps, r'.packets = r.packets ++ ps ∧ l.waiting = ps ++ (l.behind m rest size).waiting := by
  intro r'
  obtain ⟨hfront, hrest⟩ := h m rest hq
  have hwaiting : l.waiting = m.packet :: rest.map (·.packet) := by
    rw [waiting, hq, List.map_cons]
  -- what came for the message in front, and what is still to come
  let got := (if !m.started then [] else r.got) ++ m.unsent.take size
  have hgot : got ++ m.unsent.drop size = m.packet.payload := by
    have hparts : got ++ m.unsent.drop size =
        (if !m.started then [] else r.got) ++ m.unsent := by
      rw [List.append_assoc, List.take_append_drop]
    rw [hparts]
    rcases hfront with ⟨hstarted, hunsent⟩ | ⟨hstarted, hunsent⟩
    · rw [hstarted, hunsent]
      rfl
    · rw [hstarted]
      exact hunsent
  by_cases hlast : m.unsent.length ≤ size
  · have hadd : r' = ⟨r.complete ++ [(m.packet, got)], []⟩ := if_pos (decide_eq_true hlast)
    have hbehind : l.behind m rest size =
        { l with queue := rest, previous := some m.packet.toPacketHeader } := if_pos hlast
    rw [hadd, hbehind]
    refine ⟨.of_untouched hrest _, ?_, [m.packet], ?_, hwaiting⟩
    · intro e he
      rcases List.mem_append.1 he with he | he
      · exact hwhole e he
      · rw [List.mem_singleton.1 he]
        rw [List.drop_of_length_le hlast, List.append_nil] at hgot
        exact hgot
    · simp [Receipt.packets]
  · have hadd : r' = { r with got } := by
      show (if decide (m.unsent.length ≤ size) = true then _ else _) = _
      rw [if_neg (by rwa [decide_eq_true_eq])]
      rfl
    have hbehind : l.behind m rest size = { l with
        queue := { m with unsent := m.unsent.drop size, started := true } :: rest } := if_neg hlast
    rw [hadd, hbehind]
    refine ⟨fun front later hcons => ?_, hwhole, [], by simp [Receipt.packets], hwaiting⟩
    obtain ⟨rfl, rfl⟩ := List.cons.inj hcons
    exact ⟨Or.inr ⟨rfl, hgot⟩, hrest⟩

end Lane

/-- The lane of a chunk stream. -/
def laneOf (lanes : Keyed UInt32 Lane) (c : UInt32) : Lane :=
  (lanes.get? c).getD (.fresh c)

theorem laneOf_of_get? {lanes : Keyed UInt32 Lane} {c : UInt32} {l : Lane}
    (h : lanes.get? c = some l) : laneOf lanes c = l :=
  Mux.lane_eq (m := { Mux.initial with lanes }) h

/-- Putting back one lane changes no other. -/
theorem laneOf_put (lanes : Keyed UInt32 Lane) (c : UInt32) (l : Lane) (c' : UInt32) :
    laneOf (lanes.put c l) c' = if c' = c then l else laneOf lanes c' :=
  Mux.lane_put { Mux.initial with lanes } c l c'

/-- **Parcels one after the other.** The receipt of a chunk stream gets what its lane sends, and the
messages that it shows now are those that have left the lane. -/
theorem Served.receipt {lanes lanes' : Keyed UInt32 Lane} {size size' : Nat}
    {parcels : List Parcel} (h : Served lanes size parcels lanes' size') (c : UInt32) {r : Receipt}
    (hholds : (laneOf lanes c).Holds r.got) (hwhole : r.Whole) :
    let r' := (parcels.filter (·.chunkStream = c)).foldl Receipt.add r
    (laneOf lanes' c).Holds r'.got ∧ r'.Whole ∧
      ∃ ps, r'.packets = r.packets ++ ps ∧
        (laneOf lanes c).waiting = ps ++ (laneOf lanes' c).waiting := by
  induction h generalizing r with
  | nil => exact ⟨hholds, hwhole, [], (List.append_nil _).symm, rfl⟩
  | @cons lanes lanes' size size' c' l m rest parcels hget hqueue _ _ ih =>
    by_cases hc : c' = c
    · -- the parcel is of this chunk stream
      subst hc
      rw [laneOf_of_get? hget] at hholds ⊢
      obtain ⟨hnext, hwhole', ps, hpackets, hwaiting⟩ := hholds.parcel hwhole hqueue c' size
      have hlane := laneOf_put lanes c' (l.behind m rest size) c'
      rw [if_pos rfl] at hlane
      rw [hlane] at ih
      obtain ⟨hlast, hwhole'', qs, hpackets', hwaiting'⟩ := ih hnext hwhole'
      have hfilter : (l.parcel c' m size :: parcels).filter (·.chunkStream = c') =
          l.parcel c' m size :: parcels.filter (·.chunkStream = c') :=
        List.filter_cons_of_pos (decide_eq_true rfl)
      rw [hfilter, List.foldl_cons]
      refine ⟨hlast, hwhole'', ps ++ qs, ?_, ?_⟩
      · rw [hpackets', hpackets, List.append_assoc]
      · rw [hwaiting, hwaiting', List.append_assoc]
    · -- it is of another one, whose lane is another one
      have hlane := laneOf_put lanes c' (l.behind m rest size) c
      rw [if_neg (Ne.symm hc)] at hlane
      rw [hlane] at ih
      have hfilter : (l.parcel c' m size :: parcels).filter (·.chunkStream = c) =
          parcels.filter (·.chunkStream = c) :=
        List.filter_cons_of_neg (by rwa [decide_eq_true_eq])
      rw [hfilter]
      exact ih hholds hwhole

/-! ### Runs -/

/-- What a call gave. -/
structure Shipment where
  raw : List UInt8
  parcels : List Parcel
  deriving DecidableEq, Repr

def Shipment.bytes (s : Shipment) : List UInt8 :=
  Mux.wire s.raw s.parcels

/-- The receipt of a chunk stream for shipments. -/
def receipt (shipments : List Shipment) (c : UInt32) : Receipt :=
  .ofParcels c (shipments.flatMap (·.parcels))

/-- One more shipment. -/
theorem receipt_append (shipments : List Shipment) (s : Shipment) (c : UInt32) :
    receipt (shipments ++ [s]) c =
      (s.parcels.filter (·.chunkStream = c)).foldl Receipt.add (receipt shipments c) := by
  unfold receipt
  rw [List.flatMap_append, List.flatMap_singleton, Receipt.ofParcels_append]

namespace Run

/-- Raw bytes are queued. -/
def pushRaw (s : Run) (bytes : List UInt8) : Run :=
  { s with mux := s.mux.pushRaw bytes }

/-- The outputs of a run are the shipments, and their receipts show the messages that were
written. -/
structure Shipped (s : Run) (shipments : List Shipment) : Prop where
  orderly : s.mux.Orderly
  outputs : s.outputs.flatten = shipments.flatMap Shipment.bytes
  holds : ∀ c, (s.mux.lane c).Holds (receipt shipments c).got
  whole : ∀ c, (receipt shipments c).Whole
  written : ∀ c, (receipt shipments c).packets = s.written c
  balanced : s.Balanced

variable {s : Run} {shipments : List Shipment}

/-- Before anything is sent. -/
theorem Shipped.initial : Shipped .initial [] where
  orderly := .initial
  outputs := rfl
  holds := fun c => .fresh c []
  whole := fun _ _ he => absurd he List.not_mem_nil
  written := fun _ => rfl
  balanced := ⟨fun _ => List.Sublist.refl [], fun _ => List.Perm.refl []⟩

/-- Raw bytes go out before any parcel. -/
theorem Shipped.pushRaw (h : s.Shipped shipments) (bytes : List UInt8) :
    (s.pushRaw bytes).Shipped shipments :=
  ⟨h.orderly.pushRaw bytes, h.outputs, h.holds, h.whole, h.written,
    ⟨h.balanced.inOrder, h.balanced.complete⟩⟩

/-- A message that is queued has not come yet. -/
theorem Shipped.enqueue (h : s.Shipped shipments) (p : Packet) :
    (s.enqueue p).Shipped shipments := by
  refine ⟨h.orderly.enqueue p, h.outputs, fun c => ?_, h.whole, h.written, h.balanced.enqueue p⟩
  rw [Run.enqueue, Mux.lane_enqueue]
  split
  · exact (h.holds c).enqueue p
  · exact h.holds c

/-- **Dropping a stream.** What has come of a message that is cut does not count, and the abort for
it waits with the others. -/
theorem Shipped.reset (h : s.Shipped shipments) (streamId : UInt32) :
    (s.reset streamId).Shipped shipments := by
  refine ⟨h.orderly.reset streamId, h.outputs, fun c => ?_, h.whole, h.written,
    h.balanced.reset streamId⟩
  show ((s.mux.reset streamId).1.lane c).Holds _
  have hlane : ((s.mux.resetLanes streamId).lane c).Holds (receipt shipments c).got := by
    rw [Mux.lane_resetLanes]
    exact (h.holds c).reset streamId
  rw [Mux.reset_eq]
  generalize s.mux.resetLanes streamId = m at hlane ⊢
  -- the aborts join the control lane
  induction (s.mux.reset streamId).2 generalizing m with
  | nil => exact hlane
  | cons a rest ih =>
    refine ih _ ?_
    rw [Mux.lane_enqueue]
    split
    · exact hlane.enqueue _
    · exact hlane

/-- **A call adds a shipment.** -/
theorem Shipped.serialize (h : s.Shipped shipments) (now budget : Nat) :
    ∃ shipment, (s.serialize now budget).Shipped (shipments ++ [shipment]) := by
  obtain ⟨horderly, -, -, -, ⟨raw, parcels, hout, hsends⟩, -⟩ := h.orderly.serialize now budget
  refine ⟨⟨raw, parcels⟩, ?_⟩
  have hreceipt := fun c => hsends.served.receipt c (h.holds c) (h.whole c)
  simp only [← receipt_append shipments ⟨raw, parcels⟩] at hreceipt
  -- per chunk stream: what is completed now is what has left its lane
  have hleft : ∀ c, ∃ ps, s.mux.left (s.mux.serialize now budget).1 c = ps ∧
      (receipt (shipments ++ [⟨raw, parcels⟩]) c).packets =
        (receipt shipments c).packets ++ ps ∧
      s.mux.waiting c = ps ++ (s.mux.serialize now budget).1.waiting c := by
    intro c
    obtain ⟨-, -, ps, hpackets, hwaiting⟩ := hreceipt c
    exact ⟨ps, Mux.left_eq_of_append hwaiting, hpackets, hwaiting⟩
  refine ⟨horderly, ?_, fun c => (hreceipt c).1, fun c => (hreceipt c).2.1, fun c => ?_,
    h.balanced.serialize fun c => ?_⟩
  · calc (s.serialize now budget).outputs.flatten
        = s.outputs.flatten ++ (s.mux.serialize now budget).2 := by
          rw [Run.serialize, List.flatten_append, List.flatten_singleton]
      _ = shipments.flatMap Shipment.bytes ++ Shipment.bytes ⟨raw, parcels⟩ := by
          rw [h.outputs, hout]
          rfl
      _ = _ := by rw [List.flatMap_append, List.flatMap_singleton]
  · obtain ⟨ps, hps, hpackets, -⟩ := hleft c
    rw [hpackets, h.written, ← hps]
    rfl
  · obtain ⟨ps, rfl, -, hwaiting⟩ := hleft c
    exact hwaiting

/-- Where nothing waits, every message that was queued was written or dropped. -/
theorem Shipped.settled (h : s.Shipped shipments) (hdata : s.mux.hasData = false) (c : UInt32) :
    ((receipt shipments c).packets.Sublist (s.queued c)) ∧
      ((receipt shipments c).packets ++ s.dropped c).Perm (s.queued c) := by
  have hwaiting : s.mux.waiting c = [] := Mux.waiting_of_hasData hdata c
  have hinOrder := h.balanced.inOrder c
  have hcomplete := h.balanced.complete c
  rw [hwaiting, List.append_nil, ← h.written] at hinOrder hcomplete
  exact ⟨hinOrder, hcomplete⟩

end Run

end LiveIngest.Chunk
