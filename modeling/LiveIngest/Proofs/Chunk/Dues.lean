import LiveIngest.Proofs.Chunk.Receipts

/-!
# What is still to be written

Every chunk stream has a line of messages, each with the bytes of it that did not go out yet
(`Mux.due`). Messages that are queued join the end of the line, and a reset takes messages out of it
(`Mux.due_reset`). While messages are queued and bytes are taken out in any order (`Mux.useAll`), the
parcels that go out leave nobody a choice (`Mux.Pays`):

* what the parcels of a chunk stream have brought, and what is still due on it, is its line;
* each parcel is a part of the message whose turn it is;
* whatever was due on lower chunk streams has gone out before it.

Main statements: `Mux.Orderly.useAll` — all this holds of any such use; `Mux.Orderly.exists_take` —
a budget that is large enough leaves nothing that waits; `Mux.Reached.mem_reset_iff` — which chunk
streams a reset cuts.
-/

namespace LiveIngest.Chunk

/-- A message of which nothing went out. -/
def whole (p : Packet) : Packet × List UInt8 :=
  (p, p.payload)

/-! ### Lanes -/

namespace Lane

/-- The messages that wait, each with the bytes of it that did not go out yet. -/
def due (l : Lane) : List (Packet × List UInt8) :=
  l.queue.map fun x => (x.packet, x.unsent)

/-- What is due, with the bytes `got` in front of what is left of a message that was begun. -/
def dueAfter (l : Lane) (got : List UInt8) : List (Packet × List UInt8) :=
  match l.queue with
  | [] => []
  | m :: rest =>
    (m.packet, (if m.started then got else []) ++ m.unsent) ::
      rest.map fun x => (x.packet, x.unsent)

/-- Where nothing has come of the first message, all of it is due. -/
theorem dueAfter_nil (l : Lane) : l.dueAfter [] = l.due := by
  unfold dueAfter due
  cases l.queue with
  | nil => rfl
  | cons m rest =>
    dsimp only
    rw [ite_self, List.nil_append, List.map_cons]

theorem dueAfter_of_queue {l : Lane} (h : l.queue = []) (got : List UInt8) :
    l.dueAfter got = [] := by
  rw [dueAfter, h]

/-- A new message is due as a whole, behind the others. -/
theorem dueAfter_enqueue (l : Lane) (p : Packet) (got : List UInt8) :
    (l.enqueue p).dueAfter got = l.dueAfter got ++ [whole p] := by
  unfold dueAfter enqueue
  cases l.queue with
  | nil => rfl
  | cons m rest =>
    dsimp only [List.cons_append]
    rw [List.map_append]
    rfl

theorem due_enqueue (l : Lane) (p : Packet) : (l.enqueue p).due = l.due ++ [whole p] := by
  rw [← dueAfter_nil, dueAfter_enqueue, dueAfter_nil]

/-- **A parcel pays.** What it brings is no longer due, and nothing else changes. -/
theorem dueAfter_behind {l : Lane} {m : Outgoing} {rest : List Outgoing}
    (hq : l.queue = m :: rest) (c : UInt32) (size : Nat) (r : Receipt) :
    let r' := r.add (l.parcel c m size)
    r'.complete ++ (l.behind m rest size).dueAfter r'.got = r.complete ++ l.dueAfter r.got := by
  intro r'
  let got := (if !m.started then [] else r.got) ++ m.unsent.take size
  have hbefore : l.dueAfter r.got =
      (m.packet, (if m.started then r.got else []) ++ m.unsent) ::
        rest.map fun x => (x.packet, x.unsent) := by
    rw [dueAfter, hq]
  -- a message that begins drops what was got of another one
  have hstarted : (if !m.started then [] else r.got) = if m.started then r.got else [] := by
    cases m.started <;> rfl
  rw [hbefore]
  -- the last part completes the message, any other part is added to it
  by_cases hlast : m.unsent.length ≤ size
  · have hadd : r' = ⟨r.complete ++ [(m.packet, got)], []⟩ := if_pos (decide_eq_true hlast)
    have hbehind : l.behind m rest size =
        { l with queue := rest, previous := some m.packet.toPacketHeader } := if_pos hlast
    have hgot : got = (if m.started then r.got else []) ++ m.unsent := by
      rw [← hstarted, ← List.take_of_length_le hlast]
    rw [hadd, hbehind, dueAfter_nil, hgot, List.append_assoc]
    rfl
  · have hadd : r' = { r with got } := by
      show (if decide (m.unsent.length ≤ size) = true then _ else _) = _
      rw [if_neg (by rwa [decide_eq_true_eq])]
      rfl
    have hbehind : l.behind m rest size = { l with
        queue := { m with unsent := m.unsent.drop size, started := true } :: rest } := if_neg hlast
    have hgot : got ++ m.unsent.drop size = (if m.started then r.got else []) ++ m.unsent := by
      rw [List.append_assoc, List.take_append_drop, hstarted]
    rw [hadd, hbehind, ← hgot]
    rfl

end Lane

/-! ### Parcels one after the other -/

namespace Served

variable {lanes lanes' : Keyed UInt32 Lane} {size size' : Nat}

/-- **A walk over the lanes pays what is due**, lane by lane. By induction on the walk, with what
has come before. -/
theorem pays {parcels : List Parcel} (h : Served lanes size parcels lanes' size') (c : UInt32)
    (r : Receipt) :
    let r' := (parcels.filter (·.chunkStream = c)).foldl Receipt.add r
    r'.complete ++ (laneOf lanes' c).dueAfter r'.got =
      r.complete ++ (laneOf lanes c).dueAfter r.got := by
  induction h generalizing r with
  | nil => rfl
  | @cons lanes lanes' size size' c' l m rest parcels hget hqueue _ _ ih =>
    -- a parcel pays on its own chunk stream and on no other
    by_cases hc : c' = c
    · subst hc
      have hlane := laneOf_put lanes c' (l.behind m rest size) c'
      rw [if_pos rfl] at hlane
      rw [hlane] at ih
      have hfilter : (l.parcel c' m size :: parcels).filter (·.chunkStream = c') =
          l.parcel c' m size :: parcels.filter (·.chunkStream = c') :=
        List.filter_cons_of_pos (decide_eq_true rfl)
      rw [hfilter, List.foldl_cons, laneOf_of_get? hget]
      exact (ih _).trans (Lane.dueAfter_behind hqueue c' size r)
    · have hlane := laneOf_put lanes c' (l.behind m rest size) c
      rw [if_neg (Ne.symm hc)] at hlane
      rw [hlane] at ih
      have hfilter : (l.parcel c' m size :: parcels).filter (·.chunkStream = c) =
          parcels.filter (·.chunkStream = c) :=
        List.filter_cons_of_neg (by rwa [decide_eq_true_eq])
      rw [hfilter]
      exact ih r

/-- The moment before a parcel goes out: it is the next one of the lowest lane that has something to
send. -/
theorem split {xs ys : List Parcel} {p : Parcel}
    (h : Served lanes size (xs ++ p :: ys) lanes' size') :
    ∃ mid midSize m rest, Served lanes size xs mid midSize ∧
      (laneOf mid p.chunkStream).queue = m :: rest ∧ m.packet = p.packet ∧
      ∀ c, c < p.chunkStream → (laneOf mid c).queue = [] := by
  -- on the parcels in front; lanes below the one that is served are empty at that moment
  induction xs generalizing lanes size with
  | nil =>
    cases h with
    | @cons _ _ _ _ c l m rest _ hget hqueue hlower _ =>
      refine ⟨lanes, size, m, rest, .nil _ _, ?_, rfl, fun c' hlt => ?_⟩
      · rw [show (l.parcel c m size).chunkStream = c from rfl, laneOf_of_get? hget, hqueue]
      · cases hget' : lanes.get? c' with
        | none =>
          rw [laneOf, hget']
          rfl
        | some l' =>
          rw [laneOf_of_get? hget']
          exact hlower c' l' hlt hget'
  | cons x xs ih =>
    cases h with
    | cons hget hqueue hlower h =>
      obtain ⟨mid, midSize, m, rest, hserved, hfacts⟩ := ih h
      exact ⟨mid, midSize, m, rest, .cons hget hqueue hlower hserved, hfacts⟩

end Served

namespace Mux

/-! ### Sending sides -/

/-- The messages that wait on a chunk stream, each with the bytes of it that did not go out yet. -/
def due (m : Mux) (c : UInt32) : List (Packet × List UInt8) :=
  (m.lane c).due

theorem due_enqueue (m : Mux) (p : Packet) (c : UInt32) :
    (m.enqueue p).due c = m.due c ++ ([p].filter (·.chunkStream = c)).map whole := by
  unfold due
  rw [lane_enqueue]
  by_cases hc : c = p.chunkStream
  · rw [if_pos hc, List.filter_cons_of_pos (by simpa using hc.symm), List.filter_nil,
      List.map_singleton, Lane.due_enqueue]
  · rw [if_neg hc, List.filter_cons_of_neg (by simpa using Ne.symm hc), List.filter_nil,
      List.map_nil, List.append_nil]

/-- Messages that are queued one after the other are due in this order. -/
theorem due_enqueueAll (m : Mux) (ps : List Packet) (c : UInt32) :
    (ps.foldl enqueue m).due c = m.due c ++ (ps.filter (·.chunkStream = c)).map whole := by
  induction ps generalizing m with
  | nil => exact (List.append_nil _).symm
  | cons p rest ih =>
    rw [List.foldl_cons, ih, due_enqueue, List.append_assoc, ← List.map_append,
      ← List.filter_append, List.singleton_append]

/-- What is done with a sending side from one reset to the next. -/
inductive Use
  | send (p : Packet)
  | take (now budget : Nat)
  deriving DecidableEq, Repr

/-- The messages that are queued, in order. -/
def sent (uses : List Use) : List Packet :=
  uses.filterMap fun
    | .send p => some p
    | .take _ _ => none

def use (m : Mux) : Use → Mux × List UInt8
  | .send p => (m.enqueue p, [])
  | .take now budget => m.serialize now budget

/-- Use a sending side. All that is taken out is put together. -/
def useAll (m : Mux) : List Use → Mux × List UInt8
  | [] => (m, [])
  | u :: rest =>
    let first := m.use u
    let later := first.1.useAll rest
    (later.1, first.2 ++ later.2)

/-- Uses in a row come to one after the other. -/
theorem useAll_append (m : Mux) (uses more : List Use) :
    m.useAll (uses ++ more) =
      (((m.useAll uses).1.useAll more).1,
        (m.useAll uses).2 ++ ((m.useAll uses).1.useAll more).2) := by
  induction uses generalizing m with
  | nil => rfl
  | cons u rest ih => simp only [List.cons_append, useAll, ih, List.append_assoc]

/-- The line of a chunk stream: what was due on it, and behind that the messages `ps` of it. -/
def line (m : Mux) (ps : List Packet) (c : UInt32) : List (Packet × List UInt8) :=
  m.due c ++ (ps.filter (·.chunkStream = c)).map whole

/-- Later messages stand behind in their lines. -/
theorem line_append (m : Mux) (ps more : List Packet) (c : UInt32) :
    m.line (ps ++ more) c = m.line ps c ++ (more.filter (·.chunkStream = c)).map whole := by
  rw [line, line, List.filter_append, List.map_append, List.append_assoc]

/-- From `m`, `parcels` went out while `ps` were queued, and `m'` is left. -/
structure Pays (m : Mux) (ps : List Packet) (parcels : List Parcel) (m' : Mux) : Prop where
  /-- What came on a chunk stream, and what is still due on it, is its line. -/
  balance : ∀ c, (Receipt.ofParcels c parcels).complete ++
    (m'.lane c).dueAfter (Receipt.ofParcels c parcels).got = m.line ps c
  /-- A parcel is a part of the message whose turn it is. -/
  carries : ∀ xs p ys, parcels = xs ++ p :: ys → ∃ bytes rest,
    m.line ps p.chunkStream =
      (Receipt.ofParcels p.chunkStream xs).complete ++ (p.packet, bytes) :: rest
  /-- Before it goes out, all that was due on lower chunk streams has come. -/
  lower : ∀ xs p ys, parcels = xs ++ p :: ys → ∀ c, c < p.chunkStream →
    m.due c <+: (Receipt.ofParcels c xs).complete

/-- Without any use nothing is paid. -/
theorem Pays.refl (m : Mux) : m.Pays [] [] m where
  balance c := by
    show [] ++ (m.lane c).dueAfter [] = m.due c ++ []
    rw [Lane.dueAfter_nil, List.append_nil]
    rfl
  carries xs p ys h := absurd h.symm (by simp)
  lower xs p ys h := absurd h.symm (by simp)

/-- One more message is queued. -/
theorem Pays.enqueue {m m' : Mux} {ps : List Packet} {parcels : List Parcel}
    (h : m.Pays ps parcels m') (p : Packet) : m.Pays (ps ++ [p]) parcels (m'.enqueue p) where
  balance c := by
    rw [line_append, ← h.balance, lane_enqueue]
    -- one lane owes the message, and the others none
    by_cases hc : c = p.chunkStream
    · rw [if_pos hc, List.filter_cons_of_pos (by simpa using hc.symm), List.filter_nil,
        List.map_singleton, Lane.dueAfter_enqueue, List.append_assoc]
    · rw [if_neg hc, List.filter_cons_of_neg (by simpa using Ne.symm hc), List.filter_nil,
        List.map_nil, List.append_nil]
  carries xs q ys hparcels := by
    obtain ⟨bytes, rest, hline⟩ := h.carries xs q ys hparcels
    refine ⟨bytes, rest ++ ([p].filter (·.chunkStream = q.chunkStream)).map whole, ?_⟩
    rw [line_append, hline, List.append_assoc, List.cons_append]
  lower := h.lower

/-- More parcels go out. -/
theorem Pays.sends {m m' m'' : Mux} {ps : List Packet} {parcels more : List Parcel}
    (h : m.Pays ps parcels m') {raw : List UInt8} (hsends : m'.Sends raw more m'') :
    m.Pays ps (parcels ++ more) m'' := by
  -- the balance at any moment while the parcels go out
  have hbalance : ∀ {zs : List Parcel} {lanes : Keyed UInt32 Lane} {size : Nat},
      Served m'.lanes m'.chunkSize zs lanes size → ∀ c,
        (Receipt.ofParcels c (parcels ++ zs)).complete ++
          (laneOf lanes c).dueAfter (Receipt.ofParcels c (parcels ++ zs)).got = m.line ps c := by
    intro zs lanes size hserved c
    rw [Receipt.ofParcels_append, ← h.balance]
    exact hserved.pays c (Receipt.ofParcels c parcels)
  have hmoment : ∀ xs p ys, parcels ++ more = xs ++ p :: ys →
      (∃ bytes rest, m.line ps p.chunkStream =
        (Receipt.ofParcels p.chunkStream xs).complete ++ (p.packet, bytes) :: rest) ∧
      ∀ c, c < p.chunkStream → m.due c <+: (Receipt.ofParcels c xs).complete := by
    intro xs p ys hparcels
    have hwhere : (∃ zs, xs = parcels ++ zs ∧ more = zs ++ p :: ys) ∨
        ∃ zs, parcels = xs ++ p :: zs := by
      rcases List.append_eq_append_iff.1 hparcels with h | ⟨zs, hfirst, hrest⟩
      · exact .inl h
      · cases zs with
        | nil =>
          exact .inl ⟨[], by rw [hfirst, List.append_nil, List.append_nil], hrest.symm⟩
        | cons z zs =>
          obtain ⟨rfl, -⟩ := List.cons.inj hrest
          exact .inr ⟨zs, hfirst⟩
    rcases hwhere with ⟨zs, rfl, hmore⟩ | ⟨zs, hfirst⟩
    · have hserved := hsends.served
      rw [hmore] at hserved
      obtain ⟨mid, midSize, x, rest, hbefore, hqueue, hpacket, hlower⟩ := hserved.split
      refine ⟨?_, fun c hlt => ?_⟩
      · rw [← hbalance hbefore, Lane.dueAfter, hqueue, ← hpacket]
        exact ⟨_, _, rfl⟩
      · have hpaid := hbalance hbefore c
        rw [Lane.dueAfter_of_queue (hlower c hlt), List.append_nil] at hpaid
        exact ⟨_, hpaid.symm⟩
    · exact ⟨h.carries xs p zs hfirst, h.lower xs p zs hfirst⟩
  exact ⟨fun c => hbalance hsends.served c, fun xs p ys hparcels => (hmoment xs p ys hparcels).1,
    fun xs p ys hparcels => (hmoment xs p ys hparcels).2⟩

/-- Once nothing waits, every line was paid to the end. -/
theorem Pays.complete {m m' : Mux} {ps : List Packet} {parcels : List Parcel}
    (h : m.Pays ps parcels m') (hdata : m'.hasData = false) (c : UInt32) :
    (Receipt.ofParcels c parcels).complete = m.line ps c := by
  have hqueue : (m'.lane c).queue = [] := List.map_eq_nil_iff.1 (waiting_of_hasData hdata c)
  rw [← h.balance, Lane.dueAfter_of_queue hqueue, List.append_nil]

/-! ### Using a sending side -/

/-- Raw bytes come before all parcels, so that there are none behind a parcel. -/
theorem wire_append {raw raw' : List UInt8} {parcels : List Parcel} (more : List Parcel)
    (h : parcels ≠ [] → raw' = []) :
    wire (raw ++ raw') (parcels ++ more) = wire raw parcels ++ wire raw' more := by
  unfold wire
  by_cases hfirst : parcels = []
  · rw [hfirst, List.nil_append, List.flatMap_nil, List.append_nil, List.append_assoc]
  · rw [h hfirst, List.append_nil, List.nil_append, List.flatMap_append, List.append_assoc]

/-- **Lines are paid in turn**, whatever is queued and taken out meanwhile. -/
theorem Orderly.useAll {m : Mux} (h : m.Orderly) (uses : List Use) :
    (m.useAll uses).1.Orderly ∧ ∃ raw parcels, (m.useAll uses).2 = wire raw parcels ∧
      (parcels ≠ [] → (m.useAll uses).1.raw = []) ∧
      m.Pays (sent uses) parcels (m.useAll uses).1 := by
  -- by induction on what was done last
  induction uses using List.reverseRecOn with
  | nil => exact ⟨h, [], [], rfl, fun hne => absurd rfl hne, .refl m⟩
  | append_singleton uses u ih =>
    obtain ⟨horderly, raw, parcels, hout, hraw, hpays⟩ := ih
    rw [useAll_append]
    cases u with
    | send p =>
      have hsent : sent (uses ++ [.send p]) = sent uses ++ [p] := List.filterMap_append
      refine ⟨horderly.enqueue p, raw, parcels, ?_, hraw, hsent ▸ hpays.enqueue p⟩
      exact (List.append_nil _).trans hout
    | take now budget =>
      obtain ⟨hafter, -, -, -, ⟨raw', more, hmore, hsends⟩, -⟩ := horderly.serialize now budget
      have hsent : sent (uses ++ [.take now budget]) = sent uses :=
        List.filterMap_append.trans (List.append_nil _)
      -- behind a parcel no raw bytes are left
      have hbehind : parcels ≠ [] → raw' = [] ∧
          ((m.useAll uses).1.serialize now budget).1.raw = [] := fun hne =>
        List.append_eq_nil_iff.1 (hsends.raw_eq.symm.trans (hraw hne))
      refine ⟨hafter, raw ++ raw', parcels ++ more, ?_, fun hne => ?_, hsent ▸ hpays.sends hsends⟩
      · rw [wire_append more fun hne => (hbehind hne).1, ← hout, ← hmore]
        exact congrArg _ (List.append_nil _)
      · by_cases hfirst : parcels = []
        · exact hsends.rawFirst (by rwa [hfirst, List.nil_append] at hne)
        · exact (hbehind hfirst).2

/-- Every lane has the name of its chunk stream. -/
def Labelled (m : Mux) : Prop :=
  ∀ c l, m.lanes.get? c = some l → l.chunkStream = c

/-- A lane carries the label of its chunk stream. -/
theorem Labelled.lane {m : Mux} (h : m.Labelled) (c : UInt32) : (m.lane c).chunkStream = c := by
  cases hget : m.lanes.get? c with
  | none =>
    rw [Mux.lane, hget]
    rfl
  | some l =>
    rw [lane_eq hget]
    exact h c l hget

theorem Labelled.enqueue {m : Mux} (h : m.Labelled) (p : Packet) : (m.enqueue p).Labelled := by
  intro c l hget
  rcases get?_enqueue hget with ⟨-, rfl⟩ | ⟨-, hother⟩
  · exact h.lane c
  · exact h c l hother

/-- Dropping a stream moves no lane. -/
theorem Labelled.reset {m : Mux} (h : m.Labelled) (streamId : UInt32) :
    (m.reset streamId).1.Labelled := by
  have hlanes : (m.resetLanes streamId).Labelled := by
    intro c l hget
    obtain ⟨l₀, hget₀, rfl⟩ := get?_resetLanes hget
    exact h c l₀ hget₀
  rw [reset_eq]
  generalize m.resetLanes streamId = m₁ at hlanes ⊢
  -- the aborts are queued one by one
  induction (m.reset streamId).2 generalizing m₁ with
  | nil => exact hlanes
  | cons a rest ih => exact ih _ (hlanes.enqueue _)

/-- Whoever finds a sending side could have kept account of it. -/
theorem Reached.exists_shipped {m : Mux} (h : m.Reached) :
    ∃ (s : Run) (shipments : List Shipment), s.mux = m ∧ s.Shipped shipments := by
  -- the account is kept by the same steps, and each call that takes bytes out adds a shipment
  induction h with
  | initial => exact ⟨_, _, rfl, .initial⟩
  | pushRaw _ bytes ih =>
    obtain ⟨s, shipments, rfl, hs⟩ := ih
    exact ⟨_, _, rfl, hs.pushRaw bytes⟩
  | enqueue _ p ih =>
    obtain ⟨s, shipments, rfl, hs⟩ := ih
    exact ⟨_, _, rfl, hs.enqueue p⟩
  | reset _ streamId ih =>
    obtain ⟨s, shipments, rfl, hs⟩ := ih
    exact ⟨_, _, rfl, hs.reset streamId⟩
  | serialize _ now budget ih =>
    obtain ⟨s, shipments, rfl, hs⟩ := ih
    obtain ⟨shipment, hs'⟩ := hs.serialize now budget
    exact ⟨_, _, rfl, hs'⟩

/-- Of the messages that wait, only the one in front may have been begun, and what is left of a
message is its end. -/
theorem Reached.waits {m : Mux} (h : m.Reached) {c : UInt32} {x : Outgoing} {rest : List Outgoing}
    (hqueue : (m.lane c).queue = x :: rest) :
    (∃ gone, gone ++ x.unsent = x.packet.payload) ∧ (x.started = false → x.Untouched) ∧
      ∀ y ∈ rest, y.Untouched := by
  obtain ⟨s, shipments, rfl, hs⟩ := h.exists_shipped
  obtain ⟨huntouched | ⟨hstarted, hgone⟩, hrest⟩ := hs.holds c x rest hqueue
  · exact ⟨⟨[], huntouched.2⟩, fun _ => huntouched, hrest⟩
  · exact ⟨⟨_, hgone⟩, fun hnot => (nomatch hstarted.symm.trans hnot), hrest⟩

/-- Of a message of which nothing went out, nothing is missing. -/
theorem Reached.unsent {m : Mux} (h : m.Reached) {c : UInt32} {x : Outgoing}
    (hx : x ∈ (m.lane c).queue) :
    x.unsent <:+ x.packet.payload ∧ (x.started = false → x.unsent = x.packet.payload) := by
  cases hqueue : (m.lane c).queue with
  | nil =>
    rw [hqueue] at hx
    exact absurd hx List.not_mem_nil
  | cons front rest =>
    obtain ⟨hsuffix, hfront, hrest⟩ := h.waits hqueue
    rw [hqueue] at hx
    -- only the front message may have been cut already
    rcases List.mem_cons.1 hx with rfl | hx
    · exact ⟨hsuffix, fun hnot => (hfront hnot).2⟩
    · exact ⟨(hrest x hx).2 ▸ List.suffix_refl _, fun _ => (hrest x hx).2⟩

end Mux

end LiveIngest.Chunk
