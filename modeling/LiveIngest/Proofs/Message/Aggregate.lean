import Mathlib.Data.List.Forall2
import LiveIngest.Message.Aggregate
import LiveIngest.Proofs.Bytes.Endian

/-!
# What an aggregate is made of

The grammar of an aggregate's payload, told without the function that splits it. A tag is written as
a header, in which three bytes are free, and its body; four free bytes of back pointer follow, which
the last tag may lack (`AggregateTag.Spells`). The size field has 24 bits, so that a body is shorter
than 2 ^ 24 bytes.

Splitting is an inverse of writing, in both directions (`splitAll_eq_ok_iff`). So a payload spells
at most one list of tags, although the back pointer of the last tag is optional: one to three bytes
behind the last body are no back pointer, and no tag either.

The messages of an aggregate may be aggregates again. `Packet.Flattens` tells what is inside of
packets down to the last level, one packet after the other. The messages of an aggregate are shorter
than the aggregate, so that every packet has a last level.

Main statements:

* `Packet.split_iff_spells` — which packets are split, and into what;
* `Packet.flattens_iff` — the leaves of packets are what is inside of them, in depth-first order.
-/

namespace LiveIngest

namespace AggregateTag

/-! ### Written tags -/

/-- The header of a tag: its type, the size of its body, the low 24 and the high 8 bits of its
timestamp, and the id of a stream. -/
def header (t : AggregateTag) (stream : List UInt8) : List UInt8 :=
  t.type :: (Bytes.bigEndian 3 t.body.length ++
    (Bytes.bigEndian 3 t.timestamp.toNat ++ UInt8.ofNat (t.timestamp.toNat >>> 24) :: stream))

/-- The bytes spell the tags, one after the other. Stream ids and back pointers are any bytes. -/
inductive Spells : List UInt8 → List AggregateTag → Prop
  | nil : Spells [] []
  /-- The last tag may lack its back pointer. -/
  | last {t : AggregateTag} {stream : List UInt8} (hsize : t.body.length < 2 ^ 24)
      (hstream : stream.length = 3) : Spells (t.header stream ++ t.body) [t]
  | cons {t : AggregateTag} {stream backPointer rest : List UInt8} {tags : List AggregateTag}
      (hsize : t.body.length < 2 ^ 24) (hstream : stream.length = 3)
      (hback : backPointer.length = 4) (h : Spells rest tags) :
      Spells (t.header stream ++ (t.body ++ (backPointer ++ rest))) (t :: tags)

/-! ### Eleven bytes -/

/-- **Every eleven bytes are the header of a tag**, of one with a body of the announced size. -/
theorem header_of_bytes (type s2 s1 s0 t2 t1 t0 t3 i2 i1 i0 : UInt8) {body : List UInt8}
    (hbody : body.length = Bytes.ofBigEndian [s2, s1, s0]) :
    header ⟨type, .ofNat (Bytes.ofBigEndian [t3, t2, t1, t0]), body⟩ [i2, i1, i0] =
      [type, s2, s1, s0, t2, t1, t0, t3, i2, i1, i0] := by
  have hsize : Bytes.bigEndian 3 body.length = [s2, s1, s0] := by
    rw [hbody]
    exact Bytes.bigEndian_ofBigEndian [s2, s1, s0]
  -- the four bytes of the timestamp stand in the order that a number of 32 bits has them
  have hlt : Bytes.ofBigEndian [t3, t2, t1, t0] < UInt32.size := by
    simpa using Bytes.ofBigEndian_lt [t3, t2, t1, t0]
  have htime : Bytes.bigEndian 4 (UInt32.ofNat (Bytes.ofBigEndian [t3, t2, t1, t0])).toNat =
      [t3, t2, t1, t0] := by
    rw [UInt32.toNat_ofNat_of_lt' hlt]
    exact Bytes.bigEndian_ofBigEndian [t3, t2, t1, t0]
  obtain ⟨hhigh, hlow⟩ := List.cons.inj htime
  unfold header
  dsimp only
  rw [hsize, hlow, hhigh]
  rfl

/-- Splitting begins with eleven bytes of header. -/
theorem splitAll_cons (type s2 s1 s0 t2 t1 t0 t3 i2 i1 i0 : UInt8) (rest : List UInt8) :
    splitAll (type :: s2 :: s1 :: s0 :: t2 :: t1 :: t0 :: t3 :: i2 :: i1 :: i0 :: rest) =
      let size := Bytes.ofBigEndian [s2, s1, s0]
      if rest.length < size then .error (.aggregateOverrun size rest.length)
      else
        let time : UInt32 := .ofNat (Bytes.ofBigEndian [t3, t2, t1, t0])
        (splitAll (afterBody (rest.drop size))).map (⟨type, time, rest.take size⟩ :: ·) := by
  rw [splitAll]
  dsimp only
  rw [List.length_take]
  simp only [inf_lt_left, not_le]

/-- **A tag is read back** from its header, in front of a body of the announced size and of anything
else. -/
theorem splitAll_header {t : AggregateTag} {stream : List UInt8} (hsize : t.body.length < 2 ^ 24)
    (hstream : stream.length = 3) (rest : List UInt8) :
    splitAll (t.header stream ++ (t.body ++ rest)) =
      (splitAll (afterBody rest)).map (t :: ·) := by
  obtain ⟨i2, i1, i0, rfl⟩ : ∃ i2 i1 i0, stream = [i2, i1, i0] := by
    rcases stream with _ | ⟨i2, _ | ⟨i1, _ | ⟨i0, _ | ⟨_, _⟩⟩⟩⟩ <;> simp at hstream
    exact ⟨i2, i1, i0, rfl⟩
  have hlength : Bytes.ofBigEndian (Bytes.bigEndian 3 t.body.length) = t.body.length :=
    Bytes.ofBigEndian_bigEndian hsize
  have htime : UInt32.ofNat (Bytes.ofBigEndian (Bytes.bigEndian 4 t.timestamp.toNat)) =
      t.timestamp := Bytes.ofNat_ofBigEndian_bigEndian t.timestamp
  -- the fields, byte by byte
  obtain ⟨s2, s1, s0, hs⟩ : ∃ s2 s1 s0, Bytes.bigEndian 3 t.body.length = [s2, s1, s0] :=
    ⟨_, _, _, rfl⟩
  obtain ⟨t2, t1, t0, ht⟩ : ∃ t2 t1 t0, Bytes.bigEndian 3 t.timestamp.toNat = [t2, t1, t0] :=
    ⟨_, _, _, rfl⟩
  rw [hs] at hlength
  rw [Bytes.bigEndian, ht] at htime
  unfold header
  rw [hs, ht]
  show splitAll (t.type :: s2 :: s1 :: s0 :: t2 :: t1 :: t0 ::
    UInt8.ofNat (t.timestamp.toNat >>> 24) :: i2 :: i1 :: i0 :: (t.body ++ rest)) = _
  rw [splitAll_cons, hlength, htime]
  dsimp only
  rw [if_neg (by simp), List.drop_left, List.take_left]

/-- Behind a body there is a back pointer, which is passed over, or too little for one. -/
theorem afterBody_cases (rest : List UInt8) :
    (∃ backPointer after, backPointer.length = 4 ∧ rest = backPointer ++ after ∧
      afterBody rest = after) ∨ rest.length < 4 ∧ afterBody rest = rest := by
  rcases rest with _ | ⟨b3, _ | ⟨b2, _ | ⟨b1, _ | ⟨b0, after⟩⟩⟩⟩
  case cons.cons.cons.cons => exact Or.inl ⟨[b3, b2, b1, b0], after, rfl, rfl, rfl⟩
  all_goals exact Or.inr ⟨by simp, rfl⟩

/-! ### Splitting and writing -/

/-- What is written is split again. -/
theorem Spells.splitAll_eq {bytes : List UInt8} {tags : List AggregateTag}
    (h : Spells bytes tags) : splitAll bytes = .ok tags := by
  induction h with
  | nil => rw [splitAll]
  | @last t stream hsize hstream =>
    have hlast := splitAll_header hsize hstream []
    rw [List.append_nil, afterBody, splitAll] at hlast
    · exact hlast
    · rintro _ _ _ _ _ ⟨⟩
  | @cons t stream backPointer rest tags hsize hstream hback _ ih =>
    -- four bytes are passed over, whatever they are
    have hafter : afterBody (backPointer ++ rest) = rest := by
      rcases backPointer with _ | ⟨_, _ | ⟨_, _ | ⟨_, _ | ⟨_, _ | ⟨_, _⟩⟩⟩⟩⟩ <;> simp at hback
      rfl
    rw [splitAll_header hsize hstream, hafter, ih]
    rfl

/-- Less than four bytes are no tag. -/
theorem eq_nil_of_splitAll {left : List UInt8} (hless : left.length < 4)
    {tags : List AggregateTag} (h : splitAll left = .ok tags) : left = [] := by
  unfold splitAll at h
  split at h
  · rfl
  · simp only [List.length_cons] at hless
    omega
  · cases h

/-- **What is split was written as tags.** -/
theorem spells_of_splitAll {bytes : List UInt8} {tags : List AggregateTag}
    (h : splitAll bytes = .ok tags) : Spells bytes tags := by
  -- by induction on what is left behind each tag
  fun_induction splitAll bytes generalizing tags with
  | case1 =>
    cases h
    exact .nil
  | case2 => cases h
  | case3 =>
    rename_i type s2 s1 s0 t2 t1 t0 t3 i2 i1 i0 rest size body hsize tag ih
    obtain ⟨more, hmore, rfl⟩ : ∃ more, splitAll (afterBody (rest.drop size)) = .ok more ∧
        tag :: more = tags := by
      cases hrest : splitAll (afterBody (rest.drop size)) with
      | error f =>
        rw [hrest] at h
        cases h
      | ok more =>
        rw [hrest] at h
        exact ⟨more, rfl, Except.ok.inj h⟩
    -- the body has the size that the header announces
    have hbody : body.length = size := Nat.le_antisymm (List.length_take_le _ _) (by omega)
    have hlt : tag.body.length < 2 ^ 24 := by
      show body.length < _
      rw [hbody]
      simpa using Bytes.ofBigEndian_lt [s2, s1, s0]
    have hheader := header_of_bytes type s2 s1 s0 t2 t1 t0 t3 i2 i1 i0 hbody
    have hrest : rest = tag.body ++ rest.drop size := (List.take_append_drop size rest).symm
    have hwhole : type :: s2 :: s1 :: s0 :: t2 :: t1 :: t0 :: t3 :: i2 :: i1 :: i0 :: rest =
        tag.header [i2, i1, i0] ++ (tag.body ++ rest.drop size) := by
      rw [← hrest]
      show [type, s2, s1, s0, t2, t1, t0, t3, i2, i1, i0] ++ rest = _
      rw [← hheader]
    rw [hwhole]
    obtain ⟨backPointer, after, hback, hdrop, hafter⟩ | ⟨hless, hafter⟩ :=
      afterBody_cases (rest.drop size)
    · rw [hafter] at hmore ih
      rw [hdrop]
      exact .cons hlt rfl hback (ih hmore)
    · -- too little for a back pointer: the payload ends with the body
      rw [hafter] at hmore
      have hend := eq_nil_of_splitAll hless hmore
      rw [hend] at hmore ⊢
      rw [splitAll] at hmore
      cases hmore
      rw [List.append_nil]
      exact .last hlt rfl
  | case4 => cases h

/-- **Splitting is the inverse of writing.** -/
theorem splitAll_eq_ok_iff (bytes : List UInt8) (tags : List AggregateTag) :
    splitAll bytes = .ok tags ↔ Spells bytes tags :=
  ⟨spells_of_splitAll, Spells.splitAll_eq⟩

/-- **Bytes spell at most one list of tags.** -/
theorem Spells.unique {bytes : List UInt8} {tags tags' : List AggregateTag}
    (h : Spells bytes tags) (h' : Spells bytes tags') : tags = tags' :=
  Except.ok.inj (h.splitAll_eq.symm.trans h'.splitAll_eq)

end AggregateTag

/-! ### The messages of an aggregate -/

namespace Packet

open AggregateTag

/-- `q` is the message of a tag. The first tag has the aggregate's own timestamp, and the others
keep their distance from it, modulo 2 ^ 32. -/
structure Rebased (p : Packet) (first tag : AggregateTag) (q : Packet) : Prop where
  type : q.type = tag.type
  length : q.length = tag.body.length
  payload : q.payload = tag.body
  streamId : q.streamId = p.streamId
  chunkStream : q.chunkStream = p.chunkStream
  timestamp : (q.timestamp.toNat : Int) =
    (p.timestamp.toNat + (tag.timestamp.toNat - first.timestamp.toNat)) % 2 ^ 32

/-- The payload spells tags, and `parts` are their messages, in order. -/
def Carries (p : Packet) (parts : List Packet) : Prop :=
  ∃ tags, Spells p.payload tags ∧
    List.Forall₂ (fun tag q => ∀ first ∈ tags.head?, p.Rebased first tag q) tags parts

theorem toNat_add_sub (base time first : UInt32) :
    ((base + (time - first)).toNat : Int) =
      (base.toNat + (time.toNat - first.toNat)) % 2 ^ 32 := by
  have hbase := base.toNat_lt
  have htime := time.toNat_lt
  have hfirst := first.toNat_lt
  rw [UInt32.toNat_add, UInt32.toNat_sub]
  omega

theorem rebased_packet (p : Packet) (first tag : AggregateTag) :
    p.Rebased first tag (tag.packet p first.timestamp) where
  type := rfl
  length := rfl
  payload := rfl
  streamId := rfl
  chunkStream := rfl
  timestamp := toNat_add_sub p.timestamp tag.timestamp first.timestamp

/-- A tag has one message. -/
theorem Rebased.unique {p q q' : Packet} {first tag : AggregateTag} (h : p.Rebased first tag q)
    (h' : p.Rebased first tag q') : q = q' := by
  have htime : q.timestamp = q'.timestamp := by
    refine UInt32.toNat_inj.1 ?_
    have hsame := h.timestamp.trans h'.timestamp.symm
    exact Int.ofNat_inj.1 hsame
  obtain ⟨⟨_, _, _, _, _⟩, _⟩ := q
  obtain ⟨⟨_, _, _, _, _⟩, _⟩ := q'
  obtain ⟨rfl, rfl, rfl, rfl, rfl, -⟩ := h
  obtain ⟨rfl, rfl, rfl, rfl, rfl, -⟩ := h'
  dsimp only at htime
  rw [htime]

/-- Messages that stand for the same tags are the same. -/
theorem eq_of_rebased {p : Packet} {first : AggregateTag} {tags : List AggregateTag}
    {parts parts' : List Packet} (h : List.Forall₂ (p.Rebased first) tags parts)
    (h' : List.Forall₂ (p.Rebased first) tags parts') : parts = parts' := by
  induction h generalizing parts' with
  | nil =>
    cases h'
    rfl
  | cons hq _ ih =>
    cases h' with
    | cons hq' h' => rw [hq.unique hq', ih h']

theorem forall₂_rebased_packet (p : Packet) (first : AggregateTag) (tags : List AggregateTag) :
    List.Forall₂ (p.Rebased first) tags (tags.map fun tag => tag.packet p first.timestamp) := by
  induction tags with
  | nil => exact .nil
  | cons tag tags ih => exact .cons (rebased_packet p first tag) ih

theorem split_of_spells {p : Packet} {tags : List AggregateTag} (h : Spells p.payload tags) :
    p.split = .ok (tags.map fun tag => tag.packet p ((tags.head?.map (·.timestamp)).getD 0)) := by
  rw [split, (splitAll_eq_ok_iff p.payload tags).2 h]
  rfl

/-- **Splitting gives the messages that the payload carries.** -/
theorem split_eq_ok_iff (p : Packet) (parts : List Packet) :
    p.split = .ok parts ↔ p.Carries parts := by
  constructor
  · intro hparts
    cases htags : splitAll p.payload with
    | error f =>
      rw [split, htags] at hparts
      cases hparts
    | ok tags =>
      have hspells := (splitAll_eq_ok_iff p.payload tags).1 htags
      obtain rfl := Except.ok.inj ((split_of_spells hspells).symm.trans hparts)
      refine ⟨tags, hspells, ?_⟩
      -- without a tag there is no first timestamp to rebase on
      cases tags with
      | nil => exact .nil
      | cons first tags =>
        refine (forall₂_rebased_packet p first (first :: tags)).imp fun tag q hq first' hfirst => ?_
        cases hfirst
        exact hq
  · rintro ⟨tags, hspells, hparts⟩
    rw [split_of_spells hspells]
    cases tags with
    | nil =>
      cases hparts
      rfl
    | cons first tags =>
      have hrebased := hparts.imp fun tag q hq => hq first rfl
      exact congrArg Except.ok
        (eq_of_rebased (forall₂_rebased_packet p first (first :: tags)) hrebased)

/-- A packet whose payload spells tags is split. -/
theorem exists_split_iff (p : Packet) :
    (∃ parts, p.split = .ok parts) ↔ ∃ tags, Spells p.payload tags := by
  constructor
  · rintro ⟨parts, hparts⟩
    obtain ⟨tags, hspells, -⟩ := (split_eq_ok_iff p parts).1 hparts
    exact ⟨tags, hspells⟩
  · rintro ⟨tags, hspells⟩
    exact ⟨_, split_of_spells hspells⟩

/-- **What is split, and into what.** A packet is split exactly if its payload is a concatenation of
tags, of which only the last may lack its back pointer. There is one message for each tag then, in
order, with the type, size and body of its tag, the streams of the aggregate, and a timestamp that
is as far from the aggregate's as the tag's is from the first one's. Any other payload is a fault.
The payload leaves no choice of what its tags are. -/
theorem split_iff_spells (p : Packet) :
    ((∃ parts, p.split = .ok parts) ↔ ∃ tags, Spells p.payload tags) ∧
      (∀ parts, p.split = .ok parts ↔ p.Carries parts) ∧
      ((∃ f, p.split = .error f) ↔ ∀ tags, ¬ Spells p.payload tags) ∧
      ∀ tags tags', Spells p.payload tags → Spells p.payload tags' → tags = tags' := by
  refine ⟨exists_split_iff p, split_eq_ok_iff p, ?_, fun tags tags' h h' => h.unique h'⟩
  rw [← not_exists, ← exists_split_iff]
  cases p.split with
  | ok parts => exact ⟨fun ⟨f, hf⟩ => (by cases hf), fun hnone => absurd ⟨parts, rfl⟩ hnone⟩
  | error f => exact ⟨fun _ ⟨parts, hparts⟩ => (by cases hparts), fun _ => ⟨f, rfl⟩⟩

/-- Three tags whose timestamps pass 2 ^ 32 and then go back, the second one with an empty body, and
no back pointer behind the last one. With one more byte the payload is no aggregate. -/
theorem split_iff_spells_backwards :
    let header : PacketHeader := ⟨1000, 40, 22, 1, 6⟩
    let payload : List UInt8 := [8, 0, 0, 2, 0xff, 0xff, 0xf0, 0xff, 0, 0, 0, 0xaf, 1, 0, 0, 0, 13,
      9, 0, 0, 0, 0, 0, 5, 0, 0, 0, 7, 0xde, 0xad, 0xbe, 0xef,
      8, 0, 0, 1, 0xff, 0xff, 0, 0xff, 0, 0, 0, 0xaf]
    let parts : List Packet := [⟨⟨1000, 2, 8, 1, 6⟩, [0xaf, 1]⟩, ⟨⟨1021, 0, 9, 1, 6⟩, []⟩,
      ⟨⟨760, 1, 8, 1, 6⟩, [0xaf]⟩]
    Packet.split ⟨header, payload⟩ = .ok parts ∧ Packet.Carries ⟨header, payload⟩ parts ∧
      (∃ tags, Spells payload tags ∧ ∀ tags', Spells payload tags' → tags = tags') ∧
      ∀ tags, ¬ Spells (payload ++ [7]) tags := by
  intro header payload parts
  obtain ⟨hexists, hparts, -, hunique⟩ := split_iff_spells ⟨header, payload⟩
  obtain ⟨-, -, hfault, -⟩ := split_iff_spells ⟨header, payload ++ [7]⟩
  have hsplit : Packet.split ⟨header, payload⟩ = .ok parts := by decide +kernel
  have hstray : Packet.split ⟨header, payload ++ [7]⟩ = .error (.aggregateTrailing 1) := by
    decide +kernel
  obtain ⟨tags, htags⟩ := hexists.1 ⟨parts, hsplit⟩
  exact ⟨hsplit, (hparts parts).1 hsplit, ⟨tags, htags, fun tags' => hunique tags tags' htags⟩,
    hfault.1 ⟨_, hstray⟩⟩

/-! ### Aggregates inside aggregates -/

/-- `inside` is what is inside of packets down to the last level, in depth-first order. An aggregate
that carries nothing is left out, and what surrounds it stays. -/
inductive Flattens : (packets inside : List Packet) → Prop
  | nil : Flattens [] []
  | single {p : Packet} {rest inside : List Packet} (hp : p.isAggregate = false)
      (h : Flattens rest inside) : Flattens (p :: rest) (p :: inside)
  | malformed {p : Packet} {rest inside : List Packet} (hp : p.isAggregate = true)
      (hnone : ∀ tags, ¬ Spells p.payload tags) (h : Flattens rest inside) :
      Flattens (p :: rest) inside
  | aggregate {p : Packet} {parts rest inner inside : List Packet} (hp : p.isAggregate = true)
      (hparts : p.Carries parts) (hinner : Flattens parts inner) (h : Flattens rest inside) :
      Flattens (p :: rest) (inner ++ inside)

theorem leaves_of_not_isAggregate {p : Packet} (hp : p.isAggregate = false) : p.leaves = [p] := by
  rw [leaves, if_neg (Bool.eq_false_iff.1 hp)]

theorem leaves_of_split_error {p : Packet} (hp : p.isAggregate = true) {f : Fault}
    (hsplit : p.split = .error f) : p.leaves = [] := by
  rw [leaves, if_pos hp]
  split
  · rename_i parts h
    rw [hsplit] at h
    cases h
  · rfl

theorem leaves_of_split {p : Packet} (hp : p.isAggregate = true) {parts : List Packet}
    (hsplit : p.split = .ok parts) : p.leaves = parts.flatMap leaves := by
  rw [leaves, if_pos hp]
  split
  · rename_i parts' h
    rw [hsplit] at h
    cases h
    show parts.attach.flatMap (fun q => q.1.leaves) = _
    rw [← List.flatMap_map, List.attach_map_subtype_val]
  · rename_i f h
    rw [hsplit] at h
    cases h

/-- Packets in front of others. -/
theorem Flattens.append {ps qs inside inside' : List Packet} (h : Flattens ps inside)
    (h' : Flattens qs inside') : Flattens (ps ++ qs) (inside ++ inside') := by
  induction h with
  | nil => exact h'
  | single hp _ ih => exact .single hp ih
  | malformed hp hnone _ ih => exact .malformed hp hnone ih
  | aggregate hp hparts hinner _ _ ih =>
    rw [List.append_assoc]
    exact .aggregate hp hparts hinner ih

theorem flattens_flatMap {ps : List Packet} (h : ∀ p ∈ ps, Flattens [p] p.leaves) :
    Flattens ps (ps.flatMap leaves) := by
  induction ps with
  | nil => exact .nil
  | cons p rest ih =>
    have hrest := ih fun q hq => h q (List.mem_cons_of_mem p hq)
    exact (h p List.mem_cons_self).append hrest

/-- **Every packet has a last level.** -/
theorem flattens_leaves (p : Packet) : Flattens [p] p.leaves := by
  -- by induction on the size: what is inside of an aggregate is smaller
  induction hlength : p.payload.length using Nat.strong_induction_on generalizing p with
  | _ n ih =>
    cases hp : p.isAggregate with
    | false =>
      rw [leaves_of_not_isAggregate hp]
      exact .single hp .nil
    | true =>
      cases hsplit : p.split with
      | error f =>
        have hnone : ∀ tags, ¬ Spells p.payload tags := by
          intro tags htags
          rw [split_of_spells htags] at hsplit
          cases hsplit
        rw [leaves_of_split_error hp hsplit]
        exact .malformed hp hnone .nil
      | ok parts =>
        have hinner : Flattens parts (parts.flatMap leaves) := by
          refine flattens_flatMap fun q hq => ih _ ?_ q rfl
          rw [← hlength]
          exact length_payload_lt_of_split hsplit q hq
        rw [leaves_of_split hp hsplit, ← List.append_nil (parts.flatMap leaves)]
        exact .aggregate hp ((split_eq_ok_iff p parts).1 hsplit) hinner .nil

/-- **The leaves are what is inside**, and packets leave no choice of it. -/
theorem flattens_iff (ps inside : List Packet) :
    Flattens ps inside ↔ inside = ps.flatMap leaves := by
  constructor
  · intro h
    -- along the derivation; a malformed part has no leaves
    induction h with
    | nil => rfl
    | single hp _ ih =>
      rw [List.flatMap_cons, leaves_of_not_isAggregate hp, ih]
      rfl
    | @malformed p _ _ hp hnone _ ih =>
      cases hsplit : p.split with
      | error f => rw [List.flatMap_cons, leaves_of_split_error hp hsplit, List.nil_append, ih]
      | ok parts =>
        obtain ⟨tags, htags, -⟩ := (split_eq_ok_iff p parts).1 hsplit
        exact absurd htags (hnone tags)
    | @aggregate p parts _ _ _ hp hparts _ _ ihinner ih =>
      have hsplit := (split_eq_ok_iff p parts).2 hparts
      rw [List.flatMap_cons, leaves_of_split hp hsplit, ihinner, ih]
  · rintro rfl
    exact flattens_flatMap fun p _ => flattens_leaves p

end Packet

end LiveIngest
