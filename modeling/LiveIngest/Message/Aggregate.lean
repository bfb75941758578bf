import LiveIngest.Fault
import LiveIngest.Bytes.Endian
import LiveIngest.Message.Packet

/-!
# Aggregate messages

An aggregate bundles messages as a concatenation of tags. A tag is an eleven-byte header (type,
24-bit size, the low 24 and the high 8 bits of a timestamp, a 24-bit stream id that is not used), a
body of that size and four bytes of back pointer, which the last tag may lack.

* `Packet.split` — the messages of one aggregate; the first tag gets the aggregate's own timestamp
  and the others keep their distance from it;
* `Packet.leaves` — the messages of an aggregate and of the aggregates inside it, in depth-first
  order. An aggregate that is malformed contributes nothing, whatever surrounds it.
-/

namespace LiveIngest

/-- One tag of an aggregate. -/
structure AggregateTag where
  type : UInt8
  timestamp : UInt32
  body : List UInt8
  deriving DecidableEq, Repr

namespace AggregateTag

/-- What follows a tag's body: the back pointer is passed over where four bytes are left. -/
def afterBody : (rest : List UInt8) → List UInt8
  | _ :: _ :: _ :: _ :: after => after
  | rest => rest

theorem length_afterBody_le (rest : List UInt8) : (afterBody rest).length ≤ rest.length := by
  unfold afterBody
  split
  · simp only [List.length_cons]; omega
  · exact Nat.le_refl _

def splitAll (bytes : List UInt8) : Except Fault (List AggregateTag) :=
  match bytes with
  | [] => .ok []
  | type :: s2 :: s1 :: s0 :: t2 :: t1 :: t0 :: t3 :: _ :: _ :: _ :: rest =>
    let size := Bytes.ofBigEndian [s2, s1, s0]
    let body := rest.take size
    -- The body came out shorter than announced: the payload ends inside of it.
    if body.length < size then .error (.aggregateOverrun size rest.length)
    else
      let tag : AggregateTag :=
        { type, timestamp := .ofNat (Bytes.ofBigEndian [t3, t2, t1, t0]), body }
      (splitAll (afterBody (rest.drop size))).map (tag :: ·)
  | short => .error (.aggregateTrailing short.length)
termination_by bytes.length
decreasing_by
  have hle := length_afterBody_le (rest.drop (Bytes.ofBigEndian [s2, s1, s0]))
  simp only [List.length_drop, List.length_cons] at hle ⊢
  omega

/-- A body is shorter than the payload it came from. -/
theorem length_body_lt {bytes : List UInt8} {tags : List AggregateTag}
    (h : splitAll bytes = .ok tags) : ∀ t ∈ tags, t.body.length < bytes.length := by
  fun_induction splitAll bytes generalizing tags with
  | case1 => simp_all
  | case2 => simp at h
  | case3 =>
    rename_i rest size body hsize tag ih
    -- eleven bytes of header at least are in front of the first body
    have hle := length_afterBody_le (rest.drop size)
    cases hrest : splitAll (afterBody (rest.drop size)) with
    | error f => simp [hrest, Except.map] at h
    | ok more =>
      simp only [hrest, Except.map, Except.ok.injEq] at h
      subst h
      intro t ht
      rcases List.mem_cons.1 ht with rfl | ht
      · simp only [tag, body, List.length_take, List.length_cons]
        omega
      · have := ih hrest t ht
        simp only [List.length_drop, List.length_cons] at hle ⊢
        omega
  | case4 => simp at h

def packet (aggregate : Packet) (first : UInt32) (tag : AggregateTag) : Packet :=
  { timestamp := aggregate.timestamp + (tag.timestamp - first), length := tag.body.length,
    type := tag.type, streamId := aggregate.streamId, chunkStream := aggregate.chunkStream,
    payload := tag.body }

@[simp] theorem payload_packet (p : Packet) (first : UInt32) (tag : AggregateTag) :
    (tag.packet p first).payload = tag.body := rfl

end AggregateTag

namespace Packet

/-- The messages of an aggregate, one for each tag. -/
def split (p : Packet) : Except Fault (List Packet) :=
  (AggregateTag.splitAll p.payload).map fun tags =>
    tags.map fun tag => tag.packet p ((tags.head?.map (·.timestamp)).getD 0)

/-- The messages of an aggregate are smaller than the aggregate. -/
theorem length_payload_lt_of_split {p : Packet} {parts : List Packet} (h : p.split = .ok parts) :
    ∀ q ∈ parts, q.payload.length < p.payload.length := by
  unfold split at h
  cases htags : AggregateTag.splitAll p.payload with
  | error f => simp [htags, Except.map] at h
  | ok tags =>
    simp only [htags, Except.map, Except.ok.injEq] at h
    subst h
    intro q hq
    obtain ⟨tag, htag, rfl⟩ := List.mem_map.1 hq
    exact AggregateTag.length_body_lt htags tag htag

/-- The messages inside a packet that are not aggregates themselves, in depth-first order. -/
def leaves (p : Packet) : List Packet :=
  if p.isAggregate then
    match h : p.split with
    | .ok parts => parts.attach.flatMap fun ⟨q, hq⟩ =>
      have := length_payload_lt_of_split h q hq
      q.leaves
    | .error _ => []
  else [p]
termination_by p.payload.length

end Packet

end LiveIngest
