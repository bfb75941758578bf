import LiveIngest.Proofs.Rtp.Payloads

/-!
# The payloads of a frame of NAL units

A frame is sent as whole parameter sets and then as its units, each of them whole or cut
(`NalScheme.unitPayloads`). That is told of the body that is put together for it, one unit after the
other: each step adds entries that lie within the media and leaves what was there before
(`Body.Grows`), and so does the whole frame (`NalScheme.grows_packetize`).
-/

namespace LiveIngest.Rtp

namespace Body

/-- `b'` is `b` with further entries, which are sent as `new`; all entries lie within the media. -/
structure Grows (b b' : Body) (new : List Payload) : Prop where
  inMedia : b'.InMedia
  payloads : b'.payloads = b.payloads ++ new

theorem inMedia_empty : empty.InMedia :=
  nofun

/-- A unit behind its label, with entries that lie within it. -/
theorem InMedia.grows_unit {b : Body} (hb : b.InMedia) (label unit : List UInt8)
    {entries : List Entry} {new : List Payload}
    (hwithin : ∀ e ∈ entries, e.offset + e.length ≤ (b.append label).media.length + unit.length)
    (hnew : ∀ b' : Body, b'.HasAt (b.append label).media.length unit →
      entries.map b'.payload = new) :
    b.Grows (((b.append label).append unit).addEntries entries) new := by
  have hlabel : (b.append label).InMedia := hb.append label
  have hunit : ((b.append label).append unit).InMedia := hlabel.append unit
  have hhas : ((b.append label).append unit).HasAt (b.append label).media.length unit :=
    ⟨(b.append label).media, [], by rw [List.append_nil]; rfl, rfl⟩
  refine ⟨hunit.addEntries fun e he => ?_, ?_⟩
  · exact (hwithin e he).trans hhas.le
  · rw [payloads_addEntries, payloads_append hlabel, payloads_append hb, hnew _ hhas]

/-- Steps that each add payloads. -/
theorem InMedia.grows_foldl {α : Type} {b : Body} (hb : b.InMedia) {add : Body → α → Body}
    {sent : α → List Payload} (hstep : ∀ (b : Body) a, b.InMedia → b.Grows (add b a) (sent a))
    (as : List α) : b.Grows (as.foldl add b) (as.flatMap sent) := by
  induction as generalizing b with
  | nil => exact ⟨hb, by simp⟩
  | cons a rest ih =>
    have hfirst := hstep b a hb
    have hrest := ih hfirst.inMedia
    refine ⟨hrest.inMedia, ?_⟩
    rw [List.foldl_cons, hrest.payloads, hfirst.payloads, List.flatMap_cons, List.append_assoc]

end Body

theorem FragmentHeader.length_bytes (h : FragmentHeader) (isFirst isLast : Bool) :
    (h.bytes isFirst isLast).length = h.front.length + 1 :=
  List.length_append

namespace NalScheme

variable {ρ : Type} (s : NalScheme ρ)

/-- The front of a fragmentation header is as large as the header that it stands for. -/
def HasFronts : Prop :=
  ∀ unit, (s.fragmentHeader unit).front.length = s.headerSize

/-- A fragment header of H.264 has one byte in front of its flags. -/
theorem hasFronts_h264 : h264.HasFronts :=
  fun _ => rfl

/-- One of H.265 has two. -/
theorem hasFronts_h265 : h265.HasFronts :=
  fun _ => Bytes.length_bigEndian 2 _

/-- What a unit is sent as. -/
def unitPayloads (limit : Nat) (unit : List UInt8) : List Payload :=
  if limit < unit.length ∧ s.headerSize < unit.length then
    let h := s.fragmentHeader unit
    cut h.bytes (limit - (h.front.length + 1)) true (unit.drop s.headerSize)
  else [⟨[], unit⟩]

/-- A unit that fits the limit is one payload. -/
theorem unitPayloads_of_small {limit : Nat} {unit : List UInt8} (h : unit.length ≤ limit) :
    s.unitPayloads limit unit = [⟨[], unit⟩] :=
  if_neg fun hlarge => absurd hlarge.1 (Nat.not_lt.2 h)

variable {s}

/-- A fragment header is one byte longer than the header of the unit. -/
theorem HasFronts.length_bytes (hfronts : s.HasFronts) (unit : List UInt8) (isFirst isLast : Bool) :
    ((s.fragmentHeader unit).bytes isFirst isLast).length = s.headerSize + 1 := by
  rw [FragmentHeader.length_bytes, hfronts unit]

/-- A unit that is larger than the limit is cut behind its header. -/
theorem HasFronts.unitPayloads_of_large (hfronts : s.HasFronts) {limit : Nat}
    (hlimit : s.headerSize < limit) {unit : List UInt8} (hlarge : limit < unit.length) :
    s.unitPayloads limit unit = cut (s.fragmentHeader unit).bytes (limit - (s.headerSize + 1)) true
      (unit.drop s.headerSize) := by
  unfold unitPayloads
  rw [if_pos ⟨hlarge, hlimit.trans hlarge⟩]
  simp only [hfronts unit]

/-- **A unit can be sent exactly if it has bytes.** -/
theorem HasFronts.fits_unitPayloads (hfronts : s.HasFronts) {limit : Nat}
    (hlimit : s.headerSize + 1 < limit) {unit : List UInt8} :
    (∀ p ∈ s.unitPayloads limit unit, 1 ≤ p.bytes.length ∧ p.bytes.length ≤ limit) ↔
      unit ≠ [] := by
  by_cases hlarge : limit < unit.length
  · rw [hfronts.unitPayloads_of_large (Nat.lt_of_succ_lt hlimit) hlarge]
    refine iff_of_true (fun p hp => ?_) (List.ne_nil_of_length_pos (by omega))
    obtain ⟨hpos, hle⟩ := length_bytes_cut (hfronts.length_bytes unit) hp
    omega
  · have hsmall := Nat.le_of_not_lt hlarge
    rw [s.unitPayloads_of_small hsmall, List.forall_mem_singleton, ← List.length_pos_iff]
    exact and_iff_left hsmall

variable (s)

/-- The parameter sets that are sent in front of a frame. -/
def sentSets (record : ρ) (tag : VideoTag) : List (List UInt8) :=
  if tag.isKeyFrame then s.parameterSets record else []

/-- The units of a frame that are sent. -/
def sentUnits (record : ρ) (tag : VideoTag) : List (List UInt8) :=
  (splitUnits (s.lengthSizeMinusOne record) tag.media).filter fun unit => !s.isFiller unit

/-- The entries of a unit stay within the unit. -/
theorem unitEntries_within {limit offset : Nat} {unit : List UInt8} {e : Entry}
    (he : e ∈ s.unitEntries limit offset unit) : e.offset + e.length ≤ offset + unit.length := by
  unfold unitEntries at he
  split at he
  · rename_i hlarge
    rw [fragments_eq_pieces] at he
    have hle := pieces_within he
    omega
  · rw [List.mem_singleton.1 he]

/-- The payloads of a unit's entries are those that the unit is divided into. -/
theorem payloads_unitEntries {b : Body} {limit offset : Nat} {unit : List UInt8}
    (h : b.HasAt offset unit) :
    (s.unitEntries limit offset unit).map b.payload = s.unitPayloads limit unit := by
  unfold unitEntries unitPayloads
  split
  · rename_i hlarge
    -- the fragments leave out the header, so that the cut begins behind it
    rw [← List.take_append_drop s.headerSize unit] at h
    have hbody := h.right
    rw [List.length_take, Nat.min_eq_left (Nat.le_of_lt hlarge.2)] at hbody
    rw [fragments_eq_pieces, ← List.length_drop]
    exact payloads_pieces hbody true
  · rw [List.map_singleton, Body.payload, h.data]

/-- A parameter set adds one payload, the whole set. -/
theorem grows_addParameterSet (sizeMinusOne : Nat) {b : Body} (hb : b.InMedia)
    (unit : List UInt8) : b.Grows (addParameterSet sizeMinusOne b unit) [⟨[], unit⟩] := by
  refine hb.grows_unit _ unit ?_ ?_
  · intro e he
    rw [List.mem_singleton.1 he]
  · intro b' h
    rw [List.map_singleton, Body.payload, h.data]

/-- A unit adds the payloads that it is divided into. -/
theorem grows_addUnit (sizeMinusOne limit : Nat) {b : Body} (hb : b.InMedia)
    (unit : List UInt8) :
    b.Grows (s.addUnit sizeMinusOne limit b unit) (s.unitPayloads limit unit) :=
  hb.grows_unit _ unit (fun _ he => s.unitEntries_within he) fun _ h => s.payloads_unitEntries h

/-- **A frame is sent as its parameter sets and its units.** -/
theorem grows_packetize (record : ρ) (limit : Nat) (tag : VideoTag) :
    Body.empty.Grows (s.packetize record limit tag).body
      ((s.sentSets record tag).map (⟨[], ·⟩) ++
        (s.sentUnits record tag).flatMap (s.unitPayloads limit)) := by
  -- sets first, then units
  have hsets := Body.inMedia_empty.grows_foldl
    (fun b unit hb => grows_addParameterSet (s.lengthSizeMinusOne record) hb unit)
    (s.sentSets record tag)
  have hunits := hsets.inMedia.grows_foldl
    (fun b unit hb => s.grows_addUnit (s.lengthSizeMinusOne record) limit hb unit)
    (s.sentUnits record tag)
  refine ⟨hunits.inMedia, ?_⟩
  refine hunits.payloads.trans ?_
  rw [hsets.payloads, ← List.map_eq_flatMap, List.append_assoc]

end NalScheme

end LiveIngest.Rtp
