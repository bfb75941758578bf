import LiveIngest.Proofs.Rtp.Elements
import LiveIngest.Proofs.Rtp.Fragments

/-!
# What can be sent

An entry can be sent if it is within the media, has bytes, and has no more of them than the limit
allows. Whatever tags a packetizer is fed:

* the entries of AV1 frames can be sent;
* the entries of H.264 and H.265 frames are within the media, and can all be sent exactly if each
  parameter set of the record can be sent as it is, as it is never cut, and no unit of the frame is
  empty.
-/

namespace LiveIngest.Rtp

/-- All entries are within the media, have bytes, and fit the limit. -/
def Body.Sendable (limit : Nat) (b : Body) : Prop :=
  b.InMedia ∧ ∀ e ∈ b.entries, 1 ≤ e.payloadSize ∧ e.payloadSize ≤ limit

/-- Media can be sent if no payload is empty or beyond the limit. -/
theorem Body.InMedia.sendable_iff {b : Body} (h : b.InMedia) {limit : Nat} :
    b.Sendable limit ↔ ∀ p ∈ b.payloads, 1 ≤ p.bytes.length ∧ p.bytes.length ≤ limit := by
  rw [Sendable, and_iff_right h, payloads, List.forall_mem_map]
  refine forall₂_congr fun e he => ?_
  rw [length_bytes_payload (h e he)]

namespace NalScheme

variable {ρ : Type} {s : NalScheme ρ}

/-- Fragments always fit: what can be out of bounds are the parameter sets and the empty units. -/
theorem HasFronts.sendable_iff (hfronts : s.HasFronts) {limit : Nat}
    (hlimit : s.headerSize + 1 < limit) {record : ρ} {tag : VideoTag} :
    (s.packetize record limit tag).body.Sendable limit ↔
      (∀ set ∈ s.sentSets record tag, 1 ≤ set.length ∧ set.length ≤ limit) ∧
        [] ∉ s.sentUnits record tag := by
  have hbody := s.grows_packetize record limit tag
  have hsets : (∀ p ∈ (s.sentSets record tag).map (Payload.mk [] ·),
      1 ≤ p.bytes.length ∧ p.bytes.length ≤ limit) ↔
        ∀ set ∈ s.sentSets record tag, 1 ≤ set.length ∧ set.length ≤ limit :=
    List.forall_mem_map
  have hunits : (∀ p ∈ (s.sentUnits record tag).flatMap (s.unitPayloads limit),
      1 ≤ p.bytes.length ∧ p.bytes.length ≤ limit) ↔ [] ∉ s.sentUnits record tag := by
    -- a unit is in bounds as fragments or whole, unless it is empty
    calc _ ↔ ∀ unit ∈ s.sentUnits record tag, ∀ p ∈ s.unitPayloads limit unit,
          1 ≤ p.bytes.length ∧ p.bytes.length ≤ limit := List.forall_mem_flatMap
      _ ↔ ∀ unit ∈ s.sentUnits record tag, unit ≠ [] :=
          forall₂_congr fun unit _ => hfronts.fits_unitPayloads hlimit
      _ ↔ _ := ⟨fun h hnil => h [] hnil rfl, fun h unit hunit hnil => h (hnil ▸ hunit)⟩
  rw [hbody.inMedia.sendable_iff, hbody.payloads]
  show (∀ p ∈ [] ++ (_ ++ _), _) ↔ _
  rw [List.nil_append, List.forall_mem_append, hsets, hunits]

/-- Empty units are not taken for units that only fill up. -/
theorem nil_mem_sentUnits_iff (hfiller : s.isFiller [] = false) {record : ρ} {tag : VideoTag} :
    [] ∈ s.sentUnits record tag ↔ [] ∈ splitUnits (s.lengthSizeMinusOne record) tag.media := by
  rw [sentUnits, List.mem_filter, hfiller]
  exact and_iff_left rfl

/-- Parameter sets are sent with key frames only. -/
theorem forall_mem_sentSets_iff {record : ρ} {tag : VideoTag} {P : List UInt8 → Prop} :
    (∀ set ∈ s.sentSets record tag, P set) ↔
      (tag.isKeyFrame = true → ∀ set ∈ s.parameterSets record, P set) := by
  rw [sentSets]
  cases tag.isKeyFrame <;> simp

/-- What can be sent of the output frame that `tag` has behind `tags`. -/
theorem HasFronts.sendable_of_output (hfronts : s.HasFronts) {limit : Nat}
    (hlimit : s.headerSize + 1 < limit) (hfiller : s.isFiller [] = false) {tags : List VideoTag}
    {tag : VideoTag} {out : VideoOutput}
    (h : (((VideoPacketizer.initial limit).addAll s.toVideoScheme tags).add
      s.toVideoScheme tag).2 = some out) :
    ∃ record, (tags.filterMap s.toVideoScheme.record?).getLast? = some record ∧
      out.body.InMedia ∧
      (out.body.Sendable limit ↔
        (tag.isKeyFrame = true → ∀ set ∈ s.parameterSets record,
          1 ≤ set.length ∧ set.length ≤ limit) ∧
        [] ∉ splitUnits (s.lengthSizeMinusOne record) tag.media) := by
  obtain ⟨record, hrecord, hout⟩ := VideoPacketizer.exists_record_of_output h
  obtain rfl : s.packetize record limit tag = out := Option.some.inj hout
  refine ⟨record, hrecord, (s.grows_packetize record limit tag).inMedia, ?_⟩
  rw [hfronts.sendable_iff hlimit, forall_mem_sentSets_iff, nil_mem_sentUnits_iff hfiller]

end NalScheme

namespace Av1

/-- Elements hold at least one byte and, with the mark, no more than the limit. -/
theorem fits_elements {limit : Nat} (hlimit : 2 ≤ limit) (newSequence : Bool)
    (units : List (List UInt8)) : ∀ p ∈ elements (limit - 1) newSequence units,
      1 ≤ p.bytes.length ∧ p.bytes.length ≤ limit := by
  induction units generalizing newSequence with
  | nil => simp [elements]
  | cons unit rest ih =>
    rw [elements, List.forall_mem_append]
    refine ⟨fun p hp => ?_, ih _⟩
    obtain ⟨hpos, hle⟩ := (sentAs_cut hlimit newSequence unit).fits p hp
    refine ⟨hpos.trans_le ?_, hle⟩
    rw [Payload.bytes, List.length_append]
    exact Nat.le_add_left _ _

/-- What is sent of AV1 media always fits. -/
theorem sendable_of_packetize {record : Codec.Av1Record} {limit : Nat} (hlimit : 2 ≤ limit)
    {tag : VideoTag} {out : VideoOutput} (h : packetize record limit tag = some out) :
    out.body.Sendable limit := by
  obtain ⟨units, -, hmedia, hpayloads⟩ := exists_walk_of_packetize h
  rw [hmedia.sendable_iff, hpayloads]
  exact fits_elements hlimit _ _

end Av1

/-- **What can be sent.** Behind any tags, the entries of an output frame are within the media.
Those of an AV1 frame can be sent. Those of other frames can be sent exactly if all parameter sets
in front of the frame can be sent uncut, and the frame has no empty unit. -/
theorem sendable_output_iff {limit : Nat} (hlimit : 4 ≤ limit) (tags : List VideoTag)
    (tag : VideoTag) (out : VideoOutput) :
    ((((VideoPacketizer.initial limit).addAll NalScheme.h264.toVideoScheme tags).add
        NalScheme.h264.toVideoScheme tag).2 = some out →
      ∃ record, (tags.filterMap NalScheme.h264.toVideoScheme.record?).getLast? = some record ∧
        out.body.InMedia ∧
        (out.body.Sendable limit ↔
          (tag.isKeyFrame = true → ∀ set ∈ record.sps ++ record.pps,
            1 ≤ set.length ∧ set.length ≤ limit) ∧
          [] ∉ splitUnits record.lengthSizeMinusOne.toNat tag.media)) ∧
    ((((VideoPacketizer.initial limit).addAll NalScheme.h265.toVideoScheme tags).add
        NalScheme.h265.toVideoScheme tag).2 = some out →
      ∃ record, (tags.filterMap NalScheme.h265.toVideoScheme.record?).getLast? = some record ∧
        out.body.InMedia ∧
        (out.body.Sendable limit ↔
          (tag.isKeyFrame = true →
            ∀ set ∈ record.unitsOfType 32 ++ record.unitsOfType 33 ++ record.unitsOfType 34,
              1 ≤ set.length ∧ set.length ≤ limit) ∧
          [] ∉ splitUnits record.lengthSizeMinusOne.toNat tag.media)) ∧
    ((((VideoPacketizer.initial limit).addAll Av1.scheme tags).add Av1.scheme tag).2 = some out →
      out.body.Sendable limit) := by
  -- the limit leaves room for either header and a byte
  refine ⟨fun h => ?_, fun h => ?_, fun h => ?_⟩
  · exact NalScheme.hasFronts_h264.sendable_of_output (show 1 + 1 < limit by omega) rfl h
  · exact NalScheme.hasFronts_h265.sendable_of_output (show 2 + 1 < limit by omega) rfl h
  · obtain ⟨record, -, hout⟩ := VideoPacketizer.exists_record_of_output h
    exact Av1.sendable_of_packetize (by omega) hout

/-- An intra frame with a unit that is cut. -/
theorem sendable_output_iff_intra :
    let config : VideoTag := { VideoTag.empty 0 0 with
      media := [1, 100, 0, 30, 0xfc, 0xe1, 0, 2, 0x67, 9, 1, 0, 1, 0x68] }
    let coded : VideoTag := { VideoTag.empty 40 0 with
      frameType := .intra
      packetType := .avc .nalu
      media := [6, 0x65, 1, 2, 3, 4, 5, 1, 0x41] }
    ∃ out, (((VideoPacketizer.initial 4).addAll NalScheme.h264.toVideoScheme [config]).add
      NalScheme.h264.toVideoScheme coded).2 = some out ∧ out.body.Sendable 4 := by
  intro config coded
  refine ⟨_, rfl, ?_⟩
  have hlimit : 4 ≤ 4 := by decide
  obtain ⟨record, hrecord, -, hsendable⟩ := (sendable_output_iff hlimit [config] coded _).1 rfl
  obtain rfl := Option.some.inj hrecord
  exact hsendable.2 ⟨fun _ => by decide, by decide +kernel⟩

/-- A sequence parameter set that is larger than the limit, and an empty unit: one entry has too
many bytes, and another one has none. -/
theorem unsendable_of_intra :
    let config : VideoTag := { VideoTag.empty 0 0 with
      media := [1, 100, 0, 30, 0xfc, 0xe1, 0, 5, 0x67, 1, 2, 3, 4, 1, 0, 1, 0x68] }
    let coded : VideoTag := { VideoTag.empty 40 0 with
      frameType := .intra
      packetType := .avc .nalu
      media := [1, 0x65, 0, 1, 0x41] }
    ∃ out, (((VideoPacketizer.initial 4).addAll NalScheme.h264.toVideoScheme [config]).add
        NalScheme.h264.toVideoScheme coded).2 = some out ∧
      out.body.entries = [⟨1, 5, []⟩, ⟨7, 1, []⟩, ⟨9, 1, []⟩, ⟨11, 0, []⟩, ⟨12, 1, []⟩] ∧
      ¬out.body.Sendable 4 := by
  intro config coded
  refine ⟨_, rfl, by decide +kernel, fun hsendable => ?_⟩
  have hset := (hsendable.2 ⟨1, 5, []⟩ (by decide +kernel)).2
  exact absurd hset (by decide)

end LiveIngest.Rtp
