import Mathlib.Data.List.Induction
import LiveIngest.Rtp.Aac
import LiveIngest.Rtp.Nal
import LiveIngest.Proofs.Rtp.Elements

/-!
# Configurations gate frames

A packetizer has an output frame for a coded frame only if a configuration is in force, and which
one that is depends on all tags before. It is told without the packetizer, by the **latest** tag
with a property (`Latest`): for video the latest configuration that can be read, so that one that
cannot leaves the one before it in force; for AAC the latest sequence header, so that one that
cannot be read revokes the one before it.

What a packetizer holds behind any tags is what is in force (`VideoScheme.inForce_iff`,
`AacPacketizer.config_addAll_iff`), by induction on the tags from the last one back. From it follows
what it answers to one more tag (`VideoPacketizer.Gated`, `AacPacketizer.Gated`).

Main statement: `gated_behind_any` — this, for H.264, H.265, AV1 and AAC.
-/

namespace LiveIngest.Rtp

open Codec

/-! ### The latest of a list -/

section Latest

variable {α : Type} {P : α → Prop}

/-- `x` has the property, and nothing behind it does. -/
def Latest (P : α → Prop) (xs : List α) (x : α) : Prop :=
  ∃ before after, xs = before ++ x :: after ∧ P x ∧ ∀ y ∈ after, ¬P y

theorem not_latest_nil (x : α) : ¬Latest P [] x := by
  rintro ⟨before, after, hnil, -⟩
  exact absurd hnil (by simp)

/-- The last element is the latest if it has the property, and otherwise does not matter. -/
theorem latest_concat {xs : List α} {x y : α} :
    Latest P (xs ++ [x]) y ↔ P x ∧ y = x ∨ ¬P x ∧ Latest P xs y := by
  constructor
  · rintro ⟨before, after, hxs, hy, hafter⟩
    -- the latest one is the last of all, or the last of those before
    obtain rfl | ⟨rest, z, rfl⟩ := List.eq_nil_or_concat after
    · obtain ⟨-, hlast⟩ := List.append_inj' hxs rfl
      obtain rfl := List.singleton_inj.1 hlast
      exact .inl ⟨hy, rfl⟩
    · rw [List.concat_eq_append, ← List.cons_append, ← List.append_assoc] at hxs
      obtain ⟨hfront, hlast⟩ := List.append_inj' hxs rfl
      obtain rfl := List.singleton_inj.1 hlast
      rw [List.concat_eq_append] at hafter
      obtain ⟨hrest, hx⟩ := List.forall_mem_append.1 hafter
      exact .inr ⟨hx x (List.mem_singleton_self x), before, rest, hfront, hy, hrest⟩
  · rintro (⟨hx, rfl⟩ | ⟨hx, before, after, rfl, hy, hafter⟩)
    · exact ⟨xs, [], rfl, hx, fun _ hmem => absurd hmem List.not_mem_nil⟩
    · refine ⟨before, after ++ [x], by rw [List.append_assoc, List.cons_append], hy, ?_⟩
      exact List.forall_mem_append.2 ⟨hafter, fun z hz => List.mem_singleton.1 hz ▸ hx⟩

/-- Something is the latest if anything has the property. -/
theorem exists_latest_iff {xs : List α} : (∃ x, Latest P xs x) ↔ ∃ x ∈ xs, P x := by
  induction xs using List.reverseRecOn with
  | nil => exact iff_of_false (fun ⟨x, hx⟩ => not_latest_nil x hx) (by simp)
  | append_singleton xs x ih =>
    by_cases hx : P x
    · exact iff_of_true ⟨x, latest_concat.2 (.inl ⟨hx, rfl⟩)⟩
        ⟨x, List.mem_append_right xs (List.mem_singleton_self x), hx⟩
    · simp only [latest_concat, hx, false_and, not_false_eq_true, true_and, false_or, ih,
        List.mem_append, List.mem_singleton, or_and_right, exists_or, exists_eq_left, or_false]

end Latest

/-! ### Video -/

namespace VideoFormat

/-- The codec that tags of a format carry. -/
def codec : VideoFormat → VideoCodecId
  | h264 => .legacy .avc
  | h265 => .extended .hevc
  | av1 => .extended .av1

/-- A format is that of a codec exactly if it names the codec. -/
theorem ofCodec?_eq_some_iff {codec : VideoCodecId} {format : VideoFormat} :
    ofCodec? codec = some format ↔ codec = format.codec := by
  cases codec with
  | legacy codec => cases codec <;> cases format <;> simp [ofCodec?, VideoFormat.codec]
  | extended fourCc =>
    have hother : FourCc.av1 ≠ FourCc.hevc := by decide
    -- of the extended codecs two are supported
    by_cases hhevc : fourCc = .hevc
    · cases format <;> simp [ofCodec?, VideoFormat.codec, hhevc, hother.symm]
    · by_cases hav1 : fourCc = .av1
      · cases format <;> simp [ofCodec?, VideoFormat.codec, hav1, hother]
      · cases format <;> simp [ofCodec?, VideoFormat.codec, hhevc, hav1]

end VideoFormat

variable {ρ : Type} {s : VideoScheme ρ}

/-- A tag with a configuration of the format. -/
structure VideoScheme.IsConfig (s : VideoScheme ρ) (tag : VideoTag) : Prop where
  codec : tag.codec = s.format.codec
  mediaClass : tag.mediaClass = .config

/-- A configuration that can be read, as the record. -/
structure VideoScheme.Brings (s : VideoScheme ρ) (record : ρ) (tag : VideoTag) : Prop
    extends s.IsConfig tag where
  parse : s.parse tag.media = .ok record

/-- A tag has a record exactly if it brings one that can be parsed. -/
theorem VideoScheme.record?_eq_some_iff {tag : VideoTag} {record : ρ} :
    s.record? tag = some record ↔ s.Brings record tag := by
  unfold record?
  split
  · rename_i hconfig
    have hcodec := VideoFormat.ofCodec?_eq_some_iff.1 hconfig.1
    cases hparse : s.parse tag.media with
    | ok read =>
      refine ⟨fun h => ⟨⟨hcodec, hconfig.2⟩, ?_⟩, fun h => ?_⟩
      · rw [hparse, ← Option.some.inj h]
      · exact congrArg some (Except.ok.inj (hparse.symm.trans h.parse))
    | error f => exact iff_of_false nofun fun h => nomatch hparse.symm.trans h.parse
  · rename_i hnot
    refine iff_of_false nofun fun h => hnot ⟨?_, h.mediaClass⟩
    exact VideoFormat.ofCodec?_eq_some_iff.2 h.codec

/-- The record of the latest configuration that can be read. -/
def VideoScheme.InForce (s : VideoScheme ρ) (tags : List VideoTag) (record : ρ) : Prop :=
  ∃ config, Latest (fun tag => ∃ record, s.Brings record tag) tags config ∧ s.Brings record config

/-- **The record in force is the last one** that was brought, by induction on the tags from the end.
-/
theorem VideoScheme.inForce_iff {tags : List VideoTag} {record : ρ} :
    s.InForce tags record ↔ (tags.filterMap s.record?).getLast? = some record := by
  induction tags using List.reverseRecOn with
  | nil => exact iff_of_false (fun ⟨config, hlatest, _⟩ => not_latest_nil config hlatest) nofun
  | append_singleton tags tag ih =>
    unfold InForce
    simp only [latest_concat]
    rw [List.filterMap_append]
    cases hbrought : s.record? tag with
    | some brought =>
      -- the last tag brings the record that is in force
      have hbrings := record?_eq_some_iff.1 hbrought
      have hlast : (tags.filterMap s.record? ++ [brought]).getLast? = some brought :=
        List.getLast?_concat
      rw [List.filterMap_cons_some hbrought, List.filterMap_nil, hlast, ← hbrought,
        record?_eq_some_iff]
      constructor
      · rintro ⟨config, ⟨-, rfl⟩ | ⟨hnot, -⟩, hrecord⟩
        · exact hrecord
        · exact absurd ⟨brought, hbrings⟩ hnot
      · exact fun hrecord => ⟨tag, .inl ⟨⟨brought, hbrings⟩, rfl⟩, hrecord⟩
    | none =>
      have hnone : ¬∃ record, s.Brings record tag := by
        rintro ⟨record, hbrings⟩
        exact nomatch hbrought.symm.trans (record?_eq_some_iff.2 hbrings)
      rw [List.filterMap_cons_none hbrought, List.filterMap_nil, List.append_nil, ← ih]
      constructor
      · rintro ⟨config, ⟨hsome, -⟩ | ⟨-, hlatest⟩, hrecord⟩
        · exact absurd hsome hnone
        · exact ⟨config, hlatest, hrecord⟩
      · exact fun ⟨config, hlatest, hrecord⟩ => ⟨config, .inr ⟨hnone, hlatest⟩, hrecord⟩

/-- A record is in force behind any configuration that can be read. -/
theorem VideoScheme.exists_inForce_iff {tags : List VideoTag} :
    (∃ record, s.InForce tags record) ↔ ∃ config ∈ tags, ∃ record, s.Brings record config := by
  rw [← exists_latest_iff]
  constructor
  · rintro ⟨record, config, hlatest, -⟩
    exact ⟨config, hlatest⟩
  · rintro ⟨config, hlatest⟩
    obtain ⟨before, after, -, ⟨record, hbrings⟩, -⟩ := id hlatest
    exact ⟨record, config, hlatest, hbrings⟩

namespace VideoPacketizer

/-- Nothing but a configuration changes a packetizer. -/
theorem add_of_not_isConfig {p : VideoPacketizer ρ} {tag : VideoTag} (h : ¬s.IsConfig tag) :
    (p.add s tag).1 = p := by
  -- without a record the packetizer keeps the one it has
  have hnone : s.record? tag = none := by
    by_contra hsome
    obtain ⟨record, hrecord⟩ := Option.ne_none_iff_exists'.1 hsome
    exact h (VideoScheme.record?_eq_some_iff.1 hrecord).toIsConfig
  have hrecord : (p.add s tag).1.record = p.record := by
    rw [record_add, hnone, Option.none_or]
  have hlimit : (p.add s tag).1.limit = p.limit := limit_add tag
  cases p
  cases hadd : (add s _ tag).1
  rw [hadd] at hrecord hlimit
  exact congrArg₂ VideoPacketizer.mk hrecord hlimit

/-- What a packetizer that was fed `earlier` answers to `tag`. Its records are written by
`serialize`, and media that are not `Complete` are dropped. -/
structure Gated (s : VideoScheme ρ) (serialize : ρ → List UInt8) (Complete : List UInt8 → Prop)
    (limit : Nat) (earlier : List VideoTag) (tag : VideoTag) : Prop where
  /-- A tag has an output frame if it is a coded frame of the format behind a configuration that can
  be read. -/
  output_iff : (((initial limit).addAll s earlier).add s tag).2.isSome = true ↔
    tag.codec = s.format.codec ∧ tag.mediaClass = .codedFrames ∧
      (∃ config ∈ earlier, ∃ record, s.Brings record config) ∧ Complete tag.media
  /-- With the frame goes the record in force. -/
  codecConfig : ∀ out, (((initial limit).addAll s earlier).add s tag).2 = some out →
    ∃ record, s.InForce earlier record ∧ out.codecConfig = serialize record
  unchanged : ¬s.IsConfig tag →
    (((initial limit).addAll s earlier).add s tag).1 = (initial limit).addAll s earlier

/-- **Gating.** It is enough to know which frames a record has an output frame for. -/
theorem gated_of_packetize {serialize : ρ → List UInt8} {Complete : List UInt8 → Prop}
    (hpacketize : ∀ record limit tag, (s.packetize record limit tag).isSome = true ↔
      Complete tag.media)
    (hconfig : ∀ record limit tag out, s.packetize record limit tag = some out →
      out.codecConfig = serialize record)
    (limit : Nat) (earlier : List VideoTag) (tag : VideoTag) :
    Gated s serialize Complete limit earlier tag := by
  -- whatever is sent was sent by the record in force
  have hout : ∀ out, (((initial limit).addAll s earlier).add s tag).2 = some out →
      ∃ record, s.InForce earlier record ∧ s.packetize record limit tag = some out := by
    intro out hsome
    obtain ⟨record, hrecord, hpacket⟩ := exists_record_of_output hsome
    exact ⟨record, VideoScheme.inForce_iff.2 hrecord, hpacket⟩
  refine ⟨⟨fun h => ?_, fun h => ?_⟩, fun out hsome => ?_, add_of_not_isConfig⟩
  · obtain ⟨out, hsome⟩ := Option.isSome_iff_exists.1 h
    obtain ⟨record, hforce, hpacket⟩ := hout out hsome
    have hcoded := isCoded_of_output hsome
    exact ⟨VideoFormat.ofCodec?_eq_some_iff.1 hcoded.format, hcoded.mediaClass,
      VideoScheme.exists_inForce_iff.1 ⟨record, hforce⟩,
      (hpacketize record limit tag).1 (Option.isSome_iff_exists.2 ⟨out, hpacket⟩)⟩
  · obtain ⟨hcodec, hclass, hbrought, hcomplete⟩ := h
    obtain ⟨record, hforce⟩ := VideoScheme.exists_inForce_iff.2 hbrought
    have hcoded : s.IsCoded tag := ⟨VideoFormat.ofCodec?_eq_some_iff.2 hcodec, hclass⟩
    rw [output_of_coded (VideoScheme.inForce_iff.1 hforce) hcoded]
    exact (hpacketize record limit tag).2 hcomplete
  · obtain ⟨record, hforce, hpacket⟩ := hout out hsome
    exact ⟨record, hforce, hconfig record limit tag out hpacket⟩

end VideoPacketizer

/-- A frame of NAL units has an output frame, whatever its bytes are. -/
theorem NalScheme.gated (s : NalScheme ρ) (limit : Nat) (earlier : List VideoTag)
    (tag : VideoTag) :
    VideoPacketizer.Gated s.toVideoScheme s.serialize (fun _ => True) limit earlier tag := by
  refine VideoPacketizer.gated_of_packetize (fun record limit tag => ?_)
    (fun record limit tag out h => ?_) limit earlier tag
  · exact iff_of_true rfl trivial
  · exact (congrArg VideoOutput.codecConfig (Option.some.inj h)).symm

/-- An AV1 frame has an output frame if its units can be walked to the end. -/
theorem Av1.gated (limit : Nat) (earlier : List VideoTag) (tag : VideoTag) :
    VideoPacketizer.Gated scheme Av1Record.serialize (fun media => ∃ units, Walk media units [])
      limit earlier tag := by
  refine VideoPacketizer.gated_of_packetize (fun record limit tag => ⟨fun h => ?_, fun h => ?_⟩)
    (fun record limit tag out h => ?_) limit earlier tag
  · obtain ⟨out, hout⟩ := Option.isSome_iff_exists.1 h
    obtain ⟨units, hwalk, -⟩ := exists_walk_of_packetize hout
    exact ⟨units, hwalk⟩
  -- a packetizer that gives nothing has found the walk broken
  · obtain ⟨units, hwalk⟩ := h
    refine Option.isSome_iff_ne_none.2 fun hnone => ?_
    have hbroken := splitObus_eq_none_iff.2 (packetize_eq_none_iff.1 hnone)
    exact nomatch hbroken.symm.trans (splitObus_eq_some_iff.2 hwalk)
  · obtain ⟨units, -, hout⟩ := Option.bind_eq_some_iff.1 h
    rw [← Option.some.inj hout]

/-! ### AAC -/

namespace AacPacketizer

/-- The packetizer behind `tags`. -/
def addAll (p : AacPacketizer) (tags : List AudioTag) : AacPacketizer :=
  tags.foldl (fun p tag => (p.add tag).1) p

/-- A tag with a sequence header. -/
structure IsHeader (tag : AudioTag) : Prop where
  codec : tag.codec = .aac
  packetType : tag.packetType = .sequenceHeader

/-- A tag with a raw frame. -/
structure IsRaw (tag : AudioTag) : Prop where
  codec : tag.codec = .aac
  packetType : tag.packetType = .raw

variable {p : AacPacketizer} {tag : AudioTag}

/-- A header replaces the configuration and sends nothing. -/
theorem add_of_isHeader (h : IsHeader tag) : p.add tag =
    (⟨(AudioConfig.decode tag.media).toOption.map fun config => (config, tag.media)⟩, none) := by
  rw [add, h.codec, h.packetType]

/-- A raw unit is sent if there is a configuration. -/
theorem add_of_isRaw (h : IsRaw tag) : p.add tag =
    (p, p.config.bind fun (config, published) => packetize config published tag) := by
  rw [add, h.codec, h.packetType]

/-- Tags of other kinds are passed over. -/
theorem add_of_other (hheader : ¬IsHeader tag) (hraw : ¬IsRaw tag) : p.add tag = (p, none) := by
  unfold add
  split
  · rename_i hcodec htype
    exact absurd ⟨hcodec, htype⟩ hheader
  · rename_i hcodec htype
    exact absurd ⟨hcodec, htype⟩ hraw
  · rfl

/-- Nothing but a sequence header changes a packetizer. -/
theorem add_of_not_isHeader (h : ¬IsHeader tag) : (p.add tag).1 = p := by
  by_cases hraw : IsRaw tag
  · rw [add_of_isRaw hraw]
  · rw [add_of_other h hraw]

/-- A unit is sent unless its configuration has no sample rate. -/
theorem isSome_packetize {config : AudioConfig} {published : List UInt8} :
    (packetize config published tag).isSome = true ↔ config.sampling.rate ≠ 0 := by
  unfold packetize
  dsimp only
  split
  · rename_i hzero
    exact iff_of_false Bool.false_ne_true (not_not_intro hzero)
  · rename_i hrate
    exact iff_of_true rfl hrate

/-- What is sent names the configuration that was published. -/
theorem codecConfig_packetize {config : AudioConfig} {published : List UInt8} {out : AudioOutput}
    (h : packetize config published tag = some out) : out.codecConfig = published := by
  unfold packetize at h
  dsimp only at h
  split at h
  · exact nomatch h
  · rw [← Option.some.inj h]

/-- **The configuration of a packetizer** is that of the latest sequence header, if it can be
read. -/
theorem config_addAll_iff {tags : List AudioTag} {config : AudioConfig} {published : List UInt8} :
    (initial.addAll tags).config = some (config, published) ↔
      ∃ header, Latest IsHeader tags header ∧ AudioConfig.decode header.media = .ok config ∧
        published = header.media := by
  induction tags using List.reverseRecOn with
  | nil => exact iff_of_false nofun fun ⟨header, hlatest, _⟩ => not_latest_nil header hlatest
  | append_singleton tags tag ih =>
    have hlast : initial.addAll (tags ++ [tag]) = ((initial.addAll tags).add tag).1 :=
      List.foldl_append
    simp only [latest_concat]
    rw [hlast]
    by_cases hheader : IsHeader tag
    · -- what was in force before is revoked
      rw [add_of_isHeader hheader]
      dsimp only
      constructor
      · intro h
        cases hdecode : AudioConfig.decode tag.media with
        | ok read =>
          rw [hdecode] at h
          obtain ⟨rfl, rfl⟩ := Prod.mk.inj (Option.some.inj h)
          exact ⟨tag, .inl ⟨hheader, rfl⟩, hdecode, rfl⟩
        | error f =>
          rw [hdecode] at h
          exact nomatch h
      · rintro ⟨header, ⟨-, rfl⟩ | ⟨hnot, -⟩, hdecode, rfl⟩
        · rw [hdecode]
          rfl
        · exact absurd hheader hnot
    · rw [add_of_not_isHeader hheader, ih]
      constructor
      · exact fun ⟨header, hlatest, hrest⟩ => ⟨header, .inr ⟨hheader, hlatest⟩, hrest⟩
      · rintro ⟨header, ⟨hnot, -⟩ | ⟨-, hlatest⟩, hrest⟩
        · exact absurd hnot hheader
        · exact ⟨header, hlatest, hrest⟩

/-- What a packetizer that was fed `earlier` answers to `tag`. -/
structure Gated (earlier : List AudioTag) (tag : AudioTag) : Prop where
  /-- A tag has an output frame if it is a raw frame, and the latest sequence header can be read and
  has a rate. -/
  output_iff : ((initial.addAll earlier).add tag).2.isSome = true ↔
    tag.codec = .aac ∧ tag.packetType = .raw ∧ ∃ header config, Latest IsHeader earlier header ∧
      AudioConfig.decode header.media = .ok config ∧ config.sampling.rate ≠ 0
  /-- With the frame goes the sequence header as it was published. -/
  codecConfig : ∀ out, ((initial.addAll earlier).add tag).2 = some out →
    ∃ header, Latest IsHeader earlier header ∧ out.codecConfig = header.media
  unchanged : ¬IsHeader tag → ((initial.addAll earlier).add tag).1 = initial.addAll earlier

/-- An output frame is that of a raw frame, with the configuration of the latest sequence
header. -/
theorem exists_header_of_output {earlier : List AudioTag} {out : AudioOutput}
    (h : ((initial.addAll earlier).add tag).2 = some out) :
    IsRaw tag ∧ ∃ header config, Latest IsHeader earlier header ∧
      AudioConfig.decode header.media = .ok config ∧
      packetize config header.media tag = some out := by
  -- a header is answered by nothing, and so is what is neither
  have hraw : IsRaw tag := by
    by_contra hraw
    by_cases hheader : IsHeader tag
    · rw [add_of_isHeader hheader] at h
      exact nomatch h
    · rw [add_of_other hheader hraw] at h
      exact nomatch h
  rw [add_of_isRaw hraw] at h
  obtain ⟨⟨config, published⟩, hconfig, hout⟩ := Option.bind_eq_some_iff.1 h
  obtain ⟨header, hlatest, hdecode, rfl⟩ := config_addAll_iff.1 hconfig
  exact ⟨hraw, header, config, hlatest, hdecode, hout⟩

/-- **Audio waits for its configuration**, whatever came earlier. -/
theorem gated (earlier : List AudioTag) (tag : AudioTag) : Gated earlier tag := by
  refine ⟨⟨fun h => ?_, fun h => ?_⟩, fun out hsome => ?_, add_of_not_isHeader⟩
  · obtain ⟨out, hsome⟩ := Option.isSome_iff_exists.1 h
    obtain ⟨hraw, header, config, hlatest, hdecode, hout⟩ := exists_header_of_output hsome
    exact ⟨hraw.codec, hraw.packetType, header, config, hlatest, hdecode,
      isSome_packetize.1 (Option.isSome_iff_exists.2 ⟨out, hout⟩)⟩
  · obtain ⟨hcodec, htype, header, config, hlatest, hdecode, hrate⟩ := h
    have hconfig := config_addAll_iff.2 ⟨header, hlatest, hdecode, rfl⟩
    rw [add_of_isRaw ⟨hcodec, htype⟩, hconfig]
    exact isSome_packetize.2 hrate
  · obtain ⟨-, header, config, hlatest, -, hout⟩ := exists_header_of_output hsome
    exact ⟨header, hlatest, codecConfig_packetize hout⟩

end AacPacketizer

/-! ### All formats -/

/-- **Configurations gate frames**, in every format and behind any tags. -/
theorem gated_behind_any (limit : Nat) (earlier : List VideoTag) (tag : VideoTag)
    (sounds : List AudioTag) (sound : AudioTag) :
    VideoPacketizer.Gated NalScheme.h264.toVideoScheme AvcRecord.serialize (fun _ => True) limit
        earlier tag ∧
      VideoPacketizer.Gated NalScheme.h265.toVideoScheme HevcRecord.serialize (fun _ => True) limit
        earlier tag ∧
      VideoPacketizer.Gated Av1.scheme Av1Record.serialize
        (fun media => ∃ units, Walk media units []) limit earlier tag ∧
      AacPacketizer.Gated sounds sound :=
  ⟨NalScheme.h264.gated limit earlier tag, NalScheme.h265.gated limit earlier tag,
    Av1.gated limit earlier tag, AacPacketizer.gated sounds sound⟩

/-- A configuration that cannot be read, behind one that can: of H.264 the first one stays in force,
of AAC none does. -/
theorem gated_behind_any_broken :
    let config : VideoTag := { VideoTag.empty 0 0 with
      media := [1, 100, 0, 30, 0xfc, 0xe1, 0, 2, 0x67, 9, 1, 0, 1, 0x68] }
    let coded : VideoTag := { VideoTag.empty 40 0 with
      packetType := .avc .nalu
      media := [1, 0x41] }
    let header : AudioTag := { AudioTag.empty 0 0 with
      packetType := .sequenceHeader
      media := [0x12, 0x10] }
    let raw : AudioTag := { AudioTag.empty 23 0 with media := [0x21, 0x10] }
    (((VideoPacketizer.initial 1200).addAll NalScheme.h264.toVideoScheme
        [config, { config with media := [] }]).add NalScheme.h264.toVideoScheme coded).2.isSome =
          true ∧
      ((AacPacketizer.initial.addAll [header]).add raw).2.isSome = true ∧
      ((AacPacketizer.initial.addAll [header, { header with media := [] }]).add raw).2.isSome =
        false := by
  intro config coded header raw
  obtain ⟨hvideo, -, -, haudio⟩ := gated_behind_any 1200 [config, { config with media := [] }] coded
    [header] raw
  obtain ⟨-, -, -, hrevoked⟩ := gated_behind_any 1200 [] coded
    [header, { header with media := [] }] raw
  have hread : ∃ record, NalScheme.h264.toVideoScheme.Brings record config :=
    ⟨_, ⟨rfl, rfl⟩, rfl⟩
  have hlatest : Latest AacPacketizer.IsHeader [header] header :=
    ⟨[], [], rfl, ⟨rfl, rfl⟩, fun _ hmem => absurd hmem List.not_mem_nil⟩
  refine ⟨hvideo.output_iff.2 ⟨rfl, rfl, ⟨config, List.mem_cons_self, hread⟩, trivial⟩,
    haudio.output_iff.2 ⟨rfl, rfl, header, _, hlatest, rfl, by decide +kernel⟩, ?_⟩
  refine Bool.eq_false_iff.2 fun hsome => ?_
  -- the broken header is the latest one, and it does not decode
  obtain ⟨-, -, latest, decoded, hbehind, hok, -⟩ := hrevoked.output_iff.1 hsome
  obtain ⟨-, rfl⟩ | ⟨hnot, -⟩ := (@latest_concat _ _ [header] _ _).1 hbehind
  · have hbroken : (AudioConfig.decode []).isOk = false := by decide +kernel
    rw [hok] at hbroken
    exact nomatch hbroken
  · exact hnot ⟨rfl, rfl⟩

end LiveIngest.Rtp
