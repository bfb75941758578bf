import LiveIngest.Proofs.Codec.Records
import LiveIngest.Proofs.Rtp.Gating
import LiveIngest.Proofs.Rtp.Reassembly
import LiveIngest.Proofs.Rtp.Sendable

/-!
# Media as a stream of units

The media of an H.264 or H.265 output frame are units behind lengths, all of one size, which the
record says: first the parameter sets of an intra frame, then the units of the frame
(`NalScheme.lays_packetize`). The entries of a unit point into that unit (`Lays.entries`).

Whether the units can be read back from these media alone is another matter. Reading them back,
down to the last byte (`unframe?`), succeeds exactly if each length fits its field
(`unframe?_flatMap_iff`). The units of a frame were behind such lengths before. A parameter set
comes from the record, where its length has two bytes (`length_lt_of_parse_avc`,
`length_lt_of_parse_hevc`), so that a record with lengths of one byte is the only one with sets that
are too long: `unframes_output`.
-/

namespace LiveIngest.Rtp

open Codec

/-! ### Reading units back -/

/-- All of `bytes` as units behind lengths of `width` bytes. None if a byte is left over. -/
def unframe? (width : Nat) (bytes : List UInt8) : Option (List (List UInt8)) :=
  if bytes = [] then some []
  else if 0 < width ∧ width ≤ bytes.length then
    let size := Bytes.ofBigEndian (bytes.take width)
    let rest := bytes.drop width
    if size ≤ rest.length then (unframe? width (rest.drop size)).map (rest.take size :: ·)
    else none
  else none
termination_by bytes.length
decreasing_by
  simp only [List.length_drop]
  omega

section Unframe

variable {width : Nat} {unit rest : List UInt8}

theorem unframe?_nil : unframe? width [] = some [] := by
  rw [unframe?, if_pos rfl]

/-- The first unit that is read has as many bytes as its length says after truncation. -/
theorem unframe?_append (hwidth : 0 < width) :
    unframe? width (lengthPrefixed width unit ++ rest) =
      let size := unit.length % 256 ^ width
      if size ≤ (unit ++ rest).length then
        (unframe? width ((unit ++ rest).drop size)).map ((unit ++ rest).take size :: ·)
      else none := by
  have hlabel := Bytes.length_bigEndian width unit.length
  have hlength : (lengthPrefixed width unit ++ rest).length = width + (unit ++ rest).length := by
    rw [lengthPrefixed, List.append_assoc, List.length_append, hlabel]
  have hne : lengthPrefixed width unit ++ rest ≠ [] :=
    List.ne_nil_of_length_pos (by omega)
  rw [unframe?, if_neg hne, if_pos ⟨hwidth, by omega⟩, lengthPrefixed, List.append_assoc,
    List.take_left' hlabel, List.drop_left' hlabel, Bytes.ofBigEndian_bigEndian_mod]

theorem unframe?_append_of_fits (hwidth : 0 < width) (hfits : unit.length < 256 ^ width) :
    unframe? width (lengthPrefixed width unit ++ rest) =
      (unframe? width rest).map (unit :: ·) := by
  have hsize : unit.length ≤ (unit ++ rest).length := by
    rw [List.length_append]
    omega
  rw [unframe?_append hwidth, Nat.mod_eq_of_lt hfits]
  dsimp only
  rw [if_pos hsize, List.take_left, List.drop_left]

/-- A unit whose length does not fit is read as a shorter one. -/
theorem unframe?_append_of_long (hwidth : 0 < width) (hlong : 256 ^ width ≤ unit.length)
    (units : List (List UInt8)) :
    unframe? width (lengthPrefixed width unit ++ rest) ≠ some (unit :: units) := by
  intro hsome
  -- the length that is written is a remainder, which is smaller
  have hpos : 0 < 256 ^ width := Nat.pow_pos (by decide)
  have hshort : unit.length % 256 ^ width < unit.length :=
    (Nat.mod_lt _ hpos).trans_le hlong
  rw [unframe?_append hwidth] at hsome
  dsimp only at hsome
  split at hsome
  · rename_i hsize
    obtain ⟨tail, -, hcons⟩ := Option.map_eq_some_iff.1 hsome
    have hhead := congrArg List.length (List.cons.inj hcons).1
    rw [List.length_take_of_le hsize] at hhead
    omega
  · exact nomatch hsome

/-- **Units are read back exactly if their lengths fit.** -/
theorem unframe?_flatMap_iff (hwidth : 0 < width) (units : List (List UInt8)) :
    unframe? width (units.flatMap (lengthPrefixed width)) = some units ↔
      ∀ unit ∈ units, unit.length < 256 ^ width := by
  induction units with
  | nil => exact iff_of_true unframe?_nil (fun _ h => absurd h List.not_mem_nil)
  | cons unit units ih =>
    rw [List.flatMap_cons, List.forall_mem_cons, ← ih]
    -- the first unit decides what is read behind it
    by_cases hfits : unit.length < 256 ^ width
    · rw [unframe?_append_of_fits hwidth hfits, and_iff_right hfits]
      simp
    · have hlong := Nat.le_of_not_lt hfits
      exact iff_of_false (unframe?_append_of_long hwidth hlong units) fun h => hfits h.1

end Unframe

/-! ### What the media hold -/

/-- Where the unit at an index stands, behind the units before it and its own length. -/
def unitOffset (width : Nat) (units : List (List UInt8)) (i : Nat) : Nat :=
  ((units.take i).flatMap (lengthPrefixed width)).length + width

/-- An entry of a unit at `offset`: it names bytes of the unit, and at least one if the unit has
any. -/
structure Entry.PointsInto (offset : Nat) (unit : List UInt8) (e : Entry) : Prop where
  first : offset ≤ e.offset
  last : e.offset + e.length ≤ offset + unit.length
  pos : unit ≠ [] → 0 < e.length

/-- The media are `units` behind their lengths and nothing else, and the entries are made from these
units in order. -/
structure Body.Lays (width : Nat) (units : List (List UInt8)) (b : Body) : Prop where
  media : b.media = units.flatMap (lengthPrefixed width)
  entries : ∃ parts : List (List Entry), b.entries = parts.flatten ∧ parts.length = units.length ∧
    ∀ (i : Nat) (unit : List UInt8) (part : List Entry), units[i]? = some unit →
      parts[i]? = some part → ∀ e ∈ part, e.PointsInto (unitOffset width units i) unit

namespace Body

variable {b : Body} {width : Nat} {units : List (List UInt8)}

theorem lays_empty : empty.Lays width [] :=
  ⟨rfl, [], rfl, rfl, fun _ _ _ h => nomatch h⟩

/-- Each unit stands where its entries look for it. -/
theorem Lays.hasAt (h : b.Lays width units) {i : Nat} {unit : List UInt8}
    (hi : units[i]? = some unit) : b.HasAt (unitOffset width units i) unit := by
  obtain ⟨hlt, rfl⟩ := List.getElem?_eq_some_iff.1 hi
  refine ⟨(units.take i).flatMap (lengthPrefixed width) ++ Bytes.bigEndian width units[i].length,
    (units.drop (i + 1)).flatMap (lengthPrefixed width), ?_, ?_⟩
  -- in front of it stand the units before it and its own length
  · calc b.media = (units.take i ++ units[i] :: units.drop (i + 1)).flatMap
          (lengthPrefixed width) := by rw [← List.drop_eq_getElem_cons hlt,
            List.take_append_drop, h.media]
      _ = _ := by simp only [List.flatMap_append, List.flatMap_cons, lengthPrefixed,
            List.append_assoc]
  · rw [List.length_append, Bytes.length_bigEndian, unitOffset]

/-- One more unit behind its length, with entries that point into it. -/
theorem Lays.concat (h : b.Lays width units) (unit : List UInt8) {new : List Entry}
    (hnew : ∀ e ∈ new, e.PointsInto (b.append (Bytes.bigEndian width unit.length)).media.length
      unit) :
    (((b.append (Bytes.bigEndian width unit.length)).append unit).addEntries new).Lays width
      (units ++ [unit]) := by
  obtain ⟨parts, hentries, hlength, hparts⟩ := h.entries
  refine ⟨?_, parts ++ [new], ?_, by simp [hlength], fun i u part hu hpart => ?_⟩
  · show b.media ++ _ ++ unit = _
    rw [h.media, List.flatMap_append, List.flatMap_singleton, lengthPrefixed, List.append_assoc]
  · show b.entries ++ new = _
    rw [hentries, List.flatten_concat]
  · rcases Nat.lt_trichotomy i units.length with hi | rfl | hi
    · -- an earlier unit stands where it stood
      rw [List.getElem?_append_left hi] at hu
      rw [List.getElem?_append_left (by omega)] at hpart
      have hoffset : unitOffset width (units ++ [unit]) i = unitOffset width units i := by
        rw [unitOffset, List.take_append_of_le_length (Nat.le_of_lt hi), unitOffset]
      rw [hoffset]
      exact hparts i u part hu hpart
    · rw [List.getElem?_concat_length] at hu
      rw [← hlength, List.getElem?_concat_length] at hpart
      obtain rfl := Option.some.inj hu
      obtain rfl := Option.some.inj hpart
      have hoffset : unitOffset width (units ++ [unit]) units.length =
          (b.append (Bytes.bigEndian width unit.length)).media.length := by
        rw [unitOffset, List.take_left, ← h.media, append, List.length_append,
          Bytes.length_bigEndian]
      rw [hoffset]
      exact hnew
    · rw [List.getElem?_eq_none (by simp; omega)] at hu
      cases hu

/-- Steps that each add a unit. -/
theorem Lays.foldl (h : b.Lays width units) {add : Body → List UInt8 → Body}
    (hstep : ∀ b units unit, Body.Lays width units b → (add b unit).Lays width (units ++ [unit]))
    (more : List (List UInt8)) : (more.foldl add b).Lays width (units ++ more) := by
  induction more generalizing b units with
  | nil =>
    rw [List.append_nil]
    exact h
  | cons unit more ih =>
    rw [List.append_cons]
    exact ih (hstep b units unit h)

end Body

/-- The entries of a cut begin within the unit, and none of them is empty. -/
theorem le_offset_of_mem_pieces {lead : (isFirst isLast : Bool) → List UInt8} {size : Nat}
    {isFirst : Bool} {offset remaining : Nat} {e : Entry}
    (he : e ∈ pieces lead size isFirst offset remaining) : offset ≤ e.offset ∧ 0 < e.length := by
  induction isFirst, offset, remaining using pieces.induct size with
  | case1 isFirst offset => simp [pieces] at he
  | case2 isFirst offset remaining hne length ih =>
    -- each entry takes a byte at least, so the next one begins behind it
    rw [pieces, dif_neg hne] at he
    rcases List.mem_cons.1 he with rfl | he
    · have hpos : 0 < min remaining (max size 1) := by omega
      exact ⟨Nat.le_refl _, hpos⟩
    · obtain ⟨hle, hpos⟩ := ih he
      exact ⟨by omega, hpos⟩

namespace NalScheme

variable {ρ : Type} (s : NalScheme ρ)

theorem pointsInto_whole (offset : Nat) (unit : List UInt8) :
    Entry.PointsInto offset unit ⟨offset, unit.length, []⟩ :=
  ⟨Nat.le_refl _, Nat.le_refl _, List.length_pos_of_ne_nil⟩

theorem pointsInto_unitEntries {limit offset : Nat} {unit : List UInt8} {e : Entry}
    (he : e ∈ s.unitEntries limit offset unit) : e.PointsInto offset unit := by
  have hlast := s.unitEntries_within he
  unfold unitEntries at he
  split at he
  · rw [fragments_eq_pieces] at he
    obtain ⟨hle, hpos⟩ := le_offset_of_mem_pieces he
    exact ⟨by omega, hlast, fun _ => hpos⟩
  · rw [List.mem_singleton.1 he]
    exact pointsInto_whole offset unit

/-- **The media of a frame are its parameter sets and units**, and the entries point into them. -/
theorem lays_packetize (record : ρ) (limit : Nat) (tag : VideoTag) :
    (s.packetize record limit tag).body.Lays (s.lengthSizeMinusOne record + 1)
      (s.sentSets record tag ++ s.sentUnits record tag) := by
  have hset : ∀ b units unit, Body.Lays (s.lengthSizeMinusOne record + 1) units b →
      (addParameterSet (s.lengthSizeMinusOne record) b unit).Lays
        (s.lengthSizeMinusOne record + 1) (units ++ [unit]) := by
    intro b units unit hb
    -- a parameter set has one entry, which is the whole of it
    refine hb.concat unit fun e he => ?_
    rw [List.mem_singleton.1 he]
    exact pointsInto_whole _ unit
  have hunit : ∀ b units unit, Body.Lays (s.lengthSizeMinusOne record + 1) units b →
      (s.addUnit (s.lengthSizeMinusOne record) limit b unit).Lays
        (s.lengthSizeMinusOne record + 1) (units ++ [unit]) :=
    fun b units unit hb => hb.concat unit fun e he => s.pointsInto_unitEntries he
  exact (Body.lays_empty.foldl hset (s.sentSets record tag)).foldl hunit (s.sentUnits record tag)

end NalScheme

/-! ### The parameter sets of a record -/

/-- The sets of an H.264 record have lengths of two bytes. -/
theorem length_lt_of_parse_avc {bytes : List UInt8} {record : AvcRecord}
    (h : AvcRecord.parse bytes = .ok record) :
    ∀ set ∈ record.sps ++ record.pps, set.length < 256 ^ 2 := by
  obtain ⟨_, _, hsaid, -⟩ := AvcRecord.parse_eq_ok_iff.1 h
  exact List.forall_mem_append.2 ⟨hsaid.sps, hsaid.pps⟩

/-- The sets of an H.265 record have lengths of two bytes. -/
theorem length_lt_of_parse_hevc {bytes : List UInt8} {record : HevcRecord}
    (h : HevcRecord.parse bytes = .ok record) (type : UInt8) :
    ∀ set ∈ record.unitsOfType type, set.length < 256 ^ 2 := by
  obtain ⟨_, hsaid, -⟩ := HevcRecord.parse_eq_ok_iff.1 h
  intro set hset
  obtain ⟨a, ha, hset⟩ := List.mem_flatMap.1 hset
  exact hsaid.arrays.length_lt a (List.mem_of_mem_filter ha) set hset

/-! ### Output frames -/

namespace NalScheme

variable {ρ : Type} {s : NalScheme ρ}

/-- The record in force was read. -/
theorem exists_parse_of_getLast? {tags : List VideoTag} {record : ρ}
    (h : (tags.filterMap s.toVideoScheme.record?).getLast? = some record) :
    ∃ bytes, s.parse bytes = .ok record := by
  obtain ⟨config, -, hrecord⟩ := List.mem_filterMap.1 (List.mem_of_getLast? h)
  exact ⟨config.media, (VideoScheme.record?_eq_some_iff.1 hrecord).parse⟩

/-- Units that come from a frame and sets that come from a record can be read back from the media,
if the lengths of the frame are wide enough for the sets. -/
theorem unframe?_packetize_iff {record : ρ} (limit : Nat) {tag : VideoTag}
    {units : List (List UInt8)}
    (hframed : Framed (s.lengthSizeMinusOne record + 1) units tag.media)
    (hsets : ∀ set ∈ s.parameterSets record, set.length < 256 ^ 2) :
    unframe? (s.lengthSizeMinusOne record + 1) (s.packetize record limit tag).body.media =
        some (s.sentSets record tag ++ s.sentUnits record tag) ↔
      (tag.isKeyFrame = true → s.lengthSizeMinusOne record + 1 = 1 →
        ∀ set ∈ s.parameterSets record, set.length < 256) := by
  have hunits : ∀ unit ∈ s.sentUnits record tag,
      unit.length < 256 ^ (s.lengthSizeMinusOne record + 1) := by
    rw [sentUnits_of_framed hframed]
    exact fun unit hunit => hframed.fits unit (List.mem_of_mem_filter hunit)
  -- two bytes and more hold any set that a record can hold
  have hwide : ∀ set ∈ s.parameterSets record, 1 ≤ s.lengthSizeMinusOne record →
      set.length < 256 ^ (s.lengthSizeMinusOne record + 1) := fun set hset hsize =>
    (hsets set hset).trans_le (Nat.pow_le_pow_right (by decide) (by omega))
  rw [(s.lays_packetize record limit tag).media,
    unframe?_flatMap_iff (Nat.succ_pos _), List.forall_mem_append, and_iff_left hunits,
    forall_mem_sentSets_iff]
  refine imp_congr_right fun _ => ⟨fun h hone set hset => ?_, fun h set hset => ?_⟩
  · have hfits := h set hset
    rwa [Nat.succ_eq_add_one, hone] at hfits
  · rcases Nat.eq_zero_or_pos (s.lengthSizeMinusOne record) with hzero | hpos
    · rw [hzero]
      exact h (by omega) set hset
    · exact hwide set hset hpos

/-- **Media can be split again unless a set is too long.** Behind any tags, the last readable record
of which is in force, a frame of units has an output frame, whose media are the parameter sets, if
the frame is an intra frame, and the units of the frame, except for H.264 units that only fill up,
each behind a length of the record's size; the entries point into the units they were made from.
Splitting the media by that size gives back exactly these units, with no byte left over, unless the
lengths have one byte and a parameter set in front of the frame has 256 bytes or more. -/
theorem unframes_output (limit : Nat) (tags : List VideoTag) (tag : VideoTag)
    (units : List (List UInt8)) :
    (∀ record, h264.toVideoScheme.IsCoded tag →
      (tags.filterMap h264.toVideoScheme.record?).getLast? = some record →
      Framed (record.lengthSizeMinusOne.toNat + 1) units tag.media →
      let width := record.lengthSizeMinusOne.toNat + 1
      let sets := record.sps ++ record.pps
      let sent := (if tag.isKeyFrame then sets else []) ++
        units.filter fun unit => unit.headD 0 &&& 0x1f ≠ 12
      ∃ out, (((VideoPacketizer.initial limit).addAll h264.toVideoScheme tags).add
          h264.toVideoScheme tag).2 = some out ∧
        out.body.Lays width sent ∧
        (unframe? width out.body.media = some sent ↔
          (tag.isKeyFrame = true → width = 1 → ∀ set ∈ sets, set.length < 256))) ∧
    (∀ record, h265.toVideoScheme.IsCoded tag →
      (tags.filterMap h265.toVideoScheme.record?).getLast? = some record →
      Framed (record.lengthSizeMinusOne.toNat + 1) units tag.media →
      let width := record.lengthSizeMinusOne.toNat + 1
      let sets := record.unitsOfType 32 ++ record.unitsOfType 33 ++ record.unitsOfType 34
      let sent := (if tag.isKeyFrame then sets else []) ++ units
      ∃ out, (((VideoPacketizer.initial limit).addAll h265.toVideoScheme tags).add
          h265.toVideoScheme tag).2 = some out ∧
        out.body.Lays width sent ∧
        (unframe? width out.body.media = some sent ↔
          (tag.isKeyFrame = true → width = 1 → ∀ set ∈ sets, set.length < 256))) := by
  constructor
  · intro record hcoded hrecord hframed
    obtain ⟨bytes, hparse⟩ := exists_parse_of_getLast? hrecord
    -- the two schemes differ in what they drop: fillers for H.264, nothing for H.265
    have hlays := h264.lays_packetize record limit tag
    have hiff := unframe?_packetize_iff (s := h264) limit hframed
      (length_lt_of_parse_avc hparse)
    rw [sentUnits_h264_of_framed hframed] at hlays hiff
    exact ⟨_, VideoPacketizer.output_of_coded hrecord hcoded, hlays, hiff⟩
  · intro record hcoded hrecord hframed
    obtain ⟨bytes, hparse⟩ := exists_parse_of_getLast? hrecord
    have hlays := h265.lays_packetize record limit tag
    -- sets of the three types, each cut out of the record
    have hsets : ∀ set ∈ h265.parameterSets record, set.length < 256 ^ 2 :=
      List.forall_mem_append.2 ⟨List.forall_mem_append.2
        ⟨length_lt_of_parse_hevc hparse 32, length_lt_of_parse_hevc hparse 33⟩,
        length_lt_of_parse_hevc hparse 34⟩
    have hiff := unframe?_packetize_iff (s := h265) limit hframed hsets
    rw [sentUnits_h265_of_framed hframed] at hlays hiff
    exact ⟨_, VideoPacketizer.output_of_coded hrecord hcoded, hlays, hiff⟩

/-- An H.264 intra frame with a unit to cut and one that only fills up, and an H.265 intra frame
behind lengths of one byte. -/
theorem unframes_output_both :
    let avcConfig : VideoTag := { VideoTag.empty 0 0 with
      media := [1, 100, 0, 30, 0xfd, 0xe1, 0, 2, 0x67, 9, 1, 0, 1, 0x68] }
    let avcFrame : VideoTag := { VideoTag.empty 40 0 with
      frameType := .intra
      packetType := .avc .nalu
      media := [0, 6, 0x65, 1, 2, 3, 4, 5, 0, 2, 0x0c, 0xff, 0, 2, 0x06, 7] }
    let hevcConfig : VideoTag := { VideoTag.empty 0 0 with
      codec := .extended .hevc
      packetType := .extended .sequenceStart
      media := 1 :: List.replicate 20 0 ++ [0xfc, 1, 0x21, 0, 1, 0, 2, 0x42, 1] }
    let hevcFrame : VideoTag := { VideoTag.empty 40 0 with
      codec := .extended .hevc
      frameType := .intra
      packetType := .extended .codedFramesX
      media := [3, 0x26, 1, 7] }
    (∃ out, (((VideoPacketizer.initial 5).addAll h264.toVideoScheme [avcConfig]).add
        h264.toVideoScheme avcFrame).2 = some out ∧
      unframe? 2 out.body.media =
        some [[0x67, 9], [0x68], [0x65, 1, 2, 3, 4, 5], [0x06, 7]]) ∧
    ∃ out, (((VideoPacketizer.initial 5).addAll h265.toVideoScheme [hevcConfig]).add
        h265.toVideoScheme hevcFrame).2 = some out ∧
      unframe? 1 out.body.media = some [[0x42, 1], [0x26, 1, 7]] := by
  intro avcConfig avcFrame hevcConfig hevcFrame
  -- the third unit is cut off
  have havc : Framed 2 [[0x65, 1, 2, 3, 4, 5], [0x0c, 0xff], [0x06, 7]] avcFrame.media :=
    { ne_nil := by decide
      fits := by decide
      eq := ⟨[], ⟨[], [0, 0], by decide⟩, rfl⟩ }
  have hhevc : Framed 1 [[0x26, 1, 7]] hevcFrame.media :=
    { ne_nil := by decide
      fits := by decide
      eq := ⟨[], ⟨[], [0], by decide⟩, rfl⟩ }
  have hrecord : ([hevcConfig].filterMap h265.toVideoScheme.record?).getLast? =
      some ⟨1 :: List.replicate 20 0 ++ [0xfc], [⟨false, 33, [[0x42, 1]]⟩]⟩ := rfl
  constructor
  · obtain ⟨out, hout, -, hsplit⟩ :=
      (unframes_output 5 [avcConfig] avcFrame _).1 _ ⟨rfl, rfl⟩ rfl havc
    exact ⟨out, hout, hsplit.2 fun _ hone => absurd hone (by decide)⟩
  · obtain ⟨out, hout, -, hsplit⟩ :=
      (unframes_output 5 [hevcConfig] hevcFrame _).2 _ ⟨rfl, rfl⟩ hrecord hhevc
    exact ⟨out, hout, hsplit.2 fun _ _ => by decide⟩

/-- A sequence parameter set of 256 bytes behind a length of one byte, which says 0: what is read
from the media is not what was put in. -/
theorem unframes_not_of_long_set :
    let sps : List UInt8 := 0x67 :: List.replicate 255 0
    let config : VideoTag := { VideoTag.empty 0 0 with
      media := [1, 100, 0, 30, 0xfc, 0xe1, 1, 0] ++ sps ++ [1, 0, 1, 0x68] }
    let coded : VideoTag := { VideoTag.empty 40 0 with
      frameType := .intra
      packetType := .avc .nalu
      media := [1, 0x65] }
    ∃ out, (((VideoPacketizer.initial 1200).addAll h264.toVideoScheme [config]).add
        h264.toVideoScheme coded).2 = some out ∧
      out.body.media = 0 :: sps ++ [1, 0x68, 1, 0x65] ∧
      unframe? 1 out.body.media ≠ some [sps, [0x68], [0x65]] := by
  intro sps config coded
  have hout : (((VideoPacketizer.initial 1200).addAll h264.toVideoScheme [config]).add
      h264.toVideoScheme coded).2 =
        some (h264.packetize ⟨1, 100, 0, 30, 0, [sps], [[0x68]], []⟩ 1200 coded) := by
    decide +kernel
  have hmedia : (h264.packetize ⟨1, 100, 0, 30, 0, [sps], [[0x68]], []⟩ 1200 coded).body.media =
      lengthPrefixed 1 sps ++ [1, 0x68, 1, 0x65] := by decide +kernel
  -- 256 leaves a zero in the low byte
  have hlabel : lengthPrefixed 1 sps = 0 :: sps := by decide +kernel
  have hlong : 256 ^ 1 ≤ sps.length := by
    rw [List.length_cons, List.length_replicate]
    decide
  refine ⟨_, hout, ?_, ?_⟩
  · rw [hmedia, hlabel]
  · rw [hmedia]
    exact unframe?_append_of_long Nat.one_pos hlong [[0x68], [0x65]]

end NalScheme

end LiveIngest.Rtp
