import Mathlib.Data.List.Forall2
import LiveIngest.Proofs.Bytes.Endian
import LiveIngest.Proofs.Bytes.Masks
import LiveIngest.Proofs.Rtp.Fragments
import LiveIngest.Proofs.Rtp.Joining
import LiveIngest.Proofs.Rtp.Runs

/-!
# Units there and back

A receiver of H.264 or H.265 gets back what a coded frame held, with the parameter sets in front of
it on an intra frame:

* `Framed width units bytes` — a frame as units behind their lengths, with perhaps a cut one at the
  end, which the packetizer leaves out (`splitUnits_of_framed`);
* `LeadReader` — how a receiver of either codec tells fragments, and restores the header of a unit
  from the lead of its first fragment (`restores_h264`, `restores_h265`);
* `SentAs` — a unit up to the limit is sent as it is, and a larger one in as few fragments as
  possible, the first and the last of which are marked (`HasFronts.sentAs`);
* `delivers_of_framed` — for a packetizer that was fed any tags and then a coded frame, all of this.
-/

namespace LiveIngest.Rtp

/-! ### Frames of units -/

/-- A unit behind its length, a number of `width` bytes. -/
def lengthPrefixed (width : Nat) (unit : List UInt8) : List UInt8 :=
  Bytes.bigEndian width unit.length ++ unit

/-- Some bytes of a unit and its length, but not all of them; perhaps none. -/
def IsCutUnit (width : Nat) (bytes : List UInt8) : Prop :=
  ∃ unit missing, unit.length < 256 ^ width ∧ missing ≠ [] ∧
    bytes ++ missing = lengthPrefixed width unit

/-- `bytes` hold `units`, none of them empty, and perhaps a cut unit behind them. -/
structure Framed (width : Nat) (units : List (List UInt8)) (bytes : List UInt8) : Prop where
  ne_nil : ∀ unit ∈ units, unit ≠ []
  fits : ∀ unit ∈ units, unit.length < 256 ^ width
  eq : ∃ rest, IsCutUnit width rest ∧ bytes = units.flatMap (lengthPrefixed width) ++ rest

/-- A unit with its length in front is split off. -/
theorem splitUnits_lengthPrefixed {sizeMinusOne : Nat} {unit : List UInt8} (hne : unit ≠ [])
    (hfits : unit.length < 256 ^ (sizeMinusOne + 1)) (rest : List UInt8) :
    splitUnits sizeMinusOne (lengthPrefixed (sizeMinusOne + 1) unit ++ rest) =
      unit :: splitUnits sizeMinusOne rest := by
  have hpos := List.length_pos_of_ne_nil hne
  have hlabel := Bytes.length_bigEndian (sizeMinusOne + 1) unit.length
  have hmore : sizeMinusOne + 1 < (lengthPrefixed (sizeMinusOne + 1) unit ++ rest).length := by
    simp only [lengthPrefixed, List.length_append, hlabel]
    omega
  rw [splitUnits, if_pos hmore, lengthPrefixed, List.append_assoc, List.take_left' hlabel,
    List.drop_left' hlabel, Bytes.ofBigEndian_bigEndian hfits]
  simp

/-- A unit that is cut short is left out, wherever it is cut. -/
theorem splitUnits_of_isCutUnit {sizeMinusOne : Nat} {bytes : List UInt8}
    (h : IsCutUnit (sizeMinusOne + 1) bytes) : splitUnits sizeMinusOne bytes = [] := by
  obtain ⟨unit, missing, hfits, hmissing, heq⟩ := h
  have hpos := List.length_pos_of_ne_nil hmissing
  have hlabel := Bytes.length_bigEndian (sizeMinusOne + 1) unit.length
  have hlen := congrArg List.length heq
  simp only [lengthPrefixed, List.length_append, hlabel] at hlen
  rw [splitUnits]
  split
  · rename_i hmore
    -- the length is there, so that it is the unit itself that is cut
    have htake : bytes.take (sizeMinusOne + 1) =
        Bytes.bigEndian (sizeMinusOne + 1) unit.length := by
      have hfront := congrArg (List.take (sizeMinusOne + 1)) heq
      rwa [List.take_append_of_le_length (Nat.le_of_lt hmore), lengthPrefixed,
        List.take_left' hlabel] at hfront
    have hcut : (bytes.drop (sizeMinusOne + 1)).length < unit.length := by
      rw [List.length_drop]
      omega
    rw [htake, Bytes.ofBigEndian_bigEndian hfits]
    exact if_pos hcut
  · rfl

/-- **The units of a framed payload**, one after the other. -/
theorem splitUnits_of_framed {sizeMinusOne : Nat} {units : List (List UInt8)} {bytes : List UInt8}
    (h : Framed (sizeMinusOne + 1) units bytes) : splitUnits sizeMinusOne bytes = units := by
  obtain ⟨hne, hfits, rest, hcut, rfl⟩ := h
  induction units with
  | nil => exact splitUnits_of_isCutUnit hcut
  | cons unit units ih =>
    rw [List.flatMap_cons, List.append_assoc,
      splitUnits_lengthPrefixed (hne _ List.mem_cons_self) (hfits _ List.mem_cons_self),
      ih (fun u hu => hne u (List.mem_cons_of_mem _ hu))
        (fun u hu => hfits u (List.mem_cons_of_mem _ hu))]

/-! ### Restoring headers -/

/-- How a receiver reads the lead of a fragment. -/
structure LeadReader where
  /-- True for leads of the fragment type and of the right length. -/
  isFragment : List UInt8 → Bool
  /-- The header of a unit, from the lead of its first fragment. -/
  header : List UInt8 → List UInt8

namespace LeadReader

/-- A payload without a lead is a whole unit. Another one is a fragment, and in front of the first
one stands the header that is restored from its lead. -/
def piece (r : LeadReader) (p : Payload) : Piece :=
  if p.lead = [] then ⟨true, true, p.data⟩
  else
    let begins := p.marks &&& 0x80 != 0
    { begins
      ends := p.marks &&& 0x40 != 0
      bytes := (if begins then r.header p.lead else []) ++ p.data }

/-- H.264: the importance stands in the indicator, the type in the header of the fragment. -/
def h264 : LeadReader where
  isFragment
    | [indicator, _] => indicator &&& 0x1f == 28
    | _ => false
  header
    | [indicator, marks] => [(indicator &&& 0xe0) ||| (marks &&& 0x1f)]
    | _ => []

/-- H.265: all of the header but the type stands in front. -/
def h265 : LeadReader where
  isFragment
    | [high, _, _] => high &&& 0x7e == 2 * 49
    | _ => false
  header
    | [high, low, marks] => [(high &&& 0x81) ||| 2 * (marks &&& 0x3f), low]
    | _ => []

end LeadReader

namespace FragmentHeader

/-- The marks of a fragment do not touch the type and can be told apart. -/
theorem marks_bytes {h : FragmentHeader} (htype : h.type &&& 0xc0 = 0) (isFirst isLast : Bool)
    (data : List UInt8) :
    ((Payload.marks ⟨h.bytes isFirst isLast, data⟩ &&& 0x80 != 0) = isFirst) ∧
      ((Payload.marks ⟨h.bytes isFirst isLast, data⟩ &&& 0x40 != 0) = isLast) := by
  have hall : ∀ (v : BitVec 8) (isFirst isLast : Bool), UInt8.ofBitVec v &&& 0xc0 = 0 →
      let marks := UInt8.ofBitVec v ||| (if isFirst then 0x80 else 0) |||
        (if isLast then 0x40 else 0)
      (marks &&& 0x80 != 0) = isFirst ∧ (marks &&& 0x40 != 0) = isLast := by decide +kernel
  have hlast : Payload.marks ⟨h.bytes isFirst isLast, data⟩ =
      h.type ||| (if isFirst then 0x80 else 0) ||| (if isLast then 0x40 else 0) := by
    simp [Payload.marks, bytes]
  rw [hlast]
  exact hall h.type.toBitVec isFirst isLast htype

end FragmentHeader

namespace NalScheme

variable {ρ : Type} {s : NalScheme ρ} {r : LeadReader} {limit : Nat} {unit : List UInt8}

/-- A receiver sees what a fragment of `unit` is, and restores the unit's header. -/
structure Restores (s : NalScheme ρ) (r : LeadReader) (unit : List UInt8) : Prop where
  type : (s.fragmentHeader unit).type &&& 0xc0 = 0
  isFragment : ∀ isFirst isLast, r.isFragment ((s.fragmentHeader unit).bytes isFirst isLast) = true
  header : ∀ isLast, r.header ((s.fragmentHeader unit).bytes true isLast) = unit.take s.headerSize

/-- The header of an H.264 unit is put together from the indicator and the type of its first
fragment. -/
theorem restores_h264 (hunit : unit ≠ []) : h264.Restores .h264 unit where
  type := Bytes.and_and_of_disjoint rfl (unit.headD 0)
  isFragment isFirst isLast := by
    have htype : (unit.headD 0 &&& 0xe0 ||| 28) &&& 0x1f = 28 := by
      rw [Bytes.or_and, Bytes.and_and_of_disjoint rfl]
      rfl
    exact beq_iff_eq.2 htype
  header isLast := by
    cases unit with
    | nil => exact absurd rfl hunit
    | cons b rest =>
      have hfront : (b &&& 0xe0 ||| 28) &&& 0xe0 = b &&& 0xe0 := by
        rw [UInt8.or_comm, Bytes.or_and_of_disjoint rfl, Bytes.and_and_of_within rfl]
      -- the marks are beside the type
      have htype : (b &&& 0x1f ||| 0x80 ||| (if isLast then 0x40 else 0)) &&& 0x1f = b &&& 0x1f := by
        rw [Bytes.or_and, Bytes.or_and, Bytes.and_and_of_within rfl]
        cases isLast <;> exact UInt8.or_zero.trans UInt8.or_zero
      have hheader : ((b &&& 0xe0 ||| 28) &&& 0xe0) |||
          ((b &&& 0x1f ||| 0x80 ||| (if isLast then 0x40 else 0)) &&& 0x1f) = b := by
        rw [hfront, htype, Bytes.and_or_and]
        exact Bytes.and_all b
      exact congrArg (fun b => [b]) hheader

/-- In front of an H.265 fragment stands type 49, and all else as in the unit's header. -/
theorem h265FragmentHeader_cons (high low : UInt8) (rest : List UInt8) :
    h265FragmentHeader (high :: low :: rest) =
      ⟨[.ofNat (98 + high.toNat % 2), low], .ofNat (high.toNat / 2 % 64)⟩ := by
  -- both bytes as one number: the type is six bits of it, and the layer straddles them
  have hlow := low.toNat_lt
  have hnumber : Bytes.ofBigEndian [high, low] = high.toNat * 256 + low.toNat := by
    simp [Bytes.ofBigEndian]
  have hfront : 49 * 512 + (high.toNat * 256 + low.toNat) / 8 % 64 * 8 +
      (high.toNat * 256 + low.toNat) % 8 = (98 + high.toNat % 2) * 256 + low.toNat := by
    omega
  have hhigh : ((98 + high.toNat % 2) * 256 + low.toNat) / 256 = 98 + high.toNat % 2 := by
    omega
  have htype : (high.toNat * 256 + low.toNat) / 512 % 64 = high.toNat / 2 % 64 := by
    omega
  have hsecond : UInt8.ofNat ((98 + high.toNat % 2) * 256 + low.toNat) = low := by
    apply UInt8.toNat_inj.1
    rw [UInt8.toNat_ofNat']
    omega
  have hbytes : Bytes.bigEndian 2 ((98 + high.toNat % 2) * 256 + low.toNat) =
      [.ofNat (98 + high.toNat % 2), low] := by
    rw [← hsecond]
    simp [Bytes.bigEndian, Nat.shiftRight_eq_div_pow, hhigh]
  unfold h265FragmentHeader
  simp only [hnumber, hfront, htype, hbytes]

/-- That of an H.265 unit is one bit short: the first bit has to be zero, as it is in every unit. -/
theorem restores_h265 (hunit : 2 ≤ unit.length) (hclear : unit.headD 0 &&& 0x80 = 0) :
    h265.Restores .h265 unit := by
  match unit, hunit with
  | high :: low :: rest, _ =>
    -- only the high byte is taken apart, and it has 256 values
    have hall : ∀ v : BitVec 8, UInt8.ofBitVec v &&& 0x80 = 0 →
        UInt8.ofNat ((UInt8.ofBitVec v).toNat / 2 % 64) &&& 0xc0 = 0 ∧
        (UInt8.ofNat (98 + (UInt8.ofBitVec v).toNat % 2) &&& 0x7e == 2 * 49) = true ∧
        ∀ isLast : Bool, (UInt8.ofNat (98 + (UInt8.ofBitVec v).toNat % 2) &&& 0x81) |||
            2 * ((UInt8.ofNat ((UInt8.ofBitVec v).toNat / 2 % 64) ||| 0x80 |||
              (if isLast then 0x40 else 0)) &&& 0x3f) = UInt8.ofBitVec v := by
      decide +kernel
    obtain ⟨htype, hfragment, hheader⟩ := hall high.toBitVec hclear
    have hcons : h265.fragmentHeader (high :: low :: rest) = _ :=
      h265FragmentHeader_cons high low rest
    refine ⟨?_, fun _ _ => ?_, fun isLast => ?_⟩
    · rw [hcons]
      exact htype
    · rw [hcons]
      exact hfragment
    · rw [hcons]
      exact congrArg (fun b => [b, low]) (hheader isLast)

/-- How a fragment of `unit` is read. -/
theorem Restores.piece_fragment (h : s.Restores r unit) (isFirst isLast : Bool)
    (data : List UInt8) :
    r.piece ⟨(s.fragmentHeader unit).bytes isFirst isLast, data⟩ =
      ⟨isFirst, isLast, (if isFirst then unit.take s.headerSize else []) ++ data⟩ := by
  obtain ⟨hfirst, hlast⟩ := FragmentHeader.marks_bytes h.type isFirst isLast data
  have hlead : (s.fragmentHeader unit).bytes isFirst isLast ≠ [] := by
    simp [FragmentHeader.bytes]
  rw [LeadReader.piece, if_neg hlead]
  simp only [hfirst, hlast]
  cases isFirst with
  | false => rfl
  | true => rw [if_pos rfl, if_pos rfl, h.header]

/-! ### What is sent of a frame -/

/-- `ps` are the payloads of `unit`: itself, or the fewest fragments that hold what is behind its
header, marked at both ends. -/
structure SentAs (r : LeadReader) (headerSize limit : Nat) (unit : List UInt8)
    (ps : List Payload) : Prop where
  whole : unit.length ≤ limit → ps = [⟨[], unit⟩]
  count : limit < unit.length →
    2 ≤ ps.length ∧ ps.length = (unit.length - headerSize) ⌈/⌉ (limit - (headerSize + 1))
  marks : limit < unit.length → ∀ i p, ps[i]? = some p → r.isFragment p.lead = true ∧
    p.lead.length = headerSize + 1 ∧
    (p.marks &&& 0x80 ≠ 0 ↔ i = 0) ∧ (p.marks &&& 0x40 ≠ 0 ↔ i + 1 = ps.length)
  fits : unit ≠ [] → ∀ p ∈ ps, 0 < p.bytes.length ∧ p.bytes.length ≤ limit

/-- A large unit is sent in fragments that restore it. -/
theorem Restores.sentAs (h : s.Restores r unit) (hfronts : s.HasFronts)
    (hlimit : s.headerSize + 1 < limit) (hlarge : limit < unit.length) :
    SentAs r s.headerSize limit unit (s.unitPayloads limit unit) := by
  have hcut := hfronts.unitPayloads_of_large (Nat.lt_of_succ_lt hlimit) hlarge
  have hsize : max (limit - (s.headerSize + 1)) 1 = limit - (s.headerSize + 1) := by
    omega
  have hcount : (s.unitPayloads limit unit).length =
      (unit.length - s.headerSize) ⌈/⌉ (limit - (s.headerSize + 1)) := by
    rw [hcut, length_cut, hsize, List.length_drop]
  refine ⟨fun hsmall => absurd hlarge (Nat.not_lt.2 hsmall), fun _ => ⟨?_, hcount⟩,
    fun _ i p hp => ?_, (hfronts.fits_unitPayloads hlimit).2⟩
  · -- one fragment alone holds less than the limit
    rw [hcount]
    by_contra hfew
    have hmul := (ceilDiv_le_iff_le_mul (a := limit - (s.headerSize + 1)) (by omega)).1
      (Nat.le_of_lt_succ (Nat.lt_of_not_le hfew))
    omega
  · rw [hcut] at hp ⊢
    obtain ⟨hfragment, hlength⟩ := of_getElem?_cut
      (R := fun _ _ p => r.isFragment p.lead = true ∧ p.lead.length = s.headerSize + 1)
      (fun _ _ _ => ⟨h.isFragment _ _, hfronts.length_bytes _ _ _⟩) hp
    -- the marks tell the first and the last fragment, and no other ones
    obtain ⟨hfirst, hlast⟩ := of_getElem?_cut
      (R := fun isFirst isLast p =>
        (p.marks &&& 0x80 != 0) = isFirst ∧ (p.marks &&& 0x40 != 0) = isLast)
      (FragmentHeader.marks_bytes h.type) hp
    refine ⟨hfragment, hlength, ?_, ?_⟩
    · rw [← bne_iff_ne, hfirst]
      simp
    · rw [← bne_iff_ne, hlast]
      simp

/-- A unit is sent as it is, or in fragments that restore it. -/
theorem HasFronts.sentAs (hfronts : s.HasFronts) (hlimit : s.headerSize + 1 < limit)
    (hrestores : limit < unit.length → s.Restores r unit) :
    SentAs r s.headerSize limit unit (s.unitPayloads limit unit) := by
  by_cases hlarge : limit < unit.length
  · exact (hrestores hlarge).sentAs hfronts hlimit hlarge
  · have hwhole := s.unitPayloads_of_small (Nat.le_of_not_lt hlarge)
    exact ⟨fun _ => hwhole, fun h => absurd h hlarge, fun h => absurd h hlarge,
      (hfronts.fits_unitPayloads hlimit).2⟩

/-- **A unit is joined again** from what it is sent as, whatever follows. -/
theorem HasFronts.join (hfronts : s.HasFronts) (hlimit : s.headerSize < limit)
    (hrestores : limit < unit.length → s.Restores r unit) (rest : List Piece) :
    Piece.join none ((s.unitPayloads limit unit).map r.piece ++ rest) =
      (Piece.join none rest).map (unit :: ·) := by
  by_cases hlarge : limit < unit.length
  · -- the header is restored from the first fragment, and what is behind it was cut
    have hbehind : unit.drop s.headerSize ≠ [] := by
      rw [Ne, List.drop_eq_nil_iff]
      omega
    rw [hfronts.unitPayloads_of_large hlimit hlarge,
      Piece.join_unit (hrestores hlarge).piece_fragment hbehind, List.take_append_drop]
  · rw [s.unitPayloads_of_small (Nat.le_of_not_lt hlarge)]
    exact Piece.join_whole unit rest

/-- A receiver gets back `sets` and `units` from what is sent, and each unit is sent as it should
be. -/
structure Delivers (r : LeadReader) (headerSize limit : Nat) (sets units : List (List UInt8))
    (out : VideoOutput) : Prop where
  inMedia : out.body.InMedia
  joined : Piece.join none (out.body.payloads.map r.piece) = some (sets ++ units)
  sent : ∃ parts, out.body.payloads = sets.map (⟨[], ·⟩) ++ parts.flatten ∧
    List.Forall₂ (SentAs r headerSize limit) units parts

/-- **A frame is delivered**: parameter sets first, then its units. -/
theorem HasFronts.delivers_packetize (hfronts : s.HasFronts) {record : ρ} {tag : VideoTag}
    (hlimit : s.headerSize + 1 < limit)
    (hrestores : ∀ unit ∈ s.sentUnits record tag, limit < unit.length → s.Restores r unit) :
    Delivers r s.headerSize limit (s.sentSets record tag) (s.sentUnits record tag)
      (s.packetize record limit tag) := by
  have hbody := s.grows_packetize record limit tag
  have hpayloads : (s.packetize record limit tag).body.payloads =
      (s.sentSets record tag).flatMap (fun set => [⟨[], set⟩]) ++
        (s.sentUnits record tag).flatMap (s.unitPayloads limit) := by
    rw [← List.map_eq_flatMap]
    exact hbody.payloads
  -- sets are whole payloads, and units are cut where they have to be
  have hsets : ∀ rest, Piece.join none
      (((s.sentSets record tag).flatMap fun set => [⟨[], set⟩]).map r.piece ++ rest) =
        (Piece.join none rest).map (s.sentSets record tag ++ ·) :=
    Piece.join_flatMap fun set _ rest => Piece.join_whole set rest
  have hunits : Piece.join none
      (((s.sentUnits record tag).flatMap (s.unitPayloads limit)).map r.piece ++ []) =
        (Piece.join none []).map (s.sentUnits record tag ++ ·) :=
    Piece.join_flatMap
      (fun unit hunit => hfronts.join (Nat.lt_of_succ_lt hlimit) (hrestores unit hunit)) []
  rw [List.append_nil] at hunits
  refine ⟨hbody.inMedia, ?_, (s.sentUnits record tag).map (s.unitPayloads limit), ?_, ?_⟩
  · rw [hpayloads, List.map_append, hsets, hunits]
    show some (s.sentSets record tag ++ (s.sentUnits record tag ++ [])) = _
    rw [List.append_nil]
  · rw [← List.flatMap_def]
    exact hbody.payloads
  · rw [List.forall₂_map_right_iff]
    exact List.forall₂_same.2 fun unit hunit => hfronts.sentAs hlimit (hrestores unit hunit)

/-- The units that are sent are those of the frame without fillers. -/
theorem sentUnits_of_framed {record : ρ} {tag : VideoTag} {units : List (List UInt8)}
    (h : Framed (s.lengthSizeMinusOne record + 1) units tag.media) :
    s.sentUnits record tag = units.filter fun unit => !s.isFiller unit := by
  rw [sentUnits, splitUnits_of_framed h]

/-- Of the units of an H.264 frame, those that only fill up the bit rate are not sent. -/
theorem sentUnits_h264_of_framed {record : Codec.AvcRecord} {tag : VideoTag}
    {units : List (List UInt8)}
    (h : Framed (record.lengthSizeMinusOne.toNat + 1) units tag.media) :
    h264.sentUnits record tag = units.filter fun unit => unit.headD 0 &&& 0x1f ≠ 12 := by
  rw [sentUnits_of_framed h]
  refine List.filter_congr fun unit _ => ?_
  rw [Bool.eq_iff_iff]
  cases unit <;> simp [h264]

/-- No H.265 unit counts as a filler. -/
theorem sentUnits_h265_of_framed {record : Codec.HevcRecord} {tag : VideoTag}
    {units : List (List UInt8)}
    (h : Framed (record.lengthSizeMinusOne.toNat + 1) units tag.media) :
    h265.sentUnits record tag = units := by
  rw [sentUnits_of_framed h]
  exact List.filter_eq_self.2 fun _ _ => rfl

/-- **A coded frame arrives as it was sent.** Behind any tags, the last readable record of which is
in force, a frame of units has an output frame, from which a receiver restores the parameter sets,
if the frame is an intra frame, and all units of the frame, except for H.264 units that only fill up
the bit rate. The units of an H.265 frame must not use the bit that is forbidden there. -/
theorem delivers_of_framed {limit : Nat} (hlimit : 4 ≤ limit) (tags : List VideoTag)
    (tag : VideoTag) (units : List (List UInt8)) :
    (∀ record, h264.toVideoScheme.IsCoded tag →
      (tags.filterMap h264.toVideoScheme.record?).getLast? = some record →
      Framed (record.lengthSizeMinusOne.toNat + 1) units tag.media →
      ∃ out, (((VideoPacketizer.initial limit).addAll h264.toVideoScheme tags).add
          h264.toVideoScheme tag).2 = some out ∧
        Delivers .h264 1 limit (if tag.isKeyFrame then record.sps ++ record.pps else [])
          (units.filter fun unit => unit.headD 0 &&& 0x1f ≠ 12) out) ∧
    (∀ record, h265.toVideoScheme.IsCoded tag →
      (tags.filterMap h265.toVideoScheme.record?).getLast? = some record →
      Framed (record.lengthSizeMinusOne.toNat + 1) units tag.media →
      (∀ unit ∈ units, unit.headD 0 &&& 0x80 = 0) →
      ∃ out, (((VideoPacketizer.initial limit).addAll h265.toVideoScheme tags).add
          h265.toVideoScheme tag).2 = some out ∧
        Delivers .h265 2 limit
          (if tag.isKeyFrame then
            record.unitsOfType 32 ++ record.unitsOfType 33 ++ record.unitsOfType 34
          else [])
          units out) := by
  constructor
  · intro record hcoded hrecord hframed
    refine ⟨_, VideoPacketizer.output_of_coded hrecord hcoded, ?_⟩
    rw [← sentUnits_h264_of_framed hframed]
    -- H.264 restores any unit that is cut, H.265 those with a clear first bit
    refine hasFronts_h264.delivers_packetize (show 1 + 1 < limit by omega) fun unit _ hlarge => ?_
    exact restores_h264 (List.ne_nil_of_length_pos (Nat.zero_lt_of_lt hlarge))
  · intro record hcoded hrecord hframed hclear
    have hunits := sentUnits_h265_of_framed hframed
    refine ⟨_, VideoPacketizer.output_of_coded hrecord hcoded, ?_⟩
    rw [← hunits] at hclear ⊢
    refine hasFronts_h265.delivers_packetize (show 2 + 1 < limit by omega)
      fun unit hunit hlarge => ?_
    exact restores_h265 (by omega) (hclear unit hunit)

/-- An H.264 intra frame with a unit to cut, one that only fills up, one to send as it is, and a cut
one; and an H.265 frame of one unit. -/
theorem delivers_of_framed_both :
    let avcConfig : VideoTag := { VideoTag.empty 0 0 with
      media := [1, 100, 0, 30, 0xfd, 0xe1, 0, 2, 0x67, 9, 1, 0, 1, 0x68] }
    let avcFrame : VideoTag := { VideoTag.empty 40 0 with
      frameType := .intra
      packetType := .avc .nalu
      media := [0, 6, 0x65, 1, 2, 3, 4, 5, 0, 2, 0x0c, 0xff, 0, 2, 0x06, 7, 0, 9, 1] }
    let hevcConfig : VideoTag := { VideoTag.empty 0 0 with
      codec := .extended .hevc
      packetType := .extended .sequenceStart
      media := 1 :: List.replicate 20 0 ++ [0xfc, 1, 0x21, 0, 1, 0, 2, 0x42, 1] }
    let hevcFrame : VideoTag := { VideoTag.empty 40 0 with
      codec := .extended .hevc
      packetType := .extended .codedFramesX
      media := [6, 0x26, 1, 7, 8, 9, 10] }
    (∃ out, (((VideoPacketizer.initial 5).addAll h264.toVideoScheme [avcConfig]).add
        h264.toVideoScheme avcFrame).2 = some out ∧
      Delivers .h264 1 5 [[0x67, 9], [0x68]] [[0x65, 1, 2, 3, 4, 5], [0x06, 7]] out) ∧
    ∃ out, (((VideoPacketizer.initial 5).addAll h265.toVideoScheme [hevcConfig]).add
        h265.toVideoScheme hevcFrame).2 = some out ∧
      Delivers .h265 2 5 [] [[0x26, 1, 7, 8, 9, 10]] out := by
  intro avcConfig avcFrame hevcConfig hevcFrame
  have hlimit : 4 ≤ 5 := by decide
  -- three bytes are left at the end, of a unit that was to have nine
  have havc : Framed 2 [[0x65, 1, 2, 3, 4, 5], [0x0c, 0xff], [0x06, 7]] avcFrame.media :=
    { ne_nil := by decide
      fits := by decide
      eq := ⟨[0, 9, 1], ⟨[1, 2, 3, 4, 5, 6, 7, 8, 9], [2, 3, 4, 5, 6, 7, 8, 9], by decide⟩, rfl⟩ }
  have hhevc : Framed 1 [[0x26, 1, 7, 8, 9, 10]] hevcFrame.media :=
    { ne_nil := by decide
      fits := by decide
      eq := ⟨[], ⟨[], [0], by decide⟩, rfl⟩ }
  constructor
  · exact (delivers_of_framed hlimit [avcConfig] avcFrame _).1 _ ⟨rfl, rfl⟩ rfl havc
  · have hrecord : ([hevcConfig].filterMap h265.toVideoScheme.record?).getLast? =
        some ⟨1 :: List.replicate 20 0 ++ [0xfc], [⟨false, 33, [[0x42, 1]]⟩]⟩ := rfl
    exact (delivers_of_framed hlimit [hevcConfig] hevcFrame _).2 _ ⟨rfl, rfl⟩ hrecord hhevc
      (by decide)

end NalScheme

end LiveIngest.Rtp
