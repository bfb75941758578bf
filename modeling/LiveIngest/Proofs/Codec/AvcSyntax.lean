import LiveIngest.Proofs.Bits.Emulation
import LiveIngest.Proofs.Codec.Pictures

/-!
# The syntax of H.264 sequence parameter sets

The elements of seq_parameter_set_data() up to the cropping, as ITU-T H.264 has them in 7.3.2.1.1
and 7.3.2.1.1.1 (`AvcSyntax`), the bits they are written as (`AvcSyntax.bits`), and the picture size
by the formulas of 7.4.2.1.1 (`AvcSyntax.width`, `AvcSyntax.height`). All elements have values;
those that the syntax leaves out are not written.

A decoder goes wrong for good as soon as it takes one bit too many. Each part of the syntax has a
lemma that says that its part of the reader takes exactly its bits; the one with an argument is
`reads_deltas`, as the length of a scaling list hangs on the scales themselves.

Main statement: `decode_avcSyntax` — a parameter set is read as it was written.
-/

namespace LiveIngest.Codec

open Bits BitTake

/-! ### Scaling lists -/

/-- The deltas of a scaling list behind the scale `last`. A next scale of zero ends the deltas: the
ones that are left are not written. -/
def scalingBits (last next : Int) : List Int8 → List Bool
  | [] => []
  | delta :: rest =>
    if next = 0 then scalingBits last next rest
    else
      -- the next scale, which takes the place of the last one unless it is zero
      let scale := (last + delta.toInt + 256) % 256
      signedGolomb delta.toInt ++ scalingBits (if scale = 0 then last else scale) scale rest

/-- A matrix of six scaling lists for blocks of 4x4 and `large` lists for blocks of 8x8. Each list
is there or not. -/
structure ScalingMatrix (large : Nat) where
  lists4x4 : Vector (Option (Vector Int8 16)) 6
  lists8x8 : Vector (Option (Vector Int8 64)) large

namespace ScalingMatrix

/-- A list, whose first delta is from eight. -/
def listBits {size : Nat} (deltas : Vector Int8 size) : List Bool :=
  scalingBits 8 8 deltas.toList

def bits {large : Nat} (m : ScalingMatrix large) : List Bool :=
  m.lists4x4.toList.flatMap (optional listBits) ++ m.lists8x8.toList.flatMap (optional listBits)

end ScalingMatrix

/-! ### The elements -/

/-- What high profiles say of chroma. -/
structure AvcChroma where
  format : ChromaFormat
  /-- bit_depth_luma_minus8 -/
  lumaDepth : Golomb
  /-- bit_depth_chroma_minus8 -/
  chromaDepth : Golomb
  /-- qpprime_y_zero_transform_bypass_flag -/
  isBypassed : Bool
  scaling : Option (ScalingMatrix (if format.idc.val = 3 then 6 else 2))

def AvcChroma.bits (c : AvcChroma) : List Bool :=
  c.format.bits ++ golomb c.lumaDepth ++ golomb c.chromaDepth ++ flag c.isBypassed ++
    optional ScalingMatrix.bits c.scaling

/-- The ways to count pictures in the order they are shown: pic_order_cnt_type. -/
inductive PictureOrder
  /-- By a counter, log2_max_pic_order_cnt_lsb_minus4. -/
  | counted (width : Golomb)
  /-- By a cycle of offsets. -/
  | cyclic (alwaysZero : Bool) (nonReference topToBottom : SignedGolomb)
      (offsets : List SignedGolomb) (length_lt : offsets.length < 0xffffffff)
  /-- As they are decoded. -/
  | decoded

def PictureOrder.bits : PictureOrder → List Bool
  | counted width => golomb 0 ++ golomb width
  | cyclic alwaysZero nonReference topToBottom offsets _ =>
    golomb 1 ++ flag alwaysZero ++ signedGolomb nonReference ++ signedGolomb topToBottom ++
      golomb offsets.length ++ offsets.flatMap fun offset => signedGolomb offset.val
  | decoded => golomb 2

/-- The elements of a sequence parameter set up to the cropping. -/
structure AvcSyntax where
  profile : UInt8
  /-- The constraint flags and reserved bits. -/
  constraints : UInt8
  level : UInt8
  id : Golomb
  /-- Written for high profiles only. -/
  chroma : AvcChroma
  /-- log2_max_frame_num_minus4 -/
  frameNumberWidth : Golomb
  order : PictureOrder
  referenceFrames : Golomb
  gapsAllowed : Bool
  /-- pic_width_in_mbs_minus1 -/
  columns : Golomb
  /-- pic_height_in_map_units_minus1 -/
  rows : Golomb
  /-- frame_mbs_only_flag -/
  framesOnly : Bool
  /-- mb_adaptive_frame_field_flag, written where there are fields. -/
  isAdaptive : Bool
  /-- direct_8x8_inference_flag -/
  directInference : Bool
  cropping : Option Margins

namespace AvcSyntax

/-- The values of profile_idc with which chroma_format_idc is written. -/
def highProfiles : List UInt8 :=
  [100, 110, 122, 244, 44, 83, 86, 118, 128, 138, 139, 134, 135]

def bits (s : AvcSyntax) : List Bool :=
  field 8 s.profile.toNat ++ field 8 s.constraints.toNat ++ field 8 s.level.toNat ++ golomb s.id ++
    (if s.profile ∈ highProfiles then s.chroma.bits else []) ++
    golomb s.frameNumberWidth ++ s.order.bits ++ golomb s.referenceFrames ++ flag s.gapsAllowed ++
    golomb s.columns ++ golomb s.rows ++ flag s.framesOnly ++
    (if !s.framesOnly then flag s.isAdaptive else []) ++ flag s.directInference ++
    optional Margins.bits s.cropping

/-- The chroma format, which is 4:2:0 where it is not written. -/
def format (s : AvcSyntax) : ChromaFormat :=
  if s.profile ∈ highProfiles then s.chroma.format else .yuv420

/-- ChromaArrayType: planes that are coded apart count as no chroma. -/
def chromaArrayType (s : AvcSyntax) : Nat :=
  if s.format.isSeparate then 0 else s.format.idc

/-- Fields for each unit of rows: 2 - frame_mbs_only_flag. -/
def fields (s : AvcSyntax) : Nat :=
  2 - s.framesOnly.toNat

/-- CropUnitX -/
def cropUnitX (s : AvcSyntax) : Nat :=
  if s.chromaArrayType = 0 then 1 else s.format.subWidth

/-- CropUnitY -/
def cropUnitY (s : AvcSyntax) : Nat :=
  if s.chromaArrayType = 0 then s.fields else s.format.subHeight * s.fields

/-- The margins, which are nothing where they are not written. -/
def margins (s : AvcSyntax) : Margins :=
  s.cropping.getD .zero

/-- The width in luma samples that is left between the margins, which is not less than nothing. -/
def width (s : AvcSyntax) : Nat :=
  (s.columns.val + 1) * 16 - s.cropUnitX * (s.margins.left.val + s.margins.right.val)

/-- The height in luma samples that is left between the margins, which is not less than nothing. -/
def height (s : AvcSyntax) : Nat :=
  s.fields * (s.rows.val + 1) * 16 -
    s.cropUnitY * (s.margins.top.val + s.margins.bottom.val)

end AvcSyntax

/-! ### What the reader makes of them -/

namespace AvcSps

/-- **A scaling list is passed over.** By induction on the deltas: behind a next scale of zero, none
of them is written. -/
theorem reads_deltas {last : Int} (hlast : 0 ≤ last) (next : Int) (deltas : List Int8) :
    Reads (skipScalingList deltas.length last next) (scalingBits last next deltas) () := by
  induction deltas generalizing last next with
  | nil => exact Reads.pure ()
  | cons delta rest ih =>
    rw [List.length_cons, skipScalingList, scalingBits]
    split
    · exact ih hlast next
    · have hlow : -128 ≤ delta.toInt := delta.le_toInt
      have hhigh : delta.toInt < 128 := delta.toInt_lt
      -- the reader rounds the quotient toward zero, and no sum is below zero
      have hscale : Int.tmod (scaleSum last delta.toInt) 256 = (last + delta.toInt + 256) % 256 :=
        Int.tmod_eq_emod_of_nonneg (by unfold scaleSum; omega)
      refine (Reads.se ⟨delta.toInt, by omega⟩).bind ?_
      dsimp only
      rw [hscale]
      refine ih ?_ _
      split <;> omega

/-- Every list begins with the scale 8. -/
theorem reads_list {size : Nat} (deltas : Vector Int8 size) :
    Reads (skipScalingList size 8 8) (ScalingMatrix.listBits deltas) () := by
  have hdeltas := reads_deltas (by decide : (0 : Int) ≤ 8) 8 deltas.toList
  rwa [Vector.length_toList] at hdeltas

/-- Lists of one size, in front of others. -/
theorem reads_scalingLists {size : Nat} (lists : List (Option (Vector Int8 size)))
    {sizes : List Nat} {bits : List Bool} (h : Reads (skipScalingLists sizes) bits ()) :
    Reads (skipScalingLists (List.replicate lists.length size ++ sizes))
      (lists.flatMap (optional ScalingMatrix.listBits) ++ bits) () := by
  induction lists with
  | nil => exact h
  | cons list rest ih =>
    -- one list in front of those that the induction is about, with the same flag as all of them
    rw [List.length_cons, List.replicate_succ, List.cons_append, skipScalingLists,
      List.flatMap_cons, List.append_assoc]
    exact Reads.optional list reads_list ih

/-- The lists of a matrix that are present are passed over, six small ones and the large ones. -/
theorem reads_scalingMatrix {large : Nat} (m : ScalingMatrix large) :
    Reads (skipScalingLists (List.replicate 6 16 ++ List.replicate large 64)) m.bits () := by
  have hnone : Reads (skipScalingLists []) [] () := Reads.pure ()
  have hlarge := reads_scalingLists m.lists8x8.toList hnone
  have hall := reads_scalingLists m.lists4x4.toList hlarge
  rwa [Vector.length_toList, Vector.length_toList, List.append_nil, List.append_nil] at hall

/-- The profiles that the reader knows are those of the standard. -/
theorem describesChroma_iff (profile : UInt8) :
    describesChroma profile.toNat = true ↔ profile ∈ AvcSyntax.highProfiles := by
  have hinjective : Function.Injective UInt8.toNat := fun _ _ => UInt8.toNat_inj.1
  -- the reader has them as numbers
  have hlist : describesChroma profile.toNat =
      (AvcSyntax.highProfiles.map UInt8.toNat).contains profile.toNat := rfl
  rw [hlist, List.contains_iff_mem, List.mem_map_of_injective hinjective]

/-- The chroma format is read, or taken as 4:2:0 where the profile does not describe it. -/
theorem reads_chroma (s : AvcSyntax) :
    Reads (chroma s.profile.toNat)
      (if s.profile ∈ AvcSyntax.highProfiles then s.chroma.bits else [])
      (s.format.idc.val, s.format.isSeparate) := by
  unfold chroma AvcSyntax.format
  by_cases hhigh : s.profile ∈ AvcSyntax.highProfiles
  · rw [if_pos ((describesChroma_iff _).2 hhigh), if_pos hhigh, if_pos hhigh]
    simp only [AvcChroma.bits, ChromaFormat.bits, List.append_assoc]
    refine (Reads.ue s.chroma.format.idc).bind ?_
    refine Reads.ifElse (fun _ => Reads.bit _) (fun hne => ?_) ?_
    · -- the reader takes planes to be together where the syntax has no flag
      rw [ChromaFormat.isSeparate_of_ne hne]
      exact Reads.pure false
    · refine (Reads.ue s.chroma.lumaDepth).bind <| (Reads.ue s.chroma.chromaDepth).bind <|
        Reads.cons s.chroma.isBypassed ?_
      rw [← List.append_nil (Bits.optional _ _)]
      exact Reads.optional s.chroma.scaling (fun m => reads_scalingMatrix m) (Reads.pure _)
  · rw [if_neg (mt (describesChroma_iff _).1 hhigh), if_neg hhigh, if_neg hhigh]
    exact Reads.pure _

theorem reads_offsets (offsets : List SignedGolomb) :
    Reads (skipSigned offsets.length) (offsets.flatMap fun offset => signedGolomb offset.val)
      () := by
  induction offsets with
  | nil => exact Reads.pure ()
  | cons offset rest ih => exact (Reads.se offset).bind ih

/-- Each of the three forms of the order of pictures is passed over. -/
theorem reads_order (order : PictureOrder) : Reads skipPictureOrder order.bits () := by
  cases order with
  | counted width => exact (Reads.ue 0).bind ((Reads.ue width).map fun _ => ())
  | cyclic alwaysZero nonReference topToBottom offsets length_lt =>
    simp only [PictureOrder.bits, List.append_assoc]
    exact (Reads.ue 1).bind <| Reads.cons alwaysZero <| (Reads.se nonReference).bind <|
      (Reads.se topToBottom).bind <| (Reads.ue ⟨offsets.length, length_lt⟩).bind <|
        reads_offsets offsets
  | decoded => exact (Reads.ue 2).last (Reads.pure ())

/-- Margins are counted in the units of the standard. -/
theorem cropUnits_eq (s : AvcSyntax) :
    cropUnits s.format.idc.val s.format.isSeparate s.fields = (s.cropUnitX, s.cropUnitY) := by
  unfold AvcSyntax.cropUnitX AvcSyntax.cropUnitY AvcSyntax.chromaArrayType
  cases s.format with
  | yuv444 separate => cases separate <;> rfl
  | _ => rfl

/-- The sizes modulo the range of their fields, as no number of the syntax keeps them in it. -/
theorem reads_elements (s : AvcSyntax) :
    Reads reader s.bits {
      profile := s.profile
      level := s.level
      chromaFormat := s.format.idc
      width := .ofNat s.width
      height := .ofNat s.height } := by
  simp only [AvcSyntax.bits, List.append_assoc]
  refine (Reads.byte s.profile).bind <| (Reads.skip (length_field 8 _)).bind <|
    (Reads.byte s.level).bind <| (Reads.ue s.id).bind <| (reads_chroma s).bind <|
    (Reads.ue s.frameNumberWidth).bind <| (reads_order s.order).bind <|
    (Reads.ue s.referenceFrames).bind <| Reads.cons s.gapsAllowed <|
    (Reads.ue s.columns).bind <| (Reads.ue s.rows).bind <| Reads.cons s.framesOnly <|
    Reads.ifThen (fun _ => Reads.bit s.isAdaptive) <| Reads.cons s.directInference <|
    (Margins.reads_cropping s.cropping).last ?_
  -- all elements are read; what is left is to compare the two ways to work out the sizes
  have hfields : (if s.framesOnly = true then 1 else 2) = s.fields := by
    unfold AvcSyntax.fields
    cases s.framesOnly <;> rfl
  dsimp only [Margins.offsets]
  rw [hfields, cropUnits_eq, UInt8.ofNat_toNat, UInt8.ofNat_toNat]
  exact Reads.pure _

/-- **A parameter set is read as it was written**, whatever bits follow it, if the size of the
picture fits its fields. -/
theorem decode_avcSyntax (s : AvcSyntax) (trailing : List Bool) (hwidth : s.width < 2 ^ 32)
    (hheight : s.height < 2 ^ 32) :
    decode (Emulation.insert (pack (s.bits ++ trailing))) = .ok {
      profile := s.profile
      level := s.level
      chromaFormat := s.format.idc
      width := .ofNatLT s.width hwidth
      height := .ofNatLT s.height hheight } := by
  rw [decode, Emulation.remove_insert, (reads_elements s).from?_pack, UInt32.ofNatLT_eq_ofNat,
    UInt32.ofNatLT_eq_ofNat]

/-- Planes coded apart, fields, a cycle of offsets, and a scaling list that ends at its second
delta. -/
theorem decode_avcSyntax_interlaced :
    let stopping : Vector Int8 16 := (Vector.replicate 16 0).set 1 (-8)
    let s : AvcSyntax := {
      profile := 244
      constraints := 0
      level := 40
      id := 0
      chroma := {
        format := .yuv444 true
        lumaDepth := 0
        chromaDepth := 0
        isBypassed := false
        scaling := some ⟨(Vector.replicate 6 none).set 0 (some stopping),
          (Vector.replicate 6 none).set 5 (some (Vector.replicate 64 (-128)))⟩ }
      frameNumberWidth := 0
      order := .cyclic false ⟨-1, by decide⟩ ⟨0, by decide⟩ [⟨2, by decide⟩, ⟨-3, by decide⟩]
        (by decide)
      referenceFrames := 4
      gapsAllowed := false
      columns := 119
      rows := 33
      framesOnly := false
      isAdaptive := true
      directInference := true
      cropping := some ⟨1, 1, 0, 4⟩ }
    decode (Emulation.insert (pack (s.bits ++ [true]))) = .ok {
      profile := 244
      level := 40
      chromaFormat := 3
      width := 1918
      height := 1080 } := by
  intro stopping s
  have hwidth : s.width = 1918 := by decide +kernel
  have hheight : s.height = 1080 := by decide +kernel
  rw [decode_avcSyntax s [true] (hwidth ▸ by decide) (hheight ▸ by decide)]
  simp only [UInt32.ofNatLT_eq_ofNat, hwidth, hheight]
  rfl

/-- High profile at 1920x1080, as an encoder writes it: no VUI parameters follow. -/
example :
    let s : AvcSyntax := {
      profile := 100
      constraints := 0
      level := 40
      id := 0
      chroma := {
        format := .yuv420
        lumaDepth := 0
        chromaDepth := 0
        isBypassed := false
        scaling := none }
      frameNumberWidth := 0
      order := .counted 2
      referenceFrames := 4
      gapsAllowed := false
      columns := 119
      rows := 67
      framesOnly := true
      isAdaptive := false
      directInference := true
      cropping := some ⟨0, 0, 0, 4⟩ }
    Emulation.insert (pack (s.bits ++ [false, true])) =
      [0x64, 0x00, 0x28, 0xac, 0xd9, 0x40, 0x78, 0x02, 0x27, 0xe5, 0x40] := by
  decide +kernel

end AvcSps

end LiveIngest.Codec
