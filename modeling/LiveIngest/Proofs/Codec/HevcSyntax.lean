import LiveIngest.Proofs.Bits.Emulation
import LiveIngest.Proofs.Codec.Pictures

/-!
# The syntax of H.265 sequence parameter sets

The elements of seq_parameter_set_rbsp() up to the conformance window, as ITU-T H.265 has them in
7.3.2.2 and, for profile_tier_level(), in 7.3.3 (`HevcSyntax`), the bits they are written as
(`HevcSyntax.bits`), and the size of the picture inside the window.

A decoder passes over most of profile_tier_level(): over the profiles and levels of the sub-layers,
each of which is there or not, and in front of them over bits that fill up their flags to eight
pairs, unless there are no sub-layers. The lemmas about the parts of the reader say that it passes
over exactly that (`reads_subLayerFlags`, `reads_subLayers`).

Main statement: `decode_hevcSyntax` — a parameter set is read as it was written.
-/

namespace LiveIngest.Codec

open Bits BitTake

/-- A profile with its flags, of 88 bits. -/
structure HevcProfile where
  space : BitVec 2
  tier : Bool
  idc : BitVec 5
  compatibility : BitVec 32
  /-- The progressive and interlaced source flags, the non-packed and the frame-only constraint. -/
  sources : BitVec 4
  /-- Constraint flags and reserved bits, whose meaning hangs on the profile. -/
  constraints : BitVec 43
  /-- general_inbld_flag or a reserved bit. -/
  inbld : Bool

namespace HevcProfile

/-- The bits behind the profile number. -/
def flagBits (p : HevcProfile) : List Bool :=
  field 32 p.compatibility.toNat ++ field 4 p.sources.toNat ++ field 43 p.constraints.toNat ++
    flag p.inbld

def bits (p : HevcProfile) : List Bool :=
  field 2 p.space.toNat ++ flag p.tier ++ field 5 p.idc.toNat ++ p.flagBits

theorem length_flagBits (p : HevcProfile) : p.flagBits.length = 80 := by
  simp [flagBits, flag]

/-- A profile takes eleven bytes, which is what a sub-layer has if its profile is present. -/
theorem length_bits (p : HevcProfile) : p.bits.length = 88 := by
  simp [bits, flag, length_flagBits]

end HevcProfile

/-- A sub-layer below the highest one. -/
structure SubLayer where
  profile : Option HevcProfile
  level : Option UInt8

namespace SubLayer

/-- What is there of a sub-layer. -/
def presence (l : SubLayer) : Bool × Bool :=
  (l.profile.isSome, l.level.isSome)

def presenceBits (l : SubLayer) : List Bool :=
  flag l.profile.isSome ++ flag l.level.isSome

def bits (l : SubLayer) : List Bool :=
  present HevcProfile.bits l.profile ++ present (fun level => field 8 level.toNat) l.level

end SubLayer

/-- The elements of a sequence parameter set up to the conformance window. -/
structure HevcSyntax where
  videoParameterSet : BitVec 4
  /-- The sub-layers below the highest one. -/
  subLayers : List SubLayer
  length_subLayers : subLayers.length ≤ 6
  temporalNesting : Bool
  profile : HevcProfile
  level : UInt8
  /-- Two bits for each sub-layer that there is not, written if there are any. -/
  reserved : BitVec (2 * (8 - subLayers.length))
  id : Golomb
  format : ChromaFormat
  codedWidth : Golomb
  codedHeight : Golomb
  window : Option Margins

namespace HevcSyntax

/-- profile_tier_level() -/
def profileBits (s : HevcSyntax) : List Bool :=
  let reserved := field (2 * (8 - s.subLayers.length)) s.reserved.toNat
  s.profile.bits ++ field 8 s.level.toNat ++ s.subLayers.flatMap SubLayer.presenceBits ++
    (if 0 < s.subLayers.length then reserved else []) ++ s.subLayers.flatMap SubLayer.bits

def bits (s : HevcSyntax) : List Bool :=
  field 4 s.videoParameterSet.toNat ++ field 3 s.subLayers.length ++ flag s.temporalNesting ++
    s.profileBits ++ golomb s.id ++ s.format.bits ++ golomb s.codedWidth ++ golomb s.codedHeight ++
    optional Margins.bits s.window

/-- The margins around the window, which are nothing where it is not written. -/
def margins (s : HevcSyntax) : Margins :=
  s.window.getD .zero

/-- The width of the window in luma samples, which is not less than nothing. -/
def width (s : HevcSyntax) : Nat :=
  s.codedWidth.val - s.format.subWidth * (s.margins.left.val + s.margins.right.val)

/-- The height of the window in luma samples, which is not less than nothing. -/
def height (s : HevcSyntax) : Nat :=
  s.codedHeight.val - s.format.subHeight * (s.margins.top.val + s.margins.bottom.val)

/-- The width that is shown fits 32 bits, since the margins only take away from it. -/
theorem width_lt (s : HevcSyntax) : s.width < 2 ^ 32 := by
  unfold width
  omega

theorem height_lt (s : HevcSyntax) : s.height < 2 ^ 32 := by
  unfold height
  omega

end HevcSyntax

/-! ### What the reader makes of them -/

namespace HevcSps

/-- The flags of all sub-layers stand before what they announce. -/
theorem reads_subLayerFlags (layers : List SubLayer) :
    Reads (subLayerFlags layers.length) (layers.flatMap SubLayer.presenceBits)
      (layers.map SubLayer.presence) := by
  induction layers with
  | nil => exact Reads.pure []
  | cons layer rest ih =>
    rw [List.flatMap_cons, SubLayer.presenceBits, List.append_assoc]
    exact Reads.cons _ <| Reads.cons _ <| ih.map fun presences => layer.presence :: presences

/-- What the flags announce is passed over, sub-layer by sub-layer. -/
theorem reads_subLayers (layers : List SubLayer) :
    Reads (skipSubLayers (layers.map SubLayer.presence)) (layers.flatMap SubLayer.bits) () := by
  induction layers with
  | nil => exact Reads.pure ()
  | cons layer rest ih =>
    rw [List.flatMap_cons, SubLayer.bits, List.append_assoc, List.map_cons]
    exact Reads.present layer.profile (fun p => Reads.skip p.length_bits) <|
      Reads.present layer.level (fun level => Reads.skip (length_field 8 _)) ih

/-- Margins are counted in units of the chroma samples of the format. -/
theorem chromaUnits_eq (f : ChromaFormat) :
    chromaUnits f.idc.val = (f.subWidth, f.subHeight) := by
  cases f <;> rfl

/-- The number of sub-layers fits its three bits. -/
theorem reads_length_subLayers (s : HevcSyntax) :
    Reads (BitTake.bits 3) (field 3 s.subLayers.length) s.subLayers.length := by
  have hcount := Reads.field (by decide : 3 ≤ 32) s.subLayers.length
  have hfits := s.length_subLayers
  rwa [Nat.mod_eq_of_lt (by omega)] at hcount

/-- All elements of a parameter set are read in order. -/
theorem reads_elements (s : HevcSyntax) :
    Reads reader s.bits {
      profile := .ofNat s.profile.idc.toNat
      level := s.level
      chromaFormat := s.format.idc
      width := .ofNat s.width
      height := .ofNat s.height } := by
  simp only [HevcSyntax.bits, HevcSyntax.profileBits, HevcProfile.bits, ChromaFormat.bits,
    List.append_assoc]
  -- the profile space and the tier are passed over in one go
  have hspace : (field 2 s.profile.space.toNat ++ flag s.profile.tier).length = 3 := rfl
  rw [← List.append_assoc (field 2 _) (flag _)]
  refine (Reads.skip (length_field 4 _)).bind <| (reads_length_subLayers s).bind <|
    (Reads.skipBit s.temporalNesting).bind <| (Reads.skip hspace).bind <|
    (Reads.bitVec (by decide) s.profile.idc).bind <|
    (Reads.skip s.profile.length_flagBits).bind <| (Reads.byte s.level).bind <|
    (reads_subLayerFlags s.subLayers).bind <|
    -- the pairs that fill up eight, whose number hangs on that of the sub-layers
    Reads.ifThen (fun _ => Reads.skip (length_field _ _)) <|
    (reads_subLayers s.subLayers).bind <| (Reads.ue s.id).bind <| (Reads.ue s.format.idc).bind <|
    Reads.ifThen (fun _ => Reads.bit s.format.isSeparate) <| (Reads.ue s.codedWidth).bind <|
    (Reads.ue s.codedHeight).bind <| (Margins.reads_window s.window).last ?_
  dsimp only [Margins.offsets]
  rw [chromaUnits_eq, UInt8.ofNat_toNat]
  exact Reads.pure _

/-- **A parameter set is read as it was written**, whatever bits follow it. -/
theorem decode_hevcSyntax (s : HevcSyntax) (trailing : List Bool) :
    decode (Emulation.insert (pack (s.bits ++ trailing))) = .ok {
      profile := .ofNat s.profile.idc.toNat
      level := s.level
      chromaFormat := s.format.idc
      width := .ofNatLT s.width s.width_lt
      height := .ofNatLT s.height s.height_lt } := by
  rw [decode, Emulation.remove_insert, (reads_elements s).from?_pack, UInt32.ofNatLT_eq_ofNat,
    UInt32.ofNatLT_eq_ofNat]

/-- Main profile at 1920x1080, before bytes are inserted. -/
example :
    let s : HevcSyntax := {
      videoParameterSet := 0
      subLayers := []
      length_subLayers := by decide
      temporalNesting := true
      profile := {
        space := 0
        tier := false
        idc := 1
        compatibility := 0x60000000
        sources := 0
        constraints := 0
        inbld := false }
      level := 120
      reserved := 0
      id := 0
      format := .yuv420
      codedWidth := 1920
      codedHeight := 1088
      window := some ⟨0, 0, 0, 4⟩ }
    pack (s.bits ++ [true]) =
      [0x01, 0x01, 0x60, 0, 0, 0, 0, 0, 0, 0, 0, 0, 0x78, 0xa0, 0x03, 0xc0, 0x80, 0x11, 0x07,
        0xcb] := by
  decide +kernel

end HevcSps

end LiveIngest.Codec
