import LiveIngest.Codec.Av1
import LiveIngest.Proofs.Bits.Reading

/-!
# The syntax of AV1 sequence headers

The elements of sequence_header_obu() up to the largest frame size, as the AV1 specification has
them in 5.5 (`Av1Syntax`), and the bits they are written as (`Av1Syntax.bits`).

How long an operating point is hangs on the timing information in front of all of them: whether
there is a decoder model, and of how many bits its delays are. So the type of operating points has
that width in it (`OperatingPoint`), and each point is passed over by the same lemma
(`reads_operatingPoint`), of which the loop over them follows by induction.

Main statement: `parse_av1Syntax` — a sequence header is read as it was written.
-/

namespace LiveIngest.Codec

open Bits BitTake

/-! ### The elements -/

/-- decoder_model_info() -/
structure DecoderModel where
  /-- buffer_delay_length_minus_1 -/
  delayLength : BitVec 5
  unitsInDecodingTick : BitVec 32
  /-- buffer_removal_time_length_minus_1 -/
  removalTimeLength : BitVec 5
  /-- frame_presentation_time_length_minus_1 -/
  presentationTimeLength : BitVec 5

namespace DecoderModel

/-- The bits behind the length of delays. -/
def timeBits (m : DecoderModel) : List Bool :=
  field 32 m.unitsInDecodingTick.toNat ++ field 5 m.removalTimeLength.toNat ++
    field 5 m.presentationTimeLength.toNat

def bits (m : DecoderModel) : List Bool :=
  field 5 m.delayLength.toNat ++ m.timeBits

/-- Both numbers of a decoder model have 32 bits, and the lengths of delays 5 each. -/
theorem length_timeBits (m : DecoderModel) : m.timeBits.length = 42 := by
  simp [timeBits]

end DecoderModel

/-- timing_info(), and what it may bring. -/
structure TimingInfo where
  unitsInDisplayTick : BitVec 32
  timeScale : BitVec 32
  /-- num_ticks_per_picture_minus_1, where all pictures take equally long. -/
  ticksPerPicture : Option Uvlc
  decoderModel : Option DecoderModel

namespace TimingInfo

def bits (t : TimingInfo) : List Bool :=
  field 32 t.unitsInDisplayTick.toNat ++ field 32 t.timeScale.toNat ++
    optional Uvlc.bits t.ticksPerPicture ++ optional DecoderModel.bits t.decoderModel

/-- The number of bits of a delay, where there is a decoder model. -/
def delayWidth (t : TimingInfo) : Option Nat :=
  t.decoderModel.map fun m => m.delayLength.toNat + 1

end TimingInfo

/-- operating_parameters_info(), with delays of `width` bits. -/
structure OperatingParameters (width : Nat) where
  decoderDelay : BitVec width
  encoderDelay : BitVec width
  isLowDelay : Bool

namespace OperatingParameters

variable {width : Nat}

def bits (p : OperatingParameters width) : List Bool :=
  field width p.decoderDelay.toNat ++ field width p.encoderDelay.toNat ++ flag p.isLowDelay

theorem length_bits (p : OperatingParameters width) : p.bits.length = 2 * width + 1 := by
  simp only [bits, flag, List.length_append, length_field, List.length_singleton]
  omega

end OperatingParameters

/-- An operating point. `delayWidth` is the number of bits of a delay, where there is a decoder
model. -/
structure OperatingPoint (delayWidth : Option Nat) where
  idc : BitVec 12
  level : BitVec 5
  /-- Written above level 7. -/
  tier : Bool
  /-- Written if there is a decoder model. -/
  parameters : Option (OperatingParameters (delayWidth.getD 0))
  /-- initial_display_delay_minus_1, written if the sequence has display delays. -/
  displayDelay : Option (BitVec 4)

def OperatingPoint.bits {delayWidth : Option Nat} (hasDisplayDelays : Bool)
    (p : OperatingPoint delayWidth) : List Bool :=
  field 12 p.idc.toNat ++ field 5 p.level.toNat ++
    (if 7 < p.level.toNat then flag p.tier else []) ++
    (if delayWidth.isSome then optional OperatingParameters.bits p.parameters else []) ++
    (if hasDisplayDelays then optional (fun delay => field 4 delay.toNat) p.displayDelay else [])

/-- The operating points of a sequence, with the timing information that they depend on. -/
structure OperatingPoints where
  timing : Option TimingInfo
  hasDisplayDelays : Bool
  first : OperatingPoint (timing.bind TimingInfo.delayWidth)
  others : List (OperatingPoint (timing.bind TimingInfo.delayWidth))
  length_others : others.length ≤ 31

def OperatingPoints.bits (p : OperatingPoints) : List Bool :=
  optional TimingInfo.bits p.timing ++ flag p.hasDisplayDelays ++ field 5 p.others.length ++
    p.first.bits p.hasDisplayDelays ++ p.others.flatMap (OperatingPoint.bits p.hasDisplayDelays)

/-- What stands between the flags at the front and the frame size. -/
inductive Av1Points
  /-- A single point without anything but a level: reduced_still_picture_header. -/
  | reduced (level : BitVec 5)
  | full (points : OperatingPoints)

namespace Av1Points

def isReduced : Av1Points → Bool
  | reduced _ => true
  | full _ => false

def bits : Av1Points → List Bool
  | reduced level => field 5 level.toNat
  | full points => points.bits

/-- The number of operating points. -/
def count : Av1Points → Nat
  | reduced _ => 1
  | full points => points.others.length + 1

/-- The level of the first operating point. -/
def level : Av1Points → BitVec 5
  | reduced level => level
  | full points => points.first.level

end Av1Points

/-- The elements of a sequence header up to the largest frame size. -/
structure Av1Syntax where
  profile : BitVec 3
  stillPicture : Bool
  points : Av1Points
  /-- frame_width_bits_minus_1 -/
  widthBits : BitVec 4
  /-- frame_height_bits_minus_1 -/
  heightBits : BitVec 4
  maxWidthMinusOne : BitVec (widthBits.toNat + 1)
  maxHeightMinusOne : BitVec (heightBits.toNat + 1)

def Av1Syntax.bits (s : Av1Syntax) : List Bool :=
  field 3 s.profile.toNat ++ flag s.stillPicture ++ flag s.points.isReduced ++ s.points.bits ++
    field 4 s.widthBits.toNat ++ field 4 s.heightBits.toNat ++
    field (s.widthBits.toNat + 1) s.maxWidthMinusOne.toNat ++
    field (s.heightBits.toNat + 1) s.maxHeightMinusOne.toNat

namespace Av1Syntax

/-- The largest width of a frame. -/
def width (s : Av1Syntax) : Nat :=
  s.maxWidthMinusOne.toNat + 1

/-- The largest height of a frame. -/
def height (s : Av1Syntax) : Nat :=
  s.maxHeightMinusOne.toNat + 1

/-- What is kept of the elements. -/
def header (s : Av1Syntax) : Av1SequenceHeader where
  profile := .ofNat s.profile.toNat
  stillPicture := s.stillPicture
  isReduced := s.points.isReduced
  operatingPoints := s.points.count
  level := .ofNat s.points.level.toNat
  maxWidthMinusOne := s.maxWidthMinusOne.toNat
  maxHeightMinusOne := s.maxHeightMinusOne.toNat

end Av1Syntax

/-! ### What the reader makes of them -/

namespace Av1SequenceHeader

/-- A decoder model says how many bits a delay of an operating point has. -/
theorem reads_decoderModel (m : Option DecoderModel) :
    Reads decoderModel (optional DecoderModel.bits m)
      (m.map fun m => m.delayLength.toNat + 1) := by
  cases m with
  | none => exact Reads.cons false (Reads.pure none)
  | some m =>
    exact Reads.cons true <| (Reads.bitVec (by decide) m.delayLength).bind <|
      (Reads.skip m.length_timeBits).last (Reads.pure _)

/-- Timing tells this width if it comes with a decoder model. -/
theorem reads_timing (t : Option TimingInfo) :
    Reads timing (optional TimingInfo.bits t) (t.bind TimingInfo.delayWidth) := by
  cases t with
  | none => exact Reads.cons false (Reads.pure none)
  | some t =>
    -- the two counts are skipped as one field of 64 bits
    have hunits : (field 32 t.unitsInDisplayTick.toNat ++ field 32 t.timeScale.toNat).length =
        64 := by
      simp
    show Reads timing (flag true ++ t.bits) _
    refine Reads.cons true ?_
    rw [TimingInfo.bits, List.append_assoc]
    exact (Reads.skip hunits).bind <|
      Reads.optional t.ticksPerPicture Reads.uvlc (reads_decoderModel t.decoderModel)

/-- An operating point is passed over up to its end; its level is what is kept. -/
theorem reads_operatingPoint {delayWidth : Option Nat} (hasDisplayDelays : Bool)
    (p : OperatingPoint delayWidth) :
    Reads (operatingPoint delayWidth hasDisplayDelays) (p.bits hasDisplayDelays)
      p.level.toNat := by
  -- the end of a point is the same with and without a decoder model
  have hend : Reads
      (if hasDisplayDelays = true then
        BitTake.bit >>= fun flag =>
          if flag = true then skip 4 >>= fun _ => pure p.level.toNat else pure p.level.toNat
      else pure p.level.toNat)
      (if hasDisplayDelays then optional (fun delay => field 4 delay.toNat) p.displayDelay else [])
      p.level.toNat := by
    cases hasDisplayDelays with
    | false => exact Reads.pure _
    | true =>
      have hdelay := Reads.optional p.displayDelay
        (fun delay => Reads.skip (length_field 4 delay.toNat)) (Reads.pure p.level.toNat)
      rwa [List.append_nil] at hdelay
  simp only [OperatingPoint.bits, List.append_assoc]
  refine (Reads.skip (length_field 12 _)).bind <| (Reads.bitVec (by decide) p.level).bind <|
    Reads.ifThen (fun _ => Reads.skipBit p.tier) ?_
  cases delayWidth with
  | none => exact hend
  | some width => exact Reads.optional p.parameters (fun q => Reads.skip q.length_bits) hend

/-- The operating points behind the first one are passed over. -/
theorem reads_operatingPoints {delayWidth : Option Nat} (hasDisplayDelays : Bool)
    (points : List (OperatingPoint delayWidth)) :
    Reads (skipOperatingPoints delayWidth hasDisplayDelays points.length)
      (points.flatMap (OperatingPoint.bits hasDisplayDelays)) () := by
  induction points with
  | nil => exact Reads.pure ()
  | cons p rest ih => exact (reads_operatingPoint hasDisplayDelays p).bind ih

/-- What a header says of its operating points, in the reduced form or in full. -/
theorem reads_points (points : Av1Points) :
    Reads (operatingPointsAndLevel points.isReduced) points.bits
      (points.count, points.level.toNat) := by
  cases points with
  | reduced level => exact (Reads.bitVec (by decide) level).map fun level => (1, level)
  | full points =>
    -- one less than the number of points is written, which has five bits
    have hcount := Reads.field (by decide : 5 ≤ 32) points.others.length
    have hfits := points.length_others
    rw [Nat.mod_eq_of_lt (by omega)] at hcount
    simp only [Av1Points.bits, OperatingPoints.bits, List.append_assoc]
    exact (reads_timing points.timing).bind <| Reads.cons points.hasDisplayDelays <|
      hcount.bind <| (reads_operatingPoint points.hasDisplayDelays points.first).bind <|
      (reads_operatingPoints points.hasDisplayDelays points.others).last (Reads.pure _)

/-- All elements of a sequence header are read in order. -/
theorem reads_elements (s : Av1Syntax) : Reads reader s.bits s.header := by
  have hwidth : s.widthBits.toNat + 1 ≤ 32 := by omega
  have hheight : s.heightBits.toNat + 1 ≤ 32 := by omega
  simp only [Av1Syntax.bits, List.append_assoc]
  exact (Reads.bitVec (by decide) s.profile).bind <| Reads.cons s.stillPicture <|
    Reads.cons s.points.isReduced <| (reads_points s.points).bind <|
    (Reads.bitVec (by decide) s.widthBits).bind <| (Reads.bitVec (by decide) s.heightBits).bind <|
    (Reads.bitVec hwidth s.maxWidthMinusOne).bind <|
    (Reads.bitVec hheight s.maxHeightMinusOne).last (Reads.pure _)

/-- **A sequence header is read as it was written**, whatever bits follow it.

A code without a limit may begin with any number of zeros here. A reader that counts them in 32 bits
copies this one as long as there are fewer than 2 ^ 32 of them in a row
(`BitMachine.copies_uvlc`). -/
theorem parse_av1Syntax (s : Av1Syntax) (trailing : List Bool) :
    parse (pack (s.bits ++ trailing)) = .ok s.header ∧
      s.header.width = s.width ∧ s.header.height = s.height :=
  ⟨(reads_elements s).from?_pack trailing, rfl, rfl⟩

/-- 1280x720 with a decoder model and two operating points. -/
example :
    let timing : TimingInfo := {
      unitsInDisplayTick := 1
      timeScale := 30
      ticksPerPicture := none
      decoderModel := some ⟨9, 1, 4, 4⟩ }
    let point (idc : BitVec 12) : OperatingPoint (some 10) := {
      idc
      level := 4
      tier := false
      parameters := some ⟨5, 6, false⟩
      displayDelay := some 3 }
    let s : Av1Syntax := {
      profile := 0
      stillPicture := false
      points := .full ⟨some timing, true, point 257, [point 0], by decide⟩
      widthBits := 10
      heightBits := 9
      maxWidthMinusOne := 1279
      maxHeightMinusOne := 719 }
    pack (s.bits ++ [true]) =
      [0x04, 0, 0, 0, 0x04, 0, 0, 0, 0x79, 0x48, 0, 0, 0, 0x09, 0x09, 0x08, 0x80, 0x92, 0x02, 0x80,
        0xc9, 0x80, 0x01, 0x20, 0x28, 0x0c, 0x9d, 0x4c, 0xff, 0xb3, 0xe0] := by
  decide +kernel

end Av1SequenceHeader

end LiveIngest.Codec
