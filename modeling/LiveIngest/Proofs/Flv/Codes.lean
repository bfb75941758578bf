import LiveIngest.Flv.Tag
import LiveIngest.Proofs.Bytes.Endian
import LiveIngest.Proofs.Bytes.Masks

/-!
# Codes in tag headers

A tag keeps what its header says under names, and is written from them. No code is lost that way:
every number has a name that is written as the same number, known or not. The first byte of a header
is therefore written as it was read, in each of its three forms (`firstByte_audio`,
`firstByte_legacy`, `firstByte_extended`), and so is a composition time (`signed24_asSigned`).
-/

namespace LiveIngest

/-! ### Names and numbers -/

/-- A frame type keeps the bits that it was read from. -/
theorem FrameType.bits_ofBits (bits : UInt8) : (FrameType.ofBits bits).bits = bits := by
  unfold ofBits
  split <;> rfl

/-- So does the type of an H.264 packet, also where it is not known. -/
theorem AvcPacketType.code_ofCode (code : UInt8) : (AvcPacketType.ofCode code).code = code := by
  unfold ofCode
  split <;> rfl

theorem AacPacketType.code_ofCode (code : UInt8) : (AacPacketType.ofCode code).code = code := by
  unfold ofCode
  split <;> rfl

/-- A packet type has four bits. -/
theorem ExtendedPacketType.code_ofCode (code : UInt8) :
    (ExtendedPacketType.ofCode code).code = code &&& 0x0f := by
  unfold ofCode
  split <;> rfl

/-- The number of a codec has four bits. -/
theorem VideoCodec.id_ofId (id : UInt8) : (VideoCodec.ofId id).id = id &&& 0x0f := by
  unfold ofId
  split <;> rfl

/-- Only four bits of an audio codec are kept. -/
theorem AudioCodec.id_ofId (id : UInt8) : (AudioCodec.ofId id).id = id &&& 0x0f := by
  unfold ofId
  split <;> rfl

/-- Only two bits of a rate are kept. -/
theorem SoundRate.bits_ofBits (bits : UInt8) : (SoundRate.ofBits bits).bits = bits &&& 0x03 := by
  -- the two bits are seen one by one
  have hvalues : bits &&& 0x03 = 0 ∨ bits &&& 0x03 = 1 ∨ bits &&& 0x03 = 2 ∨ bits &&& 0x03 = 3 := by
    have hsplit : (bits &&& 0x01) ||| (bits &&& 0x02) = bits &&& 0x03 :=
      Bytes.and_or_and bits 0x01 0x02
    rw [← hsplit]
    rcases Bytes.flag_cases (m := 0x01) (i := 0) rfl bits with hlow | hlow <;>
      rcases Bytes.flag_cases (m := 0x02) (i := 1) rfl bits with hhigh | hhigh <;>
      rw [hlow, hhigh] <;> decide
  unfold ofBits
  rcases hvalues with h | h | h | h <;> rw [h] <;> rfl

theorem AudioCodec.ofId_eq_aac_iff (id : UInt8) : AudioCodec.ofId id = .aac ↔ id = 10 := by
  unfold ofId
  split <;> simp_all

/-- One number stands for H.264. -/
theorem VideoCodec.ofId_eq_avc_iff (id : UInt8) : VideoCodec.ofId id = .avc ↔ id = 7 := by
  unfold ofId
  split <;> simp_all

/-- One code announces a composition time. -/
theorem ExtendedPacketType.ofCode_eq_codedFrames_iff (code : UInt8) :
    ExtendedPacketType.ofCode code = .codedFrames ↔ code = 1 := by
  unfold ofCode
  split <;> simp_all

/-! ### First bytes -/

/-- **The first byte of an audio header** is written as it was read. -/
theorem firstByte_audio (b : UInt8) :
    ((AudioCodec.ofId (b >>> 4)).id <<< 4) ||| ((SoundRate.ofBits (b >>> 2)).bits <<< 2) |||
        ((b &&& 0x02 != 0).toUInt8 <<< 1) ||| (b &&& 0x01 != 0).toUInt8 = b := by
  have hstereo : (b &&& 0x01 != 0).toUInt8 = b &&& 0x01 :=
    UInt8.shiftLeft_zero.symm.trans (Bytes.flag_shiftLeft (i := 0) rfl b)
  rw [AudioCodec.id_ofId, SoundRate.bits_ofBits, Bytes.field_shiftLeft, Bytes.field_shiftLeft,
    Bytes.flag_shiftLeft (m := 0x02) (i := 1) rfl, hstereo, Bytes.and_or_and, Bytes.and_or_and,
    Bytes.and_or_and]
  exact Bytes.and_all b

/-- **The first byte of a legacy video header** is written as it was read. -/
theorem firstByte_legacy {b : UInt8} (h : b &&& 0x80 = 0) :
    ((FrameType.ofBits (b >>> 4)).bits &&& 0x07) <<< 4 ||| (VideoCodec.ofId (b &&& 0x0f)).id =
      b := by
  rw [FrameType.bits_ofBits, VideoCodec.id_ofId, Bytes.field_shiftLeft, Bytes.and_and_of_within rfl]
  calc (b &&& 0x70) ||| (b &&& 0x0f)
      = (b &&& 0x80) ||| ((b &&& 0x70) ||| (b &&& 0x0f)) := by rw [h, UInt8.zero_or]
    _ = b &&& 0xff := by
      rw [Bytes.and_or_and, Bytes.and_or_and]
      rfl
    _ = b := Bytes.and_all b

/-- **The first byte of an extended video header** is written as it was read. -/
theorem firstByte_extended {b : UInt8} (h : b &&& 0x80 ≠ 0) :
    (0x80 : UInt8) ||| ((FrameType.ofBits ((b >>> 4) &&& 0x07)).bits &&& 0x07) <<< 4 |||
      (ExtendedPacketType.ofCode (b &&& 0x0f)).code = b := by
  have hflag : b &&& 0x80 = 0x80 := (Bytes.flag_cases (i := 7) rfl b).resolve_left h
  rw [FrameType.bits_ofBits, ExtendedPacketType.code_ofCode, Bytes.and_and_of_within rfl,
    Bytes.and_and_of_within rfl, Bytes.field_shiftLeft]
  calc 0x80 ||| (b &&& 0x70) ||| (b &&& 0x0f)
      = (b &&& 0x80) ||| (b &&& 0x70) ||| (b &&& 0x0f) := by rw [hflag]
    _ = b &&& 0xff := by
      rw [Bytes.and_or_and, Bytes.and_or_and]
      rfl
    _ = b := Bytes.and_all b

/-! ### Composition times -/

/-- **A composition time** is written as it was read, below zero as well. -/
theorem signed24_asSigned (a b c : UInt8) :
    Buffer.signed24 (Bytes.asSigned 3 (Bytes.ofBigEndian [a, b, c])) = [a, b, c] := by
  have hlt : Bytes.ofBigEndian [a, b, c] < 0x1000000 := by
    simpa using Bytes.ofBigEndian_lt [a, b, c]
  have hrange : (1 <<< (8 * 3) : Nat) = 0x1000000 := rfl
  -- the value is in the range of the field, so that nothing is clamped
  have hfield : Bytes.asUnsigned 3
      (max (-0x800000) (min (Bytes.asSigned 3 (Bytes.ofBigEndian [a, b, c])) 0x7fffff)) =
        Bytes.ofBigEndian [a, b, c] := by
    unfold Bytes.asUnsigned Bytes.asSigned
    rw [hrange]
    generalize Bytes.ofBigEndian [a, b, c] = n at hlt
    rw [Int.bmod_def]
    split <;> omega
  unfold Buffer.signed24
  rw [hfield]
  exact Bytes.bigEndian_ofBigEndian [a, b, c]

end LiveIngest
