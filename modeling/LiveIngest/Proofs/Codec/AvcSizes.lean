import LiveIngest.Proofs.Codec.AvcRegisters

/-!
# The size of an H.264 picture, and its 32 bits

What a parameter set says of its picture (`AvcPicture`), and the size by the cropping formula as a
number of any size (`AvcPicture.width`, `AvcPicture.height`). `AvcSps.decode` reports the size in 32
bits, and a peer can ask for more than that: 2^28 macroblocks in a row are 2^32 luma samples.

Main statement: `AvcSps.decode_onRegisters` — for every byte string, when reading it overflows, and
when the size is reported as it is.
-/

namespace LiveIngest.Codec

/-- What a parameter set says, as far as the picture size is worked out from it. -/
structure AvcPicture where
  profile : Nat
  level : Nat
  format : Nat
  separate : Bool
  /-- The width in macroblocks, less one. -/
  columns : Nat
  /-- The height in units of rows, less one. -/
  rows : Nat
  framesOnly : Bool
  left : Nat
  right : Nat
  top : Nat
  bottom : Nat
  deriving DecidableEq

namespace AvcPicture

/-- Fields for each unit of rows. -/
def fields (p : AvcPicture) : Nat :=
  if p.framesOnly then 1 else 2

def units (p : AvcPicture) : Nat × Nat :=
  AvcSps.cropUnits p.format p.separate p.fields

/-- Whole macroblocks less what is cropped, as a number of any size. -/
def width (p : AvcPicture) : Nat :=
  (p.columns + 1) * 16 - p.units.1 * (p.left + p.right)

def height (p : AvcPicture) : Nat :=
  p.fields * (p.rows + 1) * 16 - p.units.2 * (p.top + p.bottom)

/-- What is reported of a picture: the size in 32 bits. -/
def sps (p : AvcPicture) : AvcSps where
  profile := .ofNat p.profile
  level := .ofNat p.level
  chromaFormat := p.format
  width := .ofNat p.width
  height := .ofNat p.height

def reader : BitTake AvcPicture := do
  let profile ← BitTake.bits 8
  BitTake.skip 8
  let level ← BitTake.bits 8
  let _ ← BitTake.ue
  let (format, separate) ← AvcSps.chroma profile
  let _ ← BitTake.ue
  AvcSps.skipPictureOrder
  let _ ← BitTake.ue
  let _ ← BitTake.bit
  let columns ← BitTake.ue
  let rows ← BitTake.ue
  let framesOnly ← BitTake.bit
  if !framesOnly then
    let _ ← BitTake.bit
  let _ ← BitTake.bit
  let (left, right, top, bottom) ← AvcSps.cropping
  return { profile, level, format, separate, columns, rows, framesOnly, left, right, top, bottom }

def read (bytes : List UInt8) : Except Fault AvcPicture :=
  reader.from? (Emulation.remove bytes)

theorem reader_eq_bind_sps : AvcSps.reader = reader >>= fun p => pure p.sps := by
  unfold AvcSps.reader reader
  simp only [bind_assoc]
  refine bind_congr fun profile => bind_congr fun _ => bind_congr fun level => bind_congr fun _ =>
    bind_congr ?_
  rintro ⟨format, separate⟩
  refine bind_congr fun _ => bind_congr fun _ => bind_congr fun _ => bind_congr fun _ =>
    bind_congr fun columns => bind_congr fun rows => bind_congr fun framesOnly => ?_
  -- pictures that may be fields have one flag more
  split
  · simp only [bind_assoc]
    refine bind_congr fun _ => bind_congr fun _ => bind_congr ?_
    rintro ⟨left, right, top, bottom⟩
    rfl
  · simp only [bind_assoc]
    refine bind_congr fun _ => bind_congr ?_
    rintro ⟨left, right, top, bottom⟩
    rfl

/-- What is reported is what is said of the picture. -/
theorem exists_read_of_decode {bytes : List UInt8} {s : AvcSps} (h : AvcSps.decode bytes = .ok s) :
    ∃ p, read bytes = .ok p ∧ s = p.sps := by
  unfold AvcSps.decode BitTake.from? at h
  rw [reader_eq_bind_sps] at h
  split at h
  · rename_i hread
    obtain ⟨p, c, hp, hs⟩ := BitTake.exists_of_bind_ok hread
    cases h
    cases hs
    refine ⟨p, ?_, rfl⟩
    rw [read, BitTake.from?, hp]
  · cases h

end AvcPicture

namespace AvcSps

/-- A number is kept by 32 bits if it has no more. -/
theorem toNat_ofNat_iff (n : Nat) : (UInt32.ofNat n).toNat = n ↔ n < 2 ^ 32 := by
  rw [UInt32.toNat_ofNat']
  exact Nat.mod_eq_iff_lt (by decide)

/-- Reading on registers overflows exactly if something is out of range, and comes to the same as
`decode` otherwise. Each of the sizes that `decode` reports is the one of the picture exactly if
that one has 32 bits. -/
theorem decode_onRegisters (bytes : List UInt8) :
    (decodeOnRegisters bytes ≠ .error .overflow ↔ InRange bytes) ∧
    (InRange bytes → decodeOnRegisters bytes = (decode bytes).mapError .fault) ∧
    ∀ s, decode bytes = .ok s → ∃ p, AvcPicture.read bytes = .ok p ∧ s = p.sps ∧
      (s.width.toNat = p.width ↔ p.width < 2 ^ 32) ∧
      (s.height.toNat = p.height ↔ p.height < 2 ^ 32) := by
  have hsizes (s : AvcSps) (hs : decode bytes = .ok s) : ∃ p, AvcPicture.read bytes = .ok p ∧
      s = p.sps ∧ (s.width.toNat = p.width ↔ p.width < 2 ^ 32) ∧
      (s.height.toNat = p.height ↔ p.height < 2 ^ 32) := by
    obtain ⟨p, hp, rfl⟩ := AvcPicture.exists_read_of_decode hs
    exact ⟨p, hp, rfl, toNat_ofNat_iff p.width, toNat_ofNat_iff p.height⟩
  -- either all sums stay in their range, or one leaves it
  obtain ⟨hin, heq⟩ | ⟨hout, heq⟩ := decodeOnRegisters_cases bytes
  · have hfine : decodeOnRegisters bytes ≠ .error .overflow := by
      rw [heq]
      cases decode bytes <;> simp [Except.mapError]
    exact ⟨iff_of_true hfine hin, fun _ => heq, hsizes⟩
  · exact ⟨iff_of_false (not_not_intro heq) hout, fun hin => absurd hin hout, hsizes⟩

/-- One scaling list, which stops early, and a picture of 1920x1088 cut to 1080 rows. -/
theorem decode_onRegisters_cropped :
    let bytes : List UInt8 :=
      [0x64, 0x00, 0x28, 0xad, 0x94, 0x68, 0x0b, 0x40, 0x3c, 0x01, 0x13, 0xf2, 0xc0]
    let s : AvcSps := {
      profile := 100
      level := 40
      chromaFormat := 1
      width := 1920
      height := 1080 }
    let p : AvcPicture := {
      profile := 100
      level := 40
      format := 1
      separate := false
      columns := 119
      rows := 67
      framesOnly := true
      left := 0
      right := 0
      top := 0
      bottom := 4 }
    InRange bytes ∧ decodeOnRegisters bytes = .ok s ∧ AvcPicture.read bytes = .ok p ∧
      s.width.toNat = p.width ∧ s.height.toNat = p.height := by
  intro bytes s p
  -- no scaling list, and so nothing to overflow
  have hin : InRange bytes := .of_short (by decide) (by decide +kernel)
  have hdecode : decode bytes = .ok s := by decide +kernel
  have hread : AvcPicture.read bytes = .ok p := by decide +kernel
  obtain ⟨-, heq, hsizes⟩ := decode_onRegisters bytes
  obtain ⟨p', hp', -, hwidth, hheight⟩ := hsizes s hdecode
  obtain rfl : p = p' := Except.ok.inj (hread.symm.trans hp')
  have hrun : decodeOnRegisters bytes = .ok s := by rw [heq hin, hdecode]; rfl
  exact ⟨hin, hrun, hread, hwidth.2 (by decide), hheight.2 (by decide)⟩

/-- A delta that is in range and whose sum with the first scale is not, in a parameter set that is
read all the same where sums wrap around; and a picture of 2^32 samples across, reported as one of
none. -/
theorem decode_of_extremes :
    let far : List UInt8 := [0x64, 0x00, 0x1f, 0xad, 0x80, 0x00, 0x00, 0x03, 0x00, 0xff, 0xff, 0xff,
      0xf0, 0x01, 0x69, 0xe8]
    let wide : List UInt8 := [0x42, 0x00, 0x1f, 0xda, 0x00, 0x00, 0x03, 0x00, 0x04, 0x00, 0x00,
      0x03, 0x00, 0x3a]
    (decode far).isOk ∧ decodeOnRegisters far = .error .overflow ∧
    decode wide =
      .ok { profile := 66, level := 31, chromaFormat := 1, width := 0, height := 16 } ∧
    (AvcPicture.read wide).map AvcPicture.width = .ok (2 ^ 32) := by
  intro far wide
  refine ⟨by decide +kernel, ?_, by decide +kernel, by decide +kernel⟩
  have hsum : 2 ^ 31 ∈ scalingSums far := by decide +kernel
  obtain ⟨hin, -⟩ | ⟨-, hover⟩ := decodeOnRegisters_cases far
  · exact absurd (hin.sums _ hsum) (by decide)
  · exact hover

end AvcSps

end LiveIngest.Codec
