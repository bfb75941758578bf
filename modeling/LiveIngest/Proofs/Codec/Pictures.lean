import LiveIngest.Codec.AvcSps
import LiveIngest.Codec.HevcSps
import LiveIngest.Proofs.Bits.Reading

/-!
# Pictures in parameter sets

What the syntaxes of H.264 and of H.265 say alike about pictures: the sampling of chroma
(`ChromaFormat`), and how much is cut off at each side (`Margins`). Each comes with the bits that it
is written as.
-/

namespace LiveIngest.Codec

open Bits BitTake

/-- The sampling of chroma. Where nothing is subsampled, the three planes may be coded apart. -/
inductive ChromaFormat
  | monochrome
  | yuv420
  | yuv422
  | yuv444 (separate : Bool)

namespace ChromaFormat

/-- The number of a format. -/
def idc : ChromaFormat → Golomb
  | monochrome => 0
  | yuv420 => 1
  | yuv422 => 2
  | yuv444 _ => 3

/-- True if the planes are coded apart. -/
def isSeparate : ChromaFormat → Bool
  | yuv444 separate => separate
  | _ => false

def bits (f : ChromaFormat) : List Bool :=
  golomb f.idc ++ if f.idc.val = 3 then flag f.isSeparate else []

/-- Luma samples for each chroma sample, across: SubWidthC. -/
def subWidth : ChromaFormat → Nat
  | yuv420 | yuv422 => 2
  | monochrome | yuv444 _ => 1

/-- Luma samples for each chroma sample, down: SubHeightC. -/
def subHeight : ChromaFormat → Nat
  | yuv420 => 2
  | monochrome | yuv422 | yuv444 _ => 1

/-- Only pictures of the format 4:4:4 may have separate planes. -/
theorem isSeparate_of_ne {f : ChromaFormat} (h : f.idc.val ≠ 3) : f.isSeparate = false := by
  cases f with
  | yuv444 separate => exact absurd rfl h
  | _ => rfl

end ChromaFormat

/-- How much is cut off at each side. -/
structure Margins where
  left : Golomb
  right : Golomb
  top : Golomb
  bottom : Golomb

namespace Margins

def bits (m : Margins) : List Bool :=
  golomb m.left ++ golomb m.right ++ golomb m.top ++ golomb m.bottom

/-- Nothing is cut off. -/
def zero : Margins := ⟨0, 0, 0, 0⟩

/-- The margins in the order they are read. -/
def offsets (m : Margins) : Nat × Nat × Nat × Nat :=
  (m.left, m.right, m.top, m.bottom)

/-- The margins of an H.264 picture are read off their flag and their four numbers. -/
theorem reads_cropping (m : Option Margins) :
    Reads AvcSps.cropping (optional bits m) (m.getD zero).offsets := by
  cases m with
  | none => exact Reads.cons false (Reads.pure _)
  | some m =>
    show Reads AvcSps.cropping (flag true ++ m.bits) _
    refine Reads.cons true ?_
    rw [bits, List.append_assoc, List.append_assoc]
    exact (Reads.ue m.left).bind <| (Reads.ue m.right).bind <| (Reads.ue m.top).bind <|
      (Reads.ue m.bottom).map fun bottom => ((m.left : Nat), (m.right : Nat), (m.top : Nat), bottom)

/-- The margins of an H.265 picture stand in the same form. -/
theorem reads_window (m : Option Margins) :
    Reads HevcSps.window (optional bits m) (m.getD zero).offsets :=
  reads_cropping m

end Margins

end LiveIngest.Codec
