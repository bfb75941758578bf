import LiveIngest.Codec.Av1
import LiveIngest.Rtp.Video

/-!
# Packetizing AV1

An AV1 frame is a sequence of units (OBUs). An intra frame is sent with the sequence header of the
configuration record in front. Every unit but temporal delimiters is sent, cut into entries that fit
the payload limit. The one byte that an entry leads with tells the receiver whether the entry goes
on with a unit, whether the unit goes on behind it, and where a new sequence begins.

A frame is sent completely or not at all: one malformed unit drops it.
-/

namespace LiveIngest.Rtp

open Codec

/-- Cut a frame into its units. There is no answer when a unit is malformed or cut. -/
def splitObus (bytes : List UInt8) : Option (List (Obu × List UInt8)) :=
  match bytes with
  | [] => some []
  | first :: rest =>
    match _h : Obu.parse? (first :: rest) with
    | none => none
    | some o =>
      if (first :: rest).length < o.size then none
      else
        (splitObus ((first :: rest).drop o.size)).map
          (((o, (first :: rest).take o.size)) :: ·)
termination_by bytes.length
decreasing_by
  have := Obu.size_pos _h
  simp only [List.length_drop, List.length_cons]
  omega

namespace Av1

/-- The byte that an entry leads with: it goes on with a unit, the unit goes on behind it, it begins
a new sequence. Every entry holds one element. -/
def aggregationHeader (continues continued newSequence : Bool) : UInt8 :=
  0x10 ||| (if continues then 0x80 else 0) ||| (if continued then 0x40 else 0) |||
    (if newSequence then 0x08 else 0)

/-- Entries of at most `size` media bytes for `remaining` bytes of a unit from `offset` on. -/
def fragments (size : Nat) (isFirst newSequence : Bool) (offset remaining : Nat) : List Entry :=
  if _h : remaining = 0 then []
  else
    let length := min remaining (max size 1)
    ⟨offset, length, [aggregationHeader (!isFirst) (length < remaining) newSequence]⟩ ::
      fragments size false false (offset + length) (remaining - length)
termination_by remaining
decreasing_by omega

/-- The entries of units, given by offset and length. Only the first entry begins a sequence. -/
def entries (size : Nat) : (newSequence : Bool) → List (Nat × Nat) → List Entry
  | _, [] => []
  | newSequence, (offset, length) :: rest =>
    fragments size true newSequence offset length ++
      entries size (newSequence && length = 0) rest

/-- Where units begin that stand one behind the other from `offset` on. -/
def places (offset : Nat) : List (Obu × List UInt8) → List (Obu × Nat × Nat)
  | [] => []
  | (o, unit) :: rest => (o, offset, unit.length) :: places (offset + unit.length) rest

/-- The size of the largest frame, by a sequence header with its own header. -/
def dimensions (unit : List UInt8) : Option (Nat × Nat) := do
  let o ← Obu.parse? unit
  let payload ← o.payload? unit
  let header ← (Av1SequenceHeader.parse payload).toOption
  return (header.width, header.height)

def packetize (record : Av1Record) (limit : Nat) (tag : VideoTag) : Option VideoOutput := do
  let units ← splitObus tag.media
  let sequenceHeader := if tag.isKeyFrame then record.sequenceHeader? else none
  let front := sequenceHeader.getD []
  let frontPlace := sequenceHeader.toList.map fun unit => (0, unit.length)
  -- Temporal delimiters keep their place in the media, but get no entry.
  let sent := (places front.length units).filter fun (o, _) => o.type ≠ Obu.temporalDelimiter
  let size := (sequenceHeader.bind dimensions).getD (0, 0)
  return { VideoOutput.empty .av1 with
    isIntra := tag.isKeyFrame
    width := size.1
    height := size.2
    timestamp := tag.timestamp.toNat
    millis := tag.timestamp.toNat
    codecConfig := record.serialize
    body := {
      media := front ++ tag.media
      entries := entries (limit - 1) tag.isKeyFrame (frontPlace ++ sent.map (·.2)) } }

/-- AV1 as a video scheme. -/
def scheme : VideoScheme Av1Record where
  format := .av1
  empty := .empty
  parse := Av1Record.parse
  packetize := packetize

end Av1

end LiveIngest.Rtp
