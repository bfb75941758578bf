import LiveIngest.Fault
import LiveIngest.Bits.Reader
import LiveIngest.Codec.Obu

/-!
# AV1 configuration

The `av1C` record: four bytes of flags and, behind them, whole units of which one is normally the
sequence header. The sequence header itself is read as far as the largest frame size.
-/

namespace LiveIngest.Codec

/-- The content of an `av1C` record. -/
structure Av1Record where
  profile : UInt8
  level : UInt8
  tier : Bool
  highBitDepth : Bool
  twelveBit : Bool
  monochrome : Bool
  subsamplingX : Bool
  subsamplingY : Bool
  samplePosition : UInt8
  /-- One less than the presentation delay, where one is given. -/
  delayMinusOne : Option UInt8
  obus : List UInt8
  deriving DecidableEq, Repr

namespace Av1Record

/-- The record of a stream that announced none. -/
def empty : Av1Record where
  profile := 0
  level := 0
  tier := false
  highBitDepth := false
  twelveBit := false
  monochrome := false
  subsamplingX := false
  subsamplingY := false
  samplePosition := 0
  delayMinusOne := none
  obus := []

def parse (bytes : List UInt8) : Except Fault Av1Record :=
  match bytes with
  | head :: profileByte :: flags :: delay :: obus =>
    if head &&& 0x80 = 0 then .error .markerBitMissing
    else if head &&& 0x7f ≠ 1 then .error (.recordVersion .av1C (head &&& 0x7f))
    else
      .ok {
        profile := profileByte >>> 5
        level := profileByte &&& 0x1f
        tier := flags &&& 0x80 != 0
        highBitDepth := flags &&& 0x40 != 0
        twelveBit := flags &&& 0x20 != 0
        monochrome := flags &&& 0x10 != 0
        subsamplingX := flags &&& 0x08 != 0
        subsamplingY := flags &&& 0x04 != 0
        samplePosition := flags &&& 0x03
        delayMinusOne := if delay &&& 0x10 != 0 then some (delay &&& 0x0f) else none
        obus }
  | _ => .error (.recordTooShort .av1C)

def flagsByte (r : Av1Record) : UInt8 :=
  (r.tier.toUInt8 <<< 7) ||| (r.highBitDepth.toUInt8 <<< 6) ||| (r.twelveBit.toUInt8 <<< 5) |||
    (r.monochrome.toUInt8 <<< 4) ||| (r.subsamplingX.toUInt8 <<< 3) |||
    (r.subsamplingY.toUInt8 <<< 2) ||| (r.samplePosition &&& 0x03)

def serialize (r : Av1Record) : List UInt8 :=
  let delay :=
    match r.delayMinusOne with
    | some delay => 0x10 ||| (delay &&& 0x0f)
    | none => 0
  0x81 :: ((r.profile <<< 5) ||| (r.level &&& 0x1f)) :: r.flagsByte :: delay :: r.obus

def size (r : Av1Record) : Nat :=
  4 + r.obus.length

def sequenceHeader? (r : Av1Record) : Option (List UInt8) :=
  Obu.findSequenceHeader? r.obus

end Av1Record

/-- A sequence header as far as the largest frame size. -/
structure Av1SequenceHeader where
  profile : UInt8
  stillPicture : Bool
  isReduced : Bool
  operatingPoints : Nat
  level : UInt8
  maxWidthMinusOne : Nat
  maxHeightMinusOne : Nat
  deriving DecidableEq, Repr

namespace Av1SequenceHeader

def width (h : Av1SequenceHeader) : Nat := h.maxWidthMinusOne + 1

def height (h : Av1SequenceHeader) : Nat := h.maxHeightMinusOne + 1

/-- The width of a decoder model's delays, where a decoder model is there. -/
def decoderModel : BitTake (Option Nat) := do
  if ← BitTake.bit then
    let width ← BitTake.bits 5
    BitTake.skip 42
    return some (width + 1)
  else
    return none

/-- Timing information; it may bring a decoder model. -/
def timing : BitTake (Option Nat) := do
  if ← BitTake.bit then
    BitTake.skip 64
    if ← BitTake.bit then
      let _ ← BitTake.uvlc
    decoderModel
  else
    return none

def operatingPoint (delayWidth : Option Nat) (displayDelay : Bool) : BitTake Nat := do
  BitTake.skip 12
  let level ← BitTake.bits 5
  if 7 < level then BitTake.skip 1
  match delayWidth with
  | some width =>
    if ← BitTake.bit then BitTake.skip (2 * width + 1)
  | none => pure ()
  if displayDelay then
    if ← BitTake.bit then BitTake.skip 4
  return level

/-- Pass over `n` operating points. -/
def skipOperatingPoints (delayWidth : Option Nat) (displayDelay : Bool) : (n : Nat) → BitTake Unit
  | 0 => return
  | n + 1 => do
    let _ ← operatingPoint delayWidth displayDelay
    skipOperatingPoints delayWidth displayDelay n

/-- The number of operating points and the level of the first. -/
def operatingPointsAndLevel (isReduced : Bool) : BitTake (Nat × Nat) := do
  if isReduced then
    return (1, ← BitTake.bits 5)
  else
    let delayWidth ← timing
    let displayDelay ← BitTake.bit
    let more ← BitTake.bits 5
    let level ← operatingPoint delayWidth displayDelay
    skipOperatingPoints delayWidth displayDelay more
    return (more + 1, level)

def reader : BitTake Av1SequenceHeader := do
  let profile ← BitTake.bits 3
  let stillPicture ← BitTake.bit
  let isReduced ← BitTake.bit
  let (operatingPoints, level) ← operatingPointsAndLevel isReduced
  let widthBits ← BitTake.bits 4
  let heightBits ← BitTake.bits 4
  let maxWidthMinusOne ← BitTake.bits (widthBits + 1)
  let maxHeightMinusOne ← BitTake.bits (heightBits + 1)
  return { profile := .ofNat profile, stillPicture, isReduced, operatingPoints,
           level := .ofNat level, maxWidthMinusOne, maxHeightMinusOne }

def parse (payload : List UInt8) : Except Fault Av1SequenceHeader :=
  reader.from? payload

end Av1SequenceHeader

end LiveIngest.Codec
