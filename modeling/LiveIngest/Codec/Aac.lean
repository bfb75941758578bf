import LiveIngest.Bits.Reader

/-!
# AAC decoder configuration

The AudioSpecificConfig: object type, sampling rate and channels, an optional extension that
announces a higher rate or parametric stereo, and a few flags whose presence depends on the object
type. A configuration that ends before the flags is usable; the flags that are missing are off.
-/

namespace LiveIngest.Codec

def sampleRates : List Nat := [
  96000, 88200, 64000, 48000, 44100, 32000, 24000, 22050, 16000, 12000, 11025, 8000, 7350]

/-- The index that announces a rate in 24 bits. -/
def explicitRate : UInt8 := 0x0f

def typeSbr : UInt8 := 5

def typePs : UInt8 := 29

def typeLd : UInt8 := 23

/-- The object type of enhanced low delay coding. -/
def typeEld : UInt8 := 39

/-- A sampling rate as it is coded: an index and the rate it stands for, zero if it has none. -/
structure SamplingRate where
  index : UInt8
  rate : Nat
  deriving DecidableEq, Repr

/-- What an extension announces. -/
structure AacExtension where
  objectType : UInt8
  sampling : SamplingRate
  deriving DecidableEq, Repr

/-- The content of an AudioSpecificConfig. -/
structure AudioConfig where
  objectType : UInt8
  sampling : SamplingRate
  channelConfig : UInt8
  extension : Option AacExtension
  frameLengthFlag : Bool
  /-- The delay of the core coder, where the configuration depends on one. -/
  coreCoderDelay : Option UInt16
  extensionFlag : Bool
  deriving DecidableEq, Repr

/-- The reader of an object type; 31 is an escape to six more bits. -/
def readObjectType : BitTake UInt8 := do
  let type ← BitTake.bits 5
  if type = 31 then
    return .ofNat (32 + (← BitTake.bits 6))
  else
    return .ofNat type

def writeObjectType (type : UInt8) : List Bool :=
  if 31 ≤ type then Bits.field 5 31 ++ Bits.field 6 (type - 32).toNat
  else Bits.field 5 type.toNat

namespace SamplingRate

def read : BitTake SamplingRate := do
  let index ← BitTake.bits 4
  if index = explicitRate.toNat then
    return ⟨explicitRate, ← BitTake.bits 24⟩
  else
    return ⟨.ofNat index, sampleRates.getD index 0⟩

def write (s : SamplingRate) : List Bool :=
  Bits.field 4 s.index.toNat ++ if s.index = explicitRate then Bits.field 24 s.rate else []

end SamplingRate

/-- The flags at the end of a configuration. -/
structure AacFlags where
  frameLength : Bool
  coreCoderDelay : Option UInt16
  extension : Bool

/-- True for the object types whose configuration ends with the general flags. -/
def hasGeneralFlags (type : UInt8) : Bool :=
  [1, 2, 3, 4, 6, 7, 17, 19, 20, 21, 22, 23].contains type

/-- The reader of the flags that an object type has. Flags that are cut off are off, and a delay
that is cut off is zero. -/
def readFlags (type : UInt8) : BitTake AacFlags := do
  if hasGeneralFlags type then
    let frameLength ← BitTake.bit.orElse false
    let coreCoderDelay ←
      if ← BitTake.bit.orElse false then
        let delay ← (BitTake.bits 14).orElse 0
        pure (some (UInt16.ofNat delay))
      else pure none
    let extension ← BitTake.bit.orElse false
    return { frameLength, coreCoderDelay, extension }
  else if type = typeEld then
    return { frameLength := ← BitTake.bit.orElse false, coreCoderDelay := none, extension := false }
  else
    return { frameLength := false, coreCoderDelay := none, extension := false }

namespace AudioConfig

/-- The bits of the flags that the object type has. -/
def writeFlags (c : AudioConfig) : List Bool :=
  if hasGeneralFlags c.objectType then
    Bits.flag c.frameLengthFlag ++
      (match c.coreCoderDelay with
        | some delay => Bits.flag true ++ Bits.field 14 delay.toNat
        | none => Bits.flag false) ++
      Bits.flag c.extensionFlag
  else if c.objectType = typeEld then Bits.flag c.frameLengthFlag
  else []

/-- The reader of an extension: the rate it announces. The type that announced it came first. -/
def readExtension (type : UInt8) : BitTake (Option AacExtension) := do
  if type = typeSbr ∨ type = typePs then
    return some ⟨type, ← SamplingRate.read⟩
  else
    return none

def reader : BitTake AudioConfig := do
  let type ← readObjectType
  let sampling ← SamplingRate.read
  let channels ← BitTake.bits 4
  let extension ← readExtension type
  let objectType ← if extension.isSome then readObjectType else pure type
  let flags ← readFlags objectType
  return { objectType, sampling, channelConfig := .ofNat channels, extension,
           frameLengthFlag := flags.frameLength, coreCoderDelay := flags.coreCoderDelay,
           extensionFlag := flags.extension }

/-- Read a configuration, of at least two bytes. -/
def decode (bytes : List UInt8) : Except Fault AudioConfig :=
  if bytes.length < 2 then .error .audioConfigTooShort else reader.from? bytes

def writeBits (c : AudioConfig) : List Bool :=
  let channels := Bits.field 4 c.channelConfig.toNat
  match c.extension with
  | some e =>
    writeObjectType e.objectType ++ c.sampling.write ++ channels ++ e.sampling.write ++
      writeObjectType c.objectType ++ c.writeFlags
  | none => writeObjectType c.objectType ++ c.sampling.write ++ channels ++ c.writeFlags

/-- The bytes of a configuration, filled up with zero bits. -/
def serialize (c : AudioConfig) : List UInt8 :=
  Bits.pack c.writeBits

def size (c : AudioConfig) : Nat :=
  c.serialize.length

/-- The number of channels; only the seventh configuration is not its own number. -/
def channels (c : AudioConfig) : UInt8 :=
  if c.channelConfig = 7 then 8 else c.channelConfig

def frameLength (c : AudioConfig) : Nat :=
  if c.objectType = typeLd ∨ c.objectType = typeEld then
    if c.frameLengthFlag then 480 else 512
  else if c.frameLengthFlag then 960 else 1024

end AudioConfig

end LiveIngest.Codec
