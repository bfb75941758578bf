import LiveIngest.Codec.Aac
import LiveIngest.Proofs.Bits.Taking

/-!
# Audio configurations, written again

An AudioSpecificConfig is read field by field, and where it ends early the flags that are missing
are off (`readFlags`). Its writer has the fields in another order than the structure: with an
extension, the type that comes first is that of the extension.

Each part of the configuration took the bits that are written of it (`took_objectType`,
`SamplingRate.took`, `AacCore.took`, `took_wholeFlags`). This needs the flags to be whole. Where
they are cut off, something else holds that is enough to read the same again: what the lenient
reader falls back on are values that could have been read (`reads_wholeFlags`).

Main statement: `AudioConfig.decode_serialize`.
-/

namespace LiveIngest.Codec

open Bits BitTake

variable {c c' : BitCursor}

/-! ### Fields -/

theorem toNat_ofNat_of_bits {w n : Nat} (hw : w ≤ 8) (h : n < 2 ^ w) : (UInt8.ofNat n).toNat = n :=
  UInt8.toNat_ofNat_of_lt' (lt_of_lt_of_le h (Nat.pow_le_pow_right Nat.two_pos hw))

/-- An escaped type is 32 at least, and is written with its escape. -/
theorem took_objectType {type : UInt8} (h : readObjectType c = .ok type c') :
    Took readObjectType (writeObjectType type) type c c' := by
  obtain ⟨short, c₁, hshort, h⟩ := exists_of_bind_ok h
  have hlt := bits_lt hshort
  split at h
  · rename_i hescape
    obtain ⟨long, c₂, hlong, h⟩ := exists_of_bind_ok h
    cases h
    have hltLong := bits_lt hlong
    have htype : (UInt8.ofNat (32 + long)).toNat = 32 + long :=
      toNat_ofNat_of_bits (w := 7) (by decide) (by omega)
    -- the escape is written for every type from 31 on, as it was read
    have hle : (31 : UInt8) ≤ .ofNat (32 + long) := by
      rw [UInt8.le_iff_toNat_le, htype]
      exact Nat.le_add_right_of_le (by decide)
    have hrest : (UInt8.ofNat (32 + long) - 32).toNat = long := by
      have hbase : (32 : UInt8) ≤ .ofNat (32 + long) := by
        rw [UInt8.le_iff_toNat_le, htype]
        exact Nat.le_add_right 32 long
      rw [UInt8.toNat_sub_of_le _ _ hbase, htype]
      exact Nat.add_sub_cancel_left 32 long
    rw [writeObjectType, if_pos hle, hrest]
    subst hescape
    exact (took_bits hshort).bind ((took_bits hlong).map _)
  · rename_i hplain
    cases h
    -- five bits below the escape are the type
    have htype := toNat_ofNat_of_bits (by decide) hlt
    have hle : ¬(31 : UInt8) ≤ .ofNat short := by
      rw [UInt8.le_iff_toNat_le, htype]
      intro hle
      change 31 ≤ short at hle
      omega
    rw [writeObjectType, if_neg hle, htype, ← List.append_nil (field 5 short)]
    refine (took_bits hshort).bind ?_
    rw [if_neg hplain]
    exact Took.pure _ _

/-- A sampling rate takes an index, and 24 bits more where it is given in full. -/
theorem SamplingRate.took {s : SamplingRate} (h : read c = .ok s c') :
    Took read s.write s c c' := by
  obtain ⟨index, c₁, hindex, h⟩ := exists_of_bind_ok h
  have hlt := bits_lt hindex
  split at h
  · rename_i hexplicit
    obtain ⟨rate, c₂, hrate, h⟩ := exists_of_bind_ok h
    cases h
    -- the rate itself follows the escape
    subst hexplicit
    rw [SamplingRate.write, if_pos rfl]
    exact (took_bits hindex).bind ((took_bits hrate).map _)
  · rename_i hlisted
    cases h
    have hnumber := toNat_ofNat_of_bits (by decide) hlt
    have hindex' : UInt8.ofNat index ≠ explicitRate := fun heq => hlisted (by rw [← heq, hnumber])
    rw [SamplingRate.write, if_neg hindex', hnumber]
    refine (took_bits hindex).bind ?_
    rw [if_neg hlisted]
    exact Took.pure _ _

/-! ### The core fields -/

/-- What comes before the flags of a configuration. -/
structure AacCore where
  objectType : UInt8
  sampling : SamplingRate
  channelConfig : UInt8
  extension : Option AacExtension

namespace AacCore

def read : BitTake AacCore := do
  let type ← readObjectType
  let sampling ← SamplingRate.read
  let channels ← BitTake.bits 4
  let extension ← AudioConfig.readExtension type
  let objectType ← if extension.isSome then readObjectType else pure type
  return { objectType, sampling, channelConfig := .ofNat channels, extension }

/-- The type that comes first is the one of the extension, if there is one. -/
def write (core : AacCore) : List Bool :=
  match core.extension with
  | some e =>
    writeObjectType e.objectType ++ (core.sampling.write ++ (field 4 core.channelConfig.toNat ++
      (e.sampling.write ++ writeObjectType core.objectType)))
  | none =>
    writeObjectType core.objectType ++ (core.sampling.write ++ field 4 core.channelConfig.toNat)

/-- The fields up to the channels, and those of an extension. -/
theorem took {core : AacCore} (h : read c = .ok core c') : Took read core.write core c c' := by
  obtain ⟨type, c₁, htype, h⟩ := exists_of_bind_ok h
  obtain ⟨sampling, c₂, hsampling, h⟩ := exists_of_bind_ok h
  obtain ⟨channels, c₃, hchannels, h⟩ := exists_of_bind_ok h
  obtain ⟨extension, c₄, hextension, h⟩ := exists_of_bind_ok h
  have hnumber := toNat_ofNat_of_bits (by decide) (bits_lt hchannels)
  unfold AudioConfig.readExtension at hextension
  split at hextension
  · rename_i hannounced
    obtain ⟨rate, c₅, hrate, hextension⟩ := exists_of_bind_ok hextension
    cases hextension
    obtain ⟨objectType, c₆, hobjectType, h⟩ := exists_of_bind_ok h
    cases h
    -- the extension brings its rate, and the type is read a second time
    have hrate : Took (AudioConfig.readExtension type) rate.write (some ⟨type, rate⟩) c₃ c₄ := by
      rw [AudioConfig.readExtension, if_pos hannounced]
      exact (SamplingRate.took hrate).map _
    rw [write, hnumber]
    exact (took_objectType htype).bind ((SamplingRate.took hsampling).bind
      ((took_bits hchannels).bind (hrate.bind ((took_objectType hobjectType).map _))))
  · rename_i hplain
    cases hextension
    cases h
    -- without an extension nothing is read for it
    have hnone (c : BitCursor) : Took (AudioConfig.readExtension type) [] none c c := by
      rw [AudioConfig.readExtension, if_neg hplain]
      exact Took.pure none c
    rw [write, hnumber, ← List.append_nil (field 4 channels)]
    exact (took_objectType htype).bind ((SamplingRate.took hsampling).bind
      ((took_bits hchannels).bind ((hnone _).bind (Took.pure _ _))))

end AacCore

/-! ### Flags -/

/-- The reader of the flags that an object type has, all of which have to be there. -/
def readWholeFlags (type : UInt8) : BitTake AacFlags := do
  if hasGeneralFlags type then
    let frameLength ← BitTake.bit
    let coreCoderDelay ←
      if ← BitTake.bit then
        let delay ← BitTake.bits 14
        pure (some (UInt16.ofNat delay))
      else pure none
    let extension ← BitTake.bit
    return { frameLength, coreCoderDelay, extension }
  else if type = typeEld then
    return { frameLength := ← BitTake.bit, coreCoderDelay := none, extension := false }
  else
    return { frameLength := false, coreCoderDelay := none, extension := false }

def writeDelay : Option UInt16 → List Bool
  | some delay => flag true ++ field 14 delay.toNat
  | none => flag false

def AacFlags.write (type : UInt8) (flags : AacFlags) : List Bool :=
  if hasGeneralFlags type then
    flag flags.frameLength ++ (writeDelay flags.coreCoderDelay ++ flag flags.extension)
  else if type = typeEld then flag flags.frameLength
  else []

/-- Flags that are all there are read by the lenient reader too. -/
theorem allows_wholeFlags (type : UInt8) : Allows (readWholeFlags type) (readFlags type) := by
  unfold readWholeFlags readFlags
  split
  · refine (Allows.orElse _ _).bind fun frameLength => (Allows.orElse _ _).bind fun isDelayed => ?_
    cases isDelayed with
    | true =>
      exact (Allows.orElse _ _).bind fun delay => (Allows.refl _).bind fun coreCoderDelay =>
        (Allows.orElse _ _).bind fun extension => Allows.refl _
    | false =>
      exact (Allows.refl _).bind fun coreCoderDelay =>
        (Allows.orElse _ _).bind fun extension => Allows.refl _
  · split
    · exact (Allows.orElse _ _).bind fun frameLength => Allows.refl _
    · exact Allows.refl _

theorem write_of_general {type : UInt8} (h : hasGeneralFlags type) (flags : AacFlags) :
    flags.write type =
      flag flags.frameLength ++ (writeDelay flags.coreCoderDelay ++ flag flags.extension) :=
  if_pos h

/-- A delay is written in the 14 bits that it has. -/
theorem writeDelay_ofNat {delay : Nat} (h : delay < 2 ^ 14) :
    writeDelay (some (UInt16.ofNat delay)) = flag true ++ field 14 delay := by
  have hnumber : (UInt16.ofNat delay).toNat = delay :=
    UInt16.toNat_ofNat_of_lt' (lt_of_lt_of_le h (by decide))
  rw [writeDelay, hnumber]

/-- The flags behind them depend on the object type. -/
theorem took_wholeFlags {type : UInt8} {flags : AacFlags}
    (h : readWholeFlags type c = .ok flags c') :
    Took (readWholeFlags type) (flags.write type) flags c c' := by
  unfold readWholeFlags at h ⊢
  split at h
  · rename_i hgeneral
    obtain ⟨frameLength, c₁, hframeLength, h⟩ := exists_of_bind_ok h
    obtain ⟨isDelayed, c₂, hisDelayed, h⟩ := exists_of_bind_ok h
    rw [if_pos hgeneral, write_of_general hgeneral]
    -- the delay is there only if its flag says so
    cases isDelayed with
    | true =>
      obtain ⟨delay, c₃, hdelay, h⟩ := exists_of_bind_ok h
      obtain ⟨coreCoderDelay, c₄, hwrapped, h⟩ := exists_of_bind_ok h
      obtain ⟨extension, c₅, hextension, h⟩ := exists_of_bind_ok h
      cases h
      cases hwrapped
      dsimp only
      rw [writeDelay_ofNat (bits_lt hdelay), List.append_assoc]
      exact (took_bit hframeLength).bind ((took_bit hisDelayed).bind
        ((took_bits hdelay).bind ((Took.pure _ _).bind ((took_bit hextension).map _))))
    | false =>
      obtain ⟨coreCoderDelay, c₃, hwrapped, h⟩ := exists_of_bind_ok h
      obtain ⟨extension, c₄, hextension, h⟩ := exists_of_bind_ok h
      cases h
      cases hwrapped
      exact (took_bit hframeLength).bind ((took_bit hisDelayed).bind
        ((Took.pure _ _).bind ((took_bit hextension).map _)))
  · rename_i hnot
    rw [if_neg hnot, AacFlags.write, if_neg hnot]
    split at h
    · rename_i held
      obtain ⟨frameLength, c₁, hframeLength, h⟩ := exists_of_bind_ok h
      cases h
      rw [if_pos held, if_pos held]
      exact (took_bit hframeLength).map _
    · rename_i hother
      cases h
      rw [if_neg hother, if_neg hother]
      exact Took.pure _ _

/-- Whatever the lenient reader makes of flags that are cut off, it is read off all of them. -/
theorem reads_wholeFlags {type : UInt8} {flags : AacFlags} (h : readFlags type c = .ok flags c') :
    Reads (readWholeFlags type) (flags.write type) flags := by
  unfold readFlags at h
  unfold readWholeFlags
  split at h
  · rename_i hgeneral
    -- what was read before does not matter, only what it was
    obtain ⟨frameLength, c₁, -, h⟩ := exists_of_bind_ok h
    obtain ⟨isDelayed, c₂, -, h⟩ := exists_of_bind_ok h
    rw [if_pos hgeneral, write_of_general hgeneral]
    cases isDelayed with
    | true =>
      obtain ⟨delay, c₃, hdelay, h⟩ := exists_of_bind_ok h
      obtain ⟨coreCoderDelay, c₄, hwrapped, h⟩ := exists_of_bind_ok h
      obtain ⟨extension, c₅, -, h⟩ := exists_of_bind_ok h
      cases h
      cases hwrapped
      -- the delay is of 14 bits or, where the data were cut off, zero
      have hlt : delay < 2 ^ 14 := by
        obtain hread | rfl := of_orElse_ok hdelay
        · exact bits_lt hread
        · decide
      have hfield := Reads.field (w := 14) (by decide) delay
      rw [Nat.mod_eq_of_lt hlt] at hfield
      dsimp only
      rw [writeDelay_ofNat hlt, List.append_assoc]
      exact (Reads.bit frameLength).bind ((Reads.bit true).bind
        (hfield.bind ((Reads.pure _).bind ((Reads.bit extension).map _))))
    | false =>
      obtain ⟨coreCoderDelay, c₃, hwrapped, h⟩ := exists_of_bind_ok h
      obtain ⟨extension, c₄, -, h⟩ := exists_of_bind_ok h
      cases h
      cases hwrapped
      exact (Reads.bit frameLength).bind ((Reads.bit false).bind
        ((Reads.pure _).bind ((Reads.bit extension).map _)))
  · rename_i hnot
    rw [if_neg hnot, AacFlags.write, if_neg hnot]
    split at h
    · rename_i held
      obtain ⟨frameLength, c₁, -, h⟩ := exists_of_bind_ok h
      cases h
      rw [if_pos held, if_pos held]
      exact (Reads.bit frameLength).map _
    · rename_i hother
      cases h
      rw [if_neg hother, if_neg hother]
      exact Reads.pure _

/-! ### Configurations -/

/-- The configuration of these fields and flags. -/
def AacCore.config (core : AacCore) (flags : AacFlags) : AudioConfig where
  objectType := core.objectType
  sampling := core.sampling
  channelConfig := core.channelConfig
  extension := core.extension
  frameLengthFlag := flags.frameLength
  coreCoderDelay := flags.coreCoderDelay
  extensionFlag := flags.extension

namespace AudioConfig

/-- The reader of configurations of which no field is cut short. -/
def wholeReader : BitTake AudioConfig := do
  let core ← AacCore.read
  let flags ← readWholeFlags core.objectType
  return core.config flags

/-- A configuration is its core with its flags. -/
theorem reader_eq_core_flags : reader = (do
    let core ← AacCore.read
    let flags ← readFlags core.objectType
    return core.config flags) := by
  unfold reader AacCore.read
  simp only [bind_assoc]
  refine bind_congr fun type => bind_congr fun sampling => bind_congr fun channels =>
    bind_congr fun extension => ?_
  cases extension with
  | none => rfl
  | some e => simp only [Option.isSome_some, if_true, bind_assoc, pure_bind]; rfl

/-- It is written so as well. -/
theorem writeBits_config (core : AacCore) (flags : AacFlags) :
    (core.config flags).writeBits = core.write ++ flags.write core.objectType := by
  have hflags : (core.config flags).writeFlags = flags.write core.objectType := by
    unfold writeFlags AacFlags.write
    dsimp only [AacCore.config]
    rw [List.append_assoc]
    cases flags.coreCoderDelay <;> rfl
  unfold writeBits AacCore.write
  rw [hflags]
  obtain ⟨type, sampling, channels, extension⟩ := core
  cases extension <;> simp only [AacCore.config, List.append_assoc]

/-- Nothing of the fields in `bytes` is cut off. -/
def IsWhole (bytes : List UInt8) : Prop :=
  ∃ config c, wholeReader (.ofBytes bytes) = .ok config c

/-- What was read, from whole fields or not, is read again off what is written of it. -/
theorem reads_of_reader {config : AudioConfig} (h : reader c = .ok config c') :
    Reads reader config.writeBits config := by
  rw [reader_eq_core_flags] at h ⊢
  obtain ⟨core, c₁, hcore, h⟩ := exists_of_bind_ok h
  obtain ⟨flags, c₂, hflags, h⟩ := exists_of_bind_ok h
  cases h
  rw [writeBits_config]
  exact (AacCore.took hcore).reads.bind
    (((reads_wholeFlags hflags).allow (allows_wholeFlags _)).map _)

/-- **A configuration takes exactly the bits that it is written in**, where no field is cut short.
-/
theorem took_wholeReader {config : AudioConfig} (h : wholeReader c = .ok config c') :
    Took wholeReader config.writeBits config c c' := by
  obtain ⟨core, c₁, hcore, h⟩ := exists_of_bind_ok h
  obtain ⟨flags, c₂, hflags, h⟩ := exists_of_bind_ok h
  cases h
  rw [writeBits_config]
  exact (AacCore.took hcore).bind ((took_wholeFlags hflags).map _)

/-- The reader allows fields that are cut short besides. -/
theorem allows_wholeReader : Allows wholeReader reader := by
  rw [reader_eq_core_flags]
  exact (Allows.refl _).bind fun core => (allows_wholeFlags _).bind fun flags => Allows.refl _

/-- An object type takes five bits, or eleven. -/
theorem length_writeObjectType (type : UInt8) : 5 ≤ (writeObjectType type).length := by
  unfold writeObjectType
  split
  · rw [List.length_append, length_field]
    exact Nat.le_add_right 5 _
  · rw [length_field]

theorem length_write_sampling (s : SamplingRate) : 4 ≤ s.write.length := by
  rw [SamplingRate.write, List.length_append, length_field]
  exact Nat.le_add_right 4 _

/-- Type, rate and channels have 13 bits at least, which are two bytes. -/
theorem length_serialize (config : AudioConfig) : 2 ≤ config.serialize.length := by
  -- 5 bits of the type, 4 of the rate and 4 of the channels
  have hbits : 13 ≤ config.writeBits.length := by
    have htype (type : UInt8) := length_writeObjectType type
    have hsampling := length_write_sampling config.sampling
    unfold writeBits
    cases config.extension with
    | none =>
      have := htype config.objectType
      simp only [List.length_append, length_field]
      omega
    | some e =>
      have := htype e.objectType
      simp only [List.length_append, length_field]
      omega
  have hbytes := congrArg List.length (ofBytes_pack config.writeBits)
  rw [length_ofBytes, List.length_append] at hbytes
  rw [serialize]
  omega

/-- **Audio configurations survive being written again.** Of whole fields, all bits that were read
are written as they were, and the last byte is filled up with zeros. -/
theorem decode_serialize {bytes : List UInt8} {config : AudioConfig}
    (h : decode bytes = .ok config) :
    decode config.serialize = .ok config ∧
    (IsWhole bytes → ∃ c, reader (.ofBytes bytes) = .ok config c ∧
      ofBytes config.serialize = (ofBytes bytes).take c.position ++
        List.replicate ((8 - c.position % 8) % 8) false) := by
  unfold decode at h
  split at h
  · cases h
  unfold BitTake.from? at h
  split at h
  · rename_i c hreader
    cases h
    -- what is written is a whole configuration, and it is read as one
    refine ⟨?_, ?_⟩
    · have hagain := (reads_of_reader hreader).from?_pack []
      rw [List.append_nil] at hagain
      rw [decode, if_neg (Nat.not_lt.2 (length_serialize config))]
      exact hagain
    · rintro ⟨whole, c', hwhole⟩
      -- on data that are whole both readers find the same
      have hsame := allows_wholeReader _ _ _ hwhole
      rw [hreader] at hsame
      cases hsame
      obtain ⟨hrest, hposition, -⟩ := took_wholeReader hwhole
      have hlength : c.position = config.writeBits.length := hposition.trans (Nat.zero_add _)
      have htake : (ofBytes bytes).take c.position = config.writeBits := by
        change ofBytes bytes = _ at hrest
        rw [hlength, hrest, List.take_left' rfl]
      refine ⟨c, hreader, ?_⟩
      rw [htake, hlength]
      exact ofBytes_pack config.writeBits
  · cases h

/-- A rate of 48 kHz over a core of 24 kHz, and bytes behind that are not read: 25 bits are. -/
theorem decode_serialize_extended :
    let bytes : List UInt8 := [0x2b, 0x11, 0x88, 0x00, 0xff]
    let config : AudioConfig := {
      objectType := 2
      sampling := ⟨6, 24000⟩
      channelConfig := 2
      extension := some ⟨typeSbr, ⟨3, 48000⟩⟩
      frameLengthFlag := false
      coreCoderDelay := none
      extensionFlag := false }
    decode bytes = .ok config ∧ decode config.serialize = .ok config ∧ IsWhole bytes ∧
      ∃ c, reader (.ofBytes bytes) = .ok config c ∧
        ofBytes config.serialize = (ofBytes bytes).take c.position ++
          List.replicate ((8 - c.position % 8) % 8) false := by
  intro bytes config
  have hdecode : decode bytes = .ok config := by decide +kernel
  have hwhole : IsWhole bytes := ⟨_, _, rfl⟩
  obtain ⟨hagain, hbits⟩ := decode_serialize hdecode
  exact ⟨hdecode, hagain, hwhole, hbits hwhole⟩

/-- A delay of the core coder that is cut off after its first bit is read as zero, and that zero is
written with all its bits. -/
example : decode [0x12, 0x12] = decode [0x12, 0x12, 0x00, 0x00] ∧
    (decode [0x12, 0x12]).map serialize = .ok [0x12, 0x12, 0x00, 0x00] := by
  decide +kernel

end AudioConfig

end LiveIngest.Codec
