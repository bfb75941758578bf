import Mathlib.Data.List.Basic
import LiveIngest.Proofs.Flv.Codes
import LiveIngest.Proofs.Flv.Feeding

/-!
# Tags are written as they were read

The first bytes of a body tell how long its header is (`AudioTag.headerLength`,
`VideoTag.headerLength`). `HasRead` says what a tag is behind the bytes that it was fed: it holds as
much of the header as has come, and is written as these bytes once the header is complete. A byte of
the header keeps this (`HasRead.readByte`), and so does payload (`HasRead.addMedia`); that a whole
body does, wherever it is cut, follows from the rule that both kinds of tags are read by.

Main statement: `parse_serialize` — which bodies are tags, what they are written as, and that tags
may be fed in any pieces and changed in any way.
-/

namespace LiveIngest

/-! ### Audio -/

namespace AudioTag

/-- How long the header of a body is. -/
def headerLength : List UInt8 → Nat
  | [] => 1
  | first :: _ => if first >>> 4 = 10 then 2 else 1

/-- Behind a complete header nothing changes its length. -/
theorem headerLength_append {bytes : List UInt8} (h : headerLength bytes ≤ bytes.length)
    (more : List UInt8) : headerLength (bytes ++ more) = headerLength bytes := by
  cases bytes with
  | nil => exact absurd h (by decide)
  | cons first rest => rfl

/-- The codec and the sound of a tag, as they are written. -/
def firstByte (t : AudioTag) : UInt8 :=
  (t.codec.id <<< 4) ||| (t.rate.bits <<< 2) ||| (t.is16bit.toUInt8 <<< 1) ||| t.isStereo.toUInt8

theorem firstByte_readHeader (t : AudioTag) (b : UInt8) : (t.readHeader b).firstByte = b :=
  firstByte_audio b

/-- What a tag is that was fed `bytes`. -/
inductive HasRead (t : AudioTag) : List UInt8 → Prop
  | nothing (hstage : t.stage = .header) (hmedia : t.media = []) : HasRead t []
  | codec {first : UInt8} (hstage : t.stage = .packetType) (hmedia : t.media = [])
      (hfirst : t.firstByte = first) (hcodec : t.codec = .aac) (haac : first >>> 4 = 10) :
      HasRead t [first]
  | header {bytes : List UInt8} (hstage : t.stage = .payload) (hwritten : t.serialize = bytes)
      (hlength : t.headerBytes.length = headerLength bytes) : HasRead t bytes

variable {t : AudioTag} {bytes : List UInt8}

/-- A tag with its header and no payload. -/
theorem HasRead.ofHeader (hstage : t.stage = .payload) (hmedia : t.media = [])
    (hheader : t.headerBytes = bytes) (hlength : bytes.length = headerLength bytes) :
    t.HasRead bytes := by
  refine .header hstage ?_ (hheader ▸ hlength)
  rw [serialize, hheader, hmedia, List.append_nil]

/-- **A byte of the header.** -/
theorem HasRead.readByte (h : t.HasRead bytes) (hopen : t.stage ≠ .payload) (b : UInt8) :
    (t.readByte b).HasRead (bytes ++ [b]) := by
  cases h with
  | nothing hstage hmedia =>
    have hread : t.readByte b = t.readHeader b := by
      rw [AudioTag.readByte, hstage]
    have hfirst := firstByte_readHeader t b
    have hcodec : (t.readHeader b).codec = .ofId (b >>> 4) := rfl
    rw [hread]
    -- only AAC has a second byte in its header
    by_cases haac : b >>> 4 = 10
    · have hofId := (AudioCodec.ofId_eq_aac_iff _).2 haac
      exact .codec (if_pos hofId) hmedia hfirst (hcodec.trans hofId) haac
    · have hofId : AudioCodec.ofId (b >>> 4) ≠ .aac :=
        fun h => haac ((AudioCodec.ofId_eq_aac_iff _).1 h)
      have hheader : (t.readHeader b).headerBytes = [b] := by
        rw [headerBytes, if_neg (hcodec ▸ hofId)]
        exact congrArg (fun first => [first]) hfirst
      exact .ofHeader (if_neg hofId) hmedia hheader (if_neg haac).symm
  | @codec first hstage hmedia hfirst hcodec haac =>
    have hheader : (t.readByte b).headerBytes = [first, b] := by
      rw [AudioTag.readByte, hstage, headerBytes, if_pos hcodec]
      exact congrArg₂ (fun first code => [first, code]) hfirst (AacPacketType.code_ofCode b)
    have hnone : (t.readByte b).media = [] := by
      rw [AudioTag.readByte, hstage]
      exact hmedia
    exact .ofHeader (by rw [AudioTag.readByte, hstage]) hnone hheader (if_pos haac).symm
  | header hstage => exact absurd hstage hopen

/-- A header is complete when its bytes have come. -/
theorem HasRead.inHeader_iff (h : t.HasRead bytes) :
    t.stage ≠ .payload ↔ bytes.length < headerLength bytes := by
  cases h with
  | nothing hstage =>
    rw [hstage]
    exact iff_of_true AudioStage.noConfusion Nat.one_pos
  | codec hstage _ _ _ haac =>
    rw [hstage, headerLength, if_pos haac]
    exact iff_of_true AudioStage.noConfusion (Nat.lt_succ_self 1)
  | header hstage hwritten hlength =>
    refine iff_of_false (not_not_intro hstage) (Nat.not_lt.2 ?_)
    rw [← hlength, ← hwritten, serialize, List.length_append]
    exact Nat.le_add_right _ _

/-- Behind its header, a tag is written as it was read. -/
theorem HasRead.written (h : t.HasRead bytes) (hpayload : t.stage = .payload) :
    t.serialize = bytes ∧ t.headerBytes.length = headerLength bytes := by
  cases h with
  | header _ hwritten hlength => exact ⟨hwritten, hlength⟩
  | nothing hstage | codec hstage =>
    exact absurd (hstage.symm.trans hpayload) AudioStage.noConfusion

/-- Payload is written as it is. -/
theorem HasRead.addMedia (h : t.HasRead bytes) (hpayload : t.stage = .payload)
    (xs : List UInt8) : (reader.addMedia t xs).HasRead (bytes ++ xs) := by
  have hcomplete : headerLength bytes ≤ bytes.length :=
    Nat.not_lt.1 (mt h.inHeader_iff.2 (not_not_intro hpayload))
  obtain ⟨hwritten, hlength⟩ := h.written hpayload
  refine .header hpayload ?_ (hlength.trans (headerLength_append hcomplete _).symm)
  rw [← hwritten]
  exact (List.append_assoc _ _ _).symm

theorem reads : reader.Reads HasRead headerLength where
  header := .readByte
  payload h hcomplete := h.addMedia (Decidable.not_not.1 hcomplete)
  inHeader_iff h := h.inHeader_iff
  length_append := headerLength_append

theorem hasRead_empty (timestamp : UInt32) (capacity : Nat) :
    (empty timestamp capacity).HasRead [] :=
  .nothing rfl rfl

theorem HasRead.stage_iff (h : t.HasRead bytes) :
    t.stage = .payload ↔ headerLength bytes ≤ bytes.length := by
  rw [← Nat.not_lt, ← h.inHeader_iff, not_ne_iff]

end AudioTag

/-! ### Video -/

/-- Any four bytes are a four-character code, a known one or another. -/
theorem FourCc.exists_bytes {bytes : List UInt8} (h : bytes.length = 4) :
    ∃ c : FourCc, bytes = c.bytes := by
  match bytes, h with
  | [c1, c2, c3, c4], _ => exact ⟨⟨c1, c2, c3, c4⟩, rfl⟩

/-- Codes with the same bytes are the same code. -/
theorem FourCc.bytes_inj {c d : FourCc} : c.bytes = d.bytes ↔ c = d := by
  refine ⟨fun h => ?_, fun h => h ▸ rfl⟩
  cases c
  cases d
  simpa [bytes] using h

namespace VideoTag

/-- How long the header of a body is. -/
def headerLength : List UInt8 → Nat
  | [] => 1
  | first :: rest =>
    if first &&& 0x80 = 0 then
      if first &&& 0x0f = 7 then 5 else 1
    else if rest.take 4 = FourCc.hevc.bytes ∧ first &&& 0x0f = 1 then 8
    else 5

/-- Only AVC takes more than one byte in a legacy header. -/
theorem headerLength_legacy {first : UInt8} (h : first &&& 0x80 = 0) (rest : List UInt8) :
    headerLength (first :: rest) = if first &&& 0x0f = 7 then 5 else 1 := by
  rw [headerLength, if_pos h]

/-- An extended header has its four-character code, and a composition time only where HEVC frames
have one. -/
theorem headerLength_extended {first : UInt8} (h : first &&& 0x80 ≠ 0) (rest : List UInt8) :
    headerLength (first :: rest) =
      if rest.take 4 = FourCc.hevc.bytes ∧ first &&& 0x0f = 1 then 8 else 5 := by
  rw [headerLength, if_neg h]

/-- Behind a complete header nothing changes its length. -/
theorem headerLength_append {bytes : List UInt8} (h : headerLength bytes ≤ bytes.length)
    (more : List UInt8) : headerLength (bytes ++ more) = headerLength bytes := by
  cases bytes with
  | nil => exact absurd h (by decide)
  | cons first rest =>
    by_cases hlegacy : first &&& 0x80 = 0
    · rw [List.cons_append, headerLength_legacy hlegacy, headerLength_legacy hlegacy]
    · -- an extended header holds its codec completely
      have hfour : 4 ≤ rest.length := by
        rw [headerLength_extended hlegacy, List.length_cons] at h
        split at h <;> omega
      rw [List.cons_append, headerLength_extended hlegacy, headerLength_extended hlegacy,
        List.take_append_of_le_length hfour]

/-- The tag opens like a legacy header with this first byte. -/
structure OpensLegacy (t : VideoTag) (first : UInt8) : Prop where
  flag : first &&& 0x80 = 0
  frameType : t.frameType = .ofBits (first >>> 4)
  codec : t.codec = .legacy (.ofId (first &&& 0x0f))

/-- The tag opens like an extended header with this first byte. -/
structure OpensExtended (t : VideoTag) (first : UInt8) : Prop where
  flag : first &&& 0x80 ≠ 0
  frameType : t.frameType = .ofBits ((first >>> 4) &&& 0x07)
  packetType : t.packetType = .extended (.ofCode (first &&& 0x0f))

variable {t : VideoTag} {first : UInt8} {bytes : List UInt8}

/-- The header of a tag that was opened by a legacy byte. -/
theorem OpensLegacy.headerBytes_eq (h : t.OpensLegacy first) :
    t.headerBytes = first :: if VideoCodec.ofId (first &&& 0x0f) = .avc then
      t.avcType.code :: Buffer.signed24 t.compositionTime else [] := by
  unfold headerBytes
  rw [h.codec, h.frameType]
  dsimp only
  rw [firstByte_legacy h.flag]

/-- The type of an extended tag is in the low half of its first byte. -/
theorem OpensExtended.extendedType_eq (h : t.OpensExtended first) :
    t.extendedType = .ofCode (first &&& 0x0f) := by
  unfold extendedType
  rw [h.packetType]

/-- The header of a tag that was opened by an extended byte. -/
theorem OpensExtended.headerBytes_eq (h : t.OpensExtended first) {c : FourCc}
    (hcodec : t.codec = .extended c) :
    t.headerBytes = first :: (c.bytes ++ if c = .hevc ∧ first &&& 0x0f = 1 then
      Buffer.signed24 t.compositionTime else []) := by
  unfold headerBytes
  rw [hcodec, h.frameType, h.extendedType_eq]
  dsimp only
  rw [firstByte_extended h.flag]
  simp only [ExtendedPacketType.ofCode_eq_codedFrames_iff]

/-- What a tag is that was fed `bytes`. -/
inductive HasRead (t : VideoTag) : List UInt8 → Prop
  | nothing (hstage : t.stage = .header) (hmedia : t.media = []) (hpending : t.pending = []) :
      HasRead t []
  | fourCc {first : UInt8} (hstage : t.stage = .fourCc) (hmedia : t.media = [])
      (hopens : t.OpensExtended first) (hcut : t.pending.length < 4) :
      HasRead t (first :: t.pending)
  | avcFields {first : UInt8} (hstage : t.stage = .avcFields) (hmedia : t.media = [])
      (hopens : t.OpensLegacy first) (havc : first &&& 0x0f = 7) (hcut : t.pending.length < 4) :
      HasRead t (first :: t.pending)
  | compositionTime {first : UInt8} (hstage : t.stage = .compositionTime) (hmedia : t.media = [])
      (hopens : t.OpensExtended first) (hcoded : first &&& 0x0f = 1)
      (hcodec : t.codec = .extended .hevc) (hcut : t.pending.length < 3) :
      HasRead t (first :: (FourCc.hevc.bytes ++ t.pending))
  | header {bytes : List UInt8} (hstage : t.stage = .payload) (hwritten : t.serialize = bytes)
      (hlength : t.headerBytes.length = headerLength bytes) : HasRead t bytes

/-- A tag with its header and no payload. -/
theorem HasRead.ofHeader (hstage : t.stage = .payload) (hmedia : t.media = [])
    (hheader : t.headerBytes = bytes) (hlength : bytes.length = headerLength bytes) :
    t.HasRead bytes := by
  refine .header hstage ?_ (hheader ▸ hlength)
  rw [serialize, hheader, hmedia, List.append_nil]

/-- **The first byte.** -/
theorem HasRead.readFirst (hmedia : t.media = []) (hpending : t.pending = []) (b : UInt8) :
    (t.readFirst b).HasRead [b] := by
  have hcut : ∀ n, 0 < n → t.pending.length < n := by
    rw [hpending]
    exact fun _ => id
  have hbytes : [b] = b :: t.pending := by rw [hpending]
  unfold VideoTag.readFirst
  by_cases hflag : b &&& 0x80 = 0
  · rw [if_neg (by simpa using hflag)]
    dsimp only
    by_cases havc : b &&& 0x0f = 7
    · rw [if_pos ((VideoCodec.ofId_eq_avc_iff _).2 havc), hbytes]
      exact .avcFields rfl hmedia ⟨hflag, rfl, rfl⟩ havc (hcut 4 (by decide))
    · -- the header is complete
      have hofId : VideoCodec.ofId (b &&& 0x0f) ≠ .avc :=
        fun h => havc ((VideoCodec.ofId_eq_avc_iff _).1 h)
      rw [if_neg hofId]
      have hopens : OpensLegacy { t with
          frameType := .ofBits (b >>> 4)
          codec := .legacy (.ofId (b &&& 0x0f))
          packetType := .unspecified
          stage := .payload } b := ⟨hflag, rfl, rfl⟩
      have hheader := hopens.headerBytes_eq
      rw [if_neg hofId] at hheader
      refine .ofHeader rfl hmedia hheader ?_
      rw [headerLength_legacy hflag, if_neg havc]
      rfl
  · rw [if_pos (by simpa using hflag), hbytes]
    exact .fourCc rfl hmedia ⟨hflag, rfl, rfl⟩ (hcut 4 (by decide))

/-- How many bytes the field has that a tag waits for. -/
def fieldLength : VideoStage → Nat
  | .compositionTime => 3
  | _ => 4

/-- A field that is not complete is kept. -/
theorem readField_of_cut (h : t.pending.length < fieldLength t.stage) : t.readField = t := by
  unfold readField
  split
  case h_4 => rfl
  all_goals
    rename_i hstage hpending
    rw [hstage, hpending] at h
    exact absurd h (Nat.lt_irrefl _)

/-- The codec of an extended header is complete. -/
theorem HasRead.endFourCc (hstage : t.stage = .fourCc) (hmedia : t.media = [])
    (hopens : t.OpensExtended first) {c : FourCc} (hpending : t.pending = c.bytes) :
    t.readField.HasRead (first :: c.bytes) := by
  have hread : t.readField = { t with
      codec := .extended c
      pending := []
      stage := if c = .hevc ∧ t.packetType = .extended .codedFrames then .compositionTime
        else .payload } := by
    unfold readField
    rw [hstage, hpending]
    rfl
  have hcoded : t.packetType = .extended .codedFrames ↔ first &&& 0x0f = 1 := by
    rw [hopens.packetType, VideoPacketType.extended.injEq,
      ExtendedPacketType.ofCode_eq_codedFrames_iff]
  simp only [hcoded] at hread
  rw [hread]
  by_cases htimed : c = .hevc ∧ first &&& 0x0f = 1
  · rw [if_pos htimed]
    obtain ⟨rfl, htype⟩ := htimed
    exact .compositionTime rfl hmedia ⟨hopens.flag, hopens.frameType, hopens.packetType⟩ htype rfl
      (Nat.zero_lt_succ 2)
  · -- no composition time follows, and the header is complete
    rw [if_neg htimed]
    have hopens' : OpensExtended
        { t with codec := .extended c, pending := [], stage := .payload } first :=
      ⟨hopens.flag, hopens.frameType, hopens.packetType⟩
    have hheader := hopens'.headerBytes_eq rfl
    rw [if_neg htimed, List.append_nil] at hheader
    have hfour : c.bytes.take 4 = c.bytes := rfl
    have huntimed : ¬(c.bytes = FourCc.hevc.bytes ∧ first &&& 0x0f = 1) := by
      rwa [FourCc.bytes_inj]
    refine .ofHeader rfl hmedia hheader ?_
    rw [headerLength_extended hopens.flag, hfour, if_neg huntimed]
    rfl

/-- Packet type and composition time of a legacy header are complete. -/
theorem HasRead.endAvcFields (hstage : t.stage = .avcFields) (hmedia : t.media = [])
    (hopens : t.OpensLegacy first) (havc : first &&& 0x0f = 7) {type x y z : UInt8}
    (hpending : t.pending = [type, x, y, z]) :
    t.readField.HasRead [first, type, x, y, z] := by
  have hread : t.readField = { t with
      packetType := .avc (.ofCode type)
      compositionTime := Bytes.asSigned 3 (Bytes.ofBigEndian [x, y, z])
      pending := []
      stage := .payload } := by
    unfold readField
    rw [hstage, hpending]
  rw [hread]
  -- the first byte is untouched by the fields that follow it
  have hopens' : OpensLegacy { t with
      packetType := .avc (.ofCode type)
      compositionTime := Bytes.asSigned 3 (Bytes.ofBigEndian [x, y, z])
      pending := []
      stage := .payload } first := ⟨hopens.flag, hopens.frameType, hopens.codec⟩
  have hheader := hopens'.headerBytes_eq
  rw [if_pos ((VideoCodec.ofId_eq_avc_iff _).2 havc), avcType] at hheader
  dsimp only at hheader
  rw [AvcPacketType.code_ofCode, signed24_asSigned] at hheader
  refine .ofHeader rfl hmedia hheader ?_
  rw [headerLength_legacy hopens.flag, if_pos havc]
  rfl

/-- The composition time of an extended header is complete. -/
theorem HasRead.endCompositionTime (hstage : t.stage = .compositionTime) (hmedia : t.media = [])
    (hopens : t.OpensExtended first) (hcoded : first &&& 0x0f = 1)
    (hcodec : t.codec = .extended .hevc) {x y z : UInt8} (hpending : t.pending = [x, y, z]) :
    t.readField.HasRead (first :: (FourCc.hevc.bytes ++ [x, y, z])) := by
  have hread : t.readField = { t with
      compositionTime := Bytes.asSigned 3 (Bytes.ofBigEndian [x, y, z])
      pending := []
      stage := .payload } := by
    unfold readField
    rw [hstage, hpending]
  rw [hread]
  -- the header is the same but for the composition time, which is signed and has three bytes
  have hopens' : OpensExtended { t with
      compositionTime := Bytes.asSigned 3 (Bytes.ofBigEndian [x, y, z])
      pending := []
      stage := .payload } first := ⟨hopens.flag, hopens.frameType, hopens.packetType⟩
  have hheader := hopens'.headerBytes_eq hcodec
  rw [if_pos ⟨rfl, hcoded⟩] at hheader
  dsimp only at hheader
  rw [signed24_asSigned] at hheader
  refine .ofHeader rfl hmedia hheader ?_
  rw [headerLength_extended hopens.flag, if_pos ⟨rfl, hcoded⟩]
  rfl

/-- **A byte of the header.** -/
theorem HasRead.readByte (h : t.HasRead bytes) (hopen : t.stage ≠ .payload) (b : UInt8) :
    (t.readByte b).HasRead (bytes ++ [b]) := by
  have hlength : (t.pending ++ [b]).length = t.pending.length + 1 := List.length_append
  -- a field is either still cut off behind this byte or ends with it
  cases h with
  | nothing hstage hmedia hpending =>
    rw [VideoTag.readByte, hstage]
    exact .readFirst hmedia hpending b
  | fourCc hstage hmedia hopens hcut =>
    rw [VideoTag.readByte, hstage]
    dsimp only
    by_cases hmore : t.pending.length + 1 < 4
    · rw [readField_of_cut (hlength ▸ hmore)]
      exact .fourCc rfl hmedia ⟨hopens.flag, hopens.frameType, hopens.packetType⟩
        (hlength ▸ hmore)
    · obtain ⟨c, hc⟩ := FourCc.exists_bytes (hlength.trans (by omega))
      rw [List.cons_append, hc]
      exact .endFourCc (t := { t with stage := .fourCc, pending := c.bytes }) rfl hmedia
        ⟨hopens.flag, hopens.frameType, hopens.packetType⟩ rfl
  | avcFields hstage hmedia hopens havc hcut =>
    rw [VideoTag.readByte, hstage]
    dsimp only
    by_cases hmore : t.pending.length + 1 < 4
    · rw [readField_of_cut (hlength ▸ hmore)]
      exact .avcFields rfl hmedia ⟨hopens.flag, hopens.frameType, hopens.codec⟩ havc
        (hlength ▸ hmore)
    · obtain ⟨c, hc⟩ := FourCc.exists_bytes (hlength.trans (by omega))
      rw [List.cons_append, hc]
      exact .endAvcFields (t := { t with stage := .avcFields, pending := c.bytes }) rfl hmedia
        ⟨hopens.flag, hopens.frameType, hopens.codec⟩ havc rfl
  | compositionTime hstage hmedia hopens hcoded hcodec hcut =>
    rw [VideoTag.readByte, hstage, List.cons_append, List.append_assoc]
    dsimp only
    by_cases hmore : t.pending.length + 1 < 3
    · rw [readField_of_cut (hlength ▸ hmore)]
      exact .compositionTime rfl hmedia ⟨hopens.flag, hopens.frameType, hopens.packetType⟩
        hcoded hcodec (hlength ▸ hmore)
    · obtain ⟨x, y, z, hc⟩ := List.length_eq_three.1 (hlength.trans (by omega))
      rw [hc]
      exact .endCompositionTime (t := { t with stage := .compositionTime, pending := [x, y, z] })
        rfl hmedia ⟨hopens.flag, hopens.frameType, hopens.packetType⟩ hcoded hcodec rfl
  | header hstage => exact absurd hstage hopen

/-- A header is complete when its bytes have come. -/
theorem HasRead.inHeader_iff (h : t.HasRead bytes) :
    t.stage ≠ .payload ↔ bytes.length < headerLength bytes := by
  cases h with
  | nothing hstage =>
    rw [hstage]
    exact iff_of_true VideoStage.noConfusion Nat.one_pos
  | fourCc hstage _ hopens hcut =>
    rw [hstage, headerLength_extended hopens.flag, List.length_cons]
    refine iff_of_true VideoStage.noConfusion ?_
    -- four bytes of the code are missing, whether or not a time follows them
    split <;> omega
  | avcFields hstage _ hopens havc hcut =>
    rw [hstage, headerLength_legacy hopens.flag, if_pos havc, List.length_cons]
    exact iff_of_true VideoStage.noConfusion (Nat.succ_lt_succ hcut)
  | compositionTime hstage _ hopens hcoded _ hcut =>
    -- only HEVC frames have come this far
    have htimed : (FourCc.hevc.bytes ++ t.pending).take 4 = FourCc.hevc.bytes := rfl
    rw [hstage, headerLength_extended hopens.flag, htimed, if_pos ⟨rfl, hcoded⟩]
    exact iff_of_true VideoStage.noConfusion (Nat.add_lt_add_right hcut 5)
  | header hstage hwritten hlength =>
    refine iff_of_false (not_not_intro hstage) (Nat.not_lt.2 ?_)
    rw [← hlength, ← hwritten, serialize, List.length_append]
    exact Nat.le_add_right _ _

/-- Behind its header, a tag is written as it was read. -/
theorem HasRead.written (h : t.HasRead bytes) (hpayload : t.stage = .payload) :
    t.serialize = bytes ∧ t.headerBytes.length = headerLength bytes := by
  cases h with
  | header _ hwritten hlength => exact ⟨hwritten, hlength⟩
  | nothing hstage | fourCc hstage | avcFields hstage | compositionTime hstage =>
    exact absurd (hstage.symm.trans hpayload) VideoStage.noConfusion

/-- Payload is written as it is. -/
theorem HasRead.addMedia (h : t.HasRead bytes) (hpayload : t.stage = .payload)
    (xs : List UInt8) : (reader.addMedia t xs).HasRead (bytes ++ xs) := by
  have hcomplete : headerLength bytes ≤ bytes.length :=
    Nat.not_lt.1 (mt h.inHeader_iff.2 (not_not_intro hpayload))
  obtain ⟨hwritten, hlength⟩ := h.written hpayload
  refine .header hpayload ?_ (hlength.trans (headerLength_append hcomplete _).symm)
  rw [← hwritten]
  exact (List.append_assoc _ _ _).symm

theorem reads : reader.Reads HasRead headerLength where
  header := .readByte
  payload h hcomplete := h.addMedia (Decidable.not_not.1 hcomplete)
  inHeader_iff h := h.inHeader_iff
  length_append := headerLength_append

theorem hasRead_empty (timestamp : UInt32) (capacity : Nat) :
    (empty timestamp capacity).HasRead [] :=
  .nothing rfl rfl rfl

theorem HasRead.stage_iff (h : t.HasRead bytes) :
    t.stage = .payload ↔ headerLength bytes ≤ bytes.length := by
  rw [← Nat.not_lt, ← h.inHeader_iff, not_ne_iff]

end VideoTag

/-! ### Sizes -/

/-- What may be set on an audio tag. -/
inductive AudioTag.Change
  | timestamp (timestamp : UInt32)
  | codec (codec : AudioCodec)
  | rate (rate : SoundRate)
  | is16bit (is16bit : Bool)
  | isStereo (isStereo : Bool)
  | packetType (packetType : AacPacketType)

/-- What may be set on a video tag. -/
inductive VideoTag.Change
  | timestamp (timestamp : UInt32)
  | frameType (frameType : FrameType)
  | codec (codec : VideoCodecId)

namespace AudioTag

def change (t : AudioTag) : Change → AudioTag
  | .timestamp timestamp => { t with timestamp }
  | .codec codec => { t with codec }
  | .rate rate => { t with rate }
  | .is16bit is16bit => { t with is16bit }
  | .isStereo isStereo => { t with isStereo }
  | .packetType packetType => { t with packetType }

/-- **A size is the length** of what is written, whatever the fields hold. -/
theorem size_eq_length (t : AudioTag) : t.size = t.serialize.length := by
  rw [size, serialize, List.length_append, headerBytes]
  split <;> rfl

end AudioTag

namespace VideoTag

def change (t : VideoTag) : Change → VideoTag
  | .timestamp timestamp => { t with timestamp }
  | .frameType frameType => { t with frameType }
  | .codec codec => { t with codec }

/-- The size that is announced is that of the bytes which are written. -/
theorem headerSize_eq (t : VideoTag) : t.headerSize = t.headerBytes.length := by
  have hsigned : (Buffer.signed24 t.compositionTime).length = 3 := Bytes.length_bigEndian 3 _
  unfold headerSize headerBytes
  cases t.codec with
  | extended fourCc =>
    dsimp only
    rw [List.length_cons, List.length_append, apply_ite List.length, hsigned]
    split <;> rfl
  | legacy codec =>
    cases codec with
    | avc => exact congrArg (· + 2) hsigned.symm
    | _ => rfl

/-- **A size is the length** of what is written, whatever the fields hold. -/
theorem size_eq_length (t : VideoTag) : t.size = t.serialize.length := by
  rw [size, serialize, List.length_append, headerSize_eq]

end VideoTag

/-! ### Bodies -/

namespace MediaTag

variable (timestamp : UInt32) (body : List UInt8)

/-- A tag that is made for a body has room for it. -/
theorem hasRead_audio :
    ((AudioTag.empty timestamp body.length).feed body).1.HasRead body :=
  (AudioTag.reads.feed_body (AudioTag.hasRead_empty timestamp _) (Nat.le_add_left _ _)).1

/-- A tag that is fed a whole body has read it. -/
theorem hasRead_video :
    ((VideoTag.empty timestamp body.length).feed body).1.HasRead body :=
  (VideoTag.reads.feed_body (VideoTag.hasRead_empty timestamp _) (Nat.le_add_left _ _)).1

/-- Audio is parsed unless its header is cut short. -/
theorem parse_audio :
    parse 8 timestamp body =
      if AudioTag.headerLength body ≤ body.length then
        .ok (.audio ((AudioTag.empty timestamp body.length).feed body).1)
      else .error (.truncatedAudio body.length) :=
  if_congr (decide_eq_true_iff.trans (hasRead_audio timestamp body).stage_iff) rfl rfl

/-- Video is parsed unless its header is cut short. -/
theorem parse_video :
    parse 9 timestamp body =
      if VideoTag.headerLength body ≤ body.length then
        .ok (.video ((VideoTag.empty timestamp body.length).feed body).1)
      else .error (.truncatedVideo body.length) :=
  if_congr (decide_eq_true_iff.trans (hasRead_video timestamp body).stage_iff) rfl rfl

/-- **What was parsed** is written as the body. -/
theorem serialize_of_parse {type : UInt8} {tag : MediaTag} (htype : type = 8 ∨ type = 9)
    (h : parse type timestamp body = .ok tag) : tag.serialize = body := by
  obtain rfl | rfl := htype
  · have hread := hasRead_audio timestamp body
    rw [parse_audio] at h
    split at h
    · rename_i hlength
      rw [← Except.ok.inj h]
      exact (hread.written (hread.stage_iff.2 hlength)).1
    · exact nomatch h
  · have hread := hasRead_video timestamp body
    rw [parse_video] at h
    split at h
    · rename_i hlength
      rw [← Except.ok.inj h]
      exact (hread.written (hread.stage_iff.2 hlength)).1
    · exact nomatch h

/-- A choice between a value and a fault fails exactly on the other branch. -/
theorem error_iff_of_ite {α : Type} {p : Prop} [Decidable p] {a : α} {f : Fault} :
    (∃ fault, (if p then Except.ok a else .error f) = .error fault) ↔ ¬p := by
  by_cases hp : p
  · rw [if_pos hp]
    exact iff_of_false (fun ⟨_, h⟩ => nomatch h) (not_not_intro hp)
  · rw [if_neg hp]
    exact iff_of_true ⟨f, rfl⟩ hp

/-- **Tags are written as they were read.** For every body: it is a tag exactly when it holds its
header completely; a tag that was parsed is written as the body, byte for byte; a tag that is fed
the body in pieces, cut anywhere, takes all of it and is the tag that is fed it at once, if there is
room for the payload. And whatever is set on a tag, its size is the length of what is written. -/
theorem parse_serialize :
    ((∃ fault, parse 8 timestamp body = .error fault) ↔
      body.length < AudioTag.headerLength body) ∧
    ((∃ fault, parse 9 timestamp body = .error fault) ↔
      body.length < VideoTag.headerLength body) ∧
    (∀ type tag, type = 8 ∨ type = 9 → parse type timestamp body = .ok tag →
      tag.serialize = body) ∧
    (∀ capacity pieces, pieces.flatten = body →
      (body.length ≤ AudioTag.headerLength body + capacity →
        feedAll AudioTag.feed (.empty timestamp capacity) pieces =
          (((AudioTag.empty timestamp capacity).feed body).1, body.length)) ∧
      (body.length ≤ VideoTag.headerLength body + capacity →
        feedAll VideoTag.feed (.empty timestamp capacity) pieces =
          (((VideoTag.empty timestamp capacity).feed body).1, body.length))) ∧
    (∀ (tag : AudioTag) (changes : List AudioTag.Change),
      (changes.foldl .change tag).size = (changes.foldl .change tag).serialize.length) ∧
    (∀ (tag : VideoTag) (changes : List VideoTag.Change),
      (changes.foldl .change tag).size = (changes.foldl .change tag).serialize.length) := by
  refine ⟨?_, ?_, fun type tag htype => serialize_of_parse timestamp body htype, ?_,
    fun _ _ => AudioTag.size_eq_length _, fun _ _ => VideoTag.size_eq_length _⟩
  · rw [parse_audio, error_iff_of_ite, Nat.not_le]
  · rw [parse_video, error_iff_of_ite, Nat.not_le]
  · -- cut in any way, a body that has room is read as if in one piece
    rintro capacity pieces rfl
    exact ⟨AudioTag.reads.feedAll_body (AudioTag.hasRead_empty timestamp capacity),
      VideoTag.reads.feedAll_body (VideoTag.hasRead_empty timestamp capacity)⟩

/-- A coded HEVC frame that is shown 40 ms before it is decoded, cut in its codec and in its
composition time. -/
theorem parse_serialize_hevc :
    let body : List UInt8 := [0x91, 0x68, 0x76, 0x63, 0x31, 0xff, 0xff, 0xd8, 1, 2, 3]
    VideoTag.headerLength body = 8 ∧
    (∃ tag : VideoTag, parse 9 7 body = .ok (.video tag) ∧ tag.compositionTime = -40 ∧
      (MediaTag.video tag).serialize = body) ∧
    feedAll VideoTag.feed (.empty 7 3) [[0x91, 0x68], [0x76, 0x63, 0x31, 0xff], [], [0xff, 0xd8, 1],
      [2, 3]] = (((VideoTag.empty 7 3).feed body).1, 11) := by
  intro body
  obtain ⟨-, -, hwritten, hpieces, -⟩ := parse_serialize 7 body
  have hparse : parse 9 7 body = .ok (.video ((VideoTag.empty 7 11).feed body).1) := by
    decide +kernel
  exact ⟨by decide +kernel,
    ⟨_, hparse, by decide +kernel, hwritten 9 _ (.inr rfl) hparse⟩,
    (hpieces 3 _ rfl).2 (by decide +kernel)⟩

end MediaTag
end LiveIngest

