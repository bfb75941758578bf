import LiveIngest.Chunk.Header
import LiveIngest.Proofs.Bytes.Endian

/-!
# Chunks as data

A `Frame` is a chunk before it is written: how its basic header spells the chunk stream, what its
message header says, and its payload. A sender is free in two respects. Ids from 64 to 319 fit two
spellings, and a time that fits the 24-bit field may be sent as an extended timestamp all the same.

`BasicHeader.decode_bytes` and `MessageHeader.decode_fixed` say that decoding undoes the writing of
either header, in every spelling and format.
-/

namespace LiveIngest.Chunk

/-! ### Basic headers -/

/-- How a basic header spells its chunk stream: in one, two or three bytes. -/
inductive Spelling
  | short
  | medium
  | long
  deriving DecidableEq, Repr

namespace Spelling

/-- The chunk streams that a spelling has room for. -/
def Covers : Spelling → UInt32 → Prop
  | short, id => 2 ≤ id.toNat ∧ id.toNat < 64
  | medium, id => 64 ≤ id.toNat ∧ id.toNat < 320
  | long, id => 64 ≤ id.toNat ∧ id.toNat < 65600

instance (s : Spelling) (id : UInt32) : Decidable (s.Covers id) := by
  cases s <;> exact inferInstanceAs (Decidable (_ ∧ _))

def bytes (s : Spelling) (format : UInt8) (id : UInt32) : List UInt8 :=
  match s with
  | short => [format <<< 6 ||| UInt8.ofNat id.toNat]
  | medium => [format <<< 6, UInt8.ofNat (id.toNat - 64)]
  | long => (format <<< 6 ||| 1) :: Bytes.littleEndian 2 (id.toNat - 64)

/-- A basic header has at least one byte, however it is spelled. -/
theorem bytes_ne_nil (s : Spelling) (format : UInt8) (id : UInt32) : s.bytes format id ≠ [] := by
  cases s <;> exact List.cons_ne_nil _ _

end Spelling

/-- The first byte of a basic header holds the format above six bits of its own. -/
theorem first_split {format : UInt8} (hformat : format < 4) {n : Nat} (hn : n < 64) :
    (format <<< 6 ||| UInt8.ofNat n) >>> 6 = format ∧
      (format <<< 6 ||| UInt8.ofNat n) &&& 0x3f = UInt8.ofNat n := by
  -- four formats and 64 values are few enough to look at each
  have hall : ∀ f : Fin 4, ∀ m : Fin 64,
      (UInt8.ofNat f <<< 6 ||| UInt8.ofNat m) >>> 6 = UInt8.ofNat f ∧
        (UInt8.ofNat f <<< 6 ||| UInt8.ofNat m) &&& 0x3f = UInt8.ofNat m := by
    decide +kernel
  have h := hall ⟨format.toNat, hformat⟩ ⟨n, hn⟩
  rwa [UInt8.ofNat_toNat] at h

/-- Six bits that name a chunk stream announce no further byte. -/
theorem ofNat_direct {n : Nat} (hlow : 2 ≤ n) (hhigh : n < 64) :
    (UInt8.ofNat n).toNat = n ∧ UInt8.ofNat n ≠ 0 ∧ UInt8.ofNat n ≠ 1 := by
  have hval : (UInt8.ofNat n).toNat = n := by
    rw [UInt8.toNat_ofNat']
    omega
  refine ⟨hval, fun h => ?_, fun h => ?_⟩
  · rw [h] at hval
    exact absurd hval (by simp; omega)
  · rw [h] at hval
    exact absurd hval (by simp; omega)

/-- The six low bits of the first byte announce the length of the basic header. -/
theorem basicLength_bytes {s : Spelling} {format : UInt8} {id : UInt32} (hformat : format < 4)
    (hid : s.Covers id) :
    basicLength ((s.bytes format id).headD 0) = (s.bytes format id).length := by
  cases s with
  | short =>
    obtain ⟨hlow, hhigh⟩ := hid
    have hsix := (first_split hformat hhigh).2
    obtain ⟨-, hne0, hne1⟩ := ofNat_direct hlow hhigh
    simp only [Spelling.bytes, List.headD_cons, basicLength, hsix]
    rfl
  | medium =>
    -- six zero bits announce one more byte
    have hsix := (first_split hformat (n := 0) (by decide)).2
    rw [show UInt8.ofNat 0 = 0 from rfl, UInt8.or_zero] at hsix
    simp only [Spelling.bytes, List.headD_cons, basicLength, hsix]
    rfl
  | long =>
    -- a one announces two
    have hsix := (first_split hformat (n := 1) (by decide)).2
    simp only [Spelling.bytes, List.headD_cons, basicLength,
      show (1 : UInt8) = UInt8.ofNat 1 from rfl, hsix]
    rfl

/-- **Decoding a basic header undoes its spelling.** -/
theorem BasicHeader.decode_bytes {s : Spelling} {format : UInt8} {id : UInt32}
    (hformat : format < 4) (hid : s.Covers id) :
    BasicHeader.decode (s.bytes format id) = ⟨format, id⟩ := by
  have hofNat : ∀ n, n = id.toNat → UInt32.ofNat n = id := by
    rintro n rfl
    exact UInt32.ofNat_toNat
  cases s with
  | short =>
    obtain ⟨hlow, hhigh⟩ := hid
    obtain ⟨htop, hsix⟩ := first_split hformat hhigh
    obtain ⟨hval, hne0, hne1⟩ := ofNat_direct hlow hhigh
    simp only [BasicHeader.decode, Spelling.bytes, List.headD_cons, htop, hsix]
    congr 1
    exact UInt32.toNat.inj (by rw [UInt8.toNat_toUInt32, hval])
  | medium =>
    obtain ⟨hlow, hhigh⟩ := hid
    obtain ⟨htop, hsix⟩ := first_split hformat (n := 0) (by decide)
    rw [show UInt8.ofNat 0 = 0 from rfl, UInt8.or_zero] at htop hsix
    -- one byte holds the id above 64
    have hval : (UInt8.ofNat (id.toNat - 64)).toNat = id.toNat - 64 := by
      rw [UInt8.toNat_ofNat']
      omega
    simp only [BasicHeader.decode, Spelling.bytes, List.headD_cons, htop, hsix]
    congr 1
    refine hofNat _ ?_
    simp only [List.drop_succ_cons, List.drop_zero, List.take_succ_cons, List.take_nil,
      Bytes.ofLittleEndian, hval]
    omega
  | long =>
    obtain ⟨hlow, hhigh⟩ := hid
    obtain ⟨htop, hsix⟩ := first_split hformat (n := 1) (by decide)
    rw [show UInt8.ofNat 1 = 1 from rfl] at htop hsix
    simp only [BasicHeader.decode, Spelling.bytes, List.headD_cons, htop, hsix]
    congr 1
    refine hofNat _ ?_
    rw [List.drop_succ_cons, List.drop_zero, List.take_of_length_le (by simp),
      Bytes.ofLittleEndian_littleEndian (by omega)]
    omega

/-! ### Message headers -/

/-- A time in a message header: in the 24-bit field, or in four bytes behind the header. -/
inductive TimeField
  | plain (value : UInt32)
  | extended (value : UInt32)
  deriving DecidableEq, Repr

namespace TimeField

def value : TimeField → UInt32
  | plain v | extended v => v

/-- The 24-bit field. -/
def mark : TimeField → UInt32
  | plain v => v
  | extended _ => extendedMark

def extension : TimeField → List UInt8
  | plain _ => []
  | extended v => Bytes.bigEndian 4 v.toNat

/-- A plain time stays below the mark of an extended one. An extended time may have any value. -/
def Fits : TimeField → Prop
  | plain v => v < extendedMark
  | extended _ => True

instance : (t : TimeField) → Decidable t.Fits
  | plain v => inferInstanceAs (Decidable (v < extendedMark))
  | extended _ => isTrue trivial

/-- What stands in the three bytes of a timestamp fits there. -/
theorem mark_lt (t : TimeField) (h : t.Fits) : t.mark.toNat < 256 ^ 3 := by
  cases t with
  | plain v =>
    have hv : v.toNat < extendedMark.toNat := UInt32.lt_iff_toNat_lt.1 h
    exact hv.trans (by decide)
  | extended v => exact (by decide : extendedMark.toNat < 256 ^ 3)

end TimeField

/-- What the message header of a chunk says. -/
inductive Heading
  /-- Format 0: everything, with a point in time. -/
  | full (time : TimeField) (length : Nat) (type : UInt8) (streamId : UInt32)
  /-- Format 1: the message stream is the one before, and time is a distance. -/
  | sameStream (time : TimeField) (length : Nat) (type : UInt8)
  /-- Format 2: length and type are those before as well. -/
  | sameKind (time : TimeField)
  /-- Format 3: nothing. -/
  | bare
  deriving DecidableEq, Repr

namespace Heading

def format : Heading → UInt8
  | full .. => 0
  | sameStream .. => 1
  | sameKind _ => 2
  | bare => 3

/-- The fields of a message header have their sizes on the wire. -/
def Fits : Heading → Prop
  | full time length _ _ | sameStream time length _ => time.Fits ∧ length < 2 ^ 24
  | sameKind time => time.Fits
  | bare => True

instance : (h : Heading) → Decidable h.Fits
  | full time length _ _ | sameStream time length _ =>
    inferInstanceAs (Decidable (time.Fits ∧ length < 2 ^ 24))
  | sameKind time => inferInstanceAs (Decidable time.Fits)
  | bare => isTrue trivial

def fixed : Heading → List UInt8
  | full time length type streamId =>
    Bytes.bigEndian 3 time.mark.toNat ++
      (Bytes.bigEndian 3 length ++ (type :: Bytes.littleEndian 4 streamId.toNat))
  | sameStream time length type =>
    Bytes.bigEndian 3 time.mark.toNat ++ (Bytes.bigEndian 3 length ++ [type])
  | sameKind time => Bytes.bigEndian 3 time.mark.toNat
  | bare => []

def extension : Heading → List UInt8
  | full time _ _ _ | sameStream time _ _ | sameKind time => time.extension
  | bare => []

def time? : Heading → Option TimeField
  | full time _ _ _ | sameStream time _ _ | sameKind time => some time
  | bare => none

def header : Heading → MessageHeader
  | full time length type streamId => ⟨0, time.mark, length, type, streamId⟩
  | sameStream time length type => ⟨1, time.mark, length, type, 0⟩
  | sameKind time => ⟨2, time.mark, 0, 0, 0⟩
  | bare => ⟨3, 0, 0, 0, 0⟩

theorem format_header (h : Heading) : h.header.format = h.format := by
  cases h <;> rfl

theorem format_lt (h : Heading) : h.format < 4 := by
  cases h <;> rw [format] <;> decide

theorem length_fixed (h : Heading) : h.fixed.length = messageHeaderLength h.format := by
  cases h <;> simp [fixed, format, messageHeaderLength]

/-- A format that carries a time has a message header. -/
theorem messageHeaderLength_pos {h : Heading} {time : TimeField} (htime : h.time? = some time) :
    0 < messageHeaderLength h.format := by
  cases h with
  | bare => exact absurd htime (by simp [time?])
  | _ => rw [format]; decide

/-- A heading that gives a time carries the extension of that time. -/
theorem extension_eq {h : Heading} {time : TimeField} (htime : h.time? = some time) :
    h.extension = time.extension := by
  cases h with
  | bare => exact absurd htime (by simp [time?])
  | _ => exact congrArg TimeField.extension (Option.some.inj htime)

/-- The field of a heading holds the mark of its time. -/
theorem timestamp_header {h : Heading} {time : TimeField} (htime : h.time? = some time) :
    h.header.timestamp = time.mark := by
  cases h with
  | bare => exact absurd htime (by simp [time?])
  | _ => exact congrArg TimeField.mark (Option.some.inj htime)

/-- The time of a heading that fits is one that fits. -/
theorem fits_time {h : Heading} (hfits : h.Fits) {time : TimeField} (htime : h.time? = some time) :
    time.Fits := by
  cases h with
  | full => exact Option.some.inj htime ▸ hfits.1
  | sameStream => exact Option.some.inj htime ▸ hfits.1
  | sameKind => exact Option.some.inj htime ▸ hfits
  | bare => exact absurd htime (by simp [time?])

/-- A header announces an extended timestamp exactly when its time is sent as one. -/
theorem isExtended_header {h : Heading} (hfits : h.Fits) {time : TimeField}
    (htime : h.time? = some time) : h.header.isExtended = true ↔ ∃ v, time = .extended v := by
  have hformat : h.header.format ≤ 2 := by
    rw [format_header]
    cases h with
    | bare => exact absurd htime (by simp [time?])
    | _ => rw [format]; decide
  simp only [MessageHeader.isExtended, hformat, true_and, decide_eq_true_eq,
    timestamp_header htime]
  -- a plain time stays below the mark
  have htimeFits := fits_time hfits htime
  cases time with
  | plain v => exact ⟨fun hle => absurd htimeFits (UInt32.not_lt.2 hle), fun ⟨_, he⟩ => nomatch he⟩
  | extended v => exact ⟨fun _ => ⟨v, rfl⟩, fun _ => UInt32.le_refl _⟩

/-- **Decoding a message header undoes its writing.** -/
theorem decode_fixed {h : Heading} (hfits : h.Fits) :
    MessageHeader.decode h.format h.fixed = h.header := by
  -- each field is found at its place
  have htime : ∀ (t : TimeField) (rest : List UInt8), t.Fits →
      UInt32.ofNat (Bytes.ofBigEndian ((Bytes.bigEndian 3 t.mark.toNat ++ rest).take 3)) =
        t.mark := by
    intro t rest ht
    rw [List.take_left' (Bytes.length_bigEndian 3 _), Bytes.ofBigEndian_bigEndian (t.mark_lt ht),
      UInt32.ofNat_toNat]
  have hlength : ∀ (t : TimeField) (n : Nat) (rest : List UInt8), n < 2 ^ 24 →
      Bytes.ofBigEndian (((Bytes.bigEndian 3 t.mark.toNat ++
        (Bytes.bigEndian 3 n ++ rest)).drop 3).take 3) = n := by
    intro t n rest hn
    rw [List.drop_left' (Bytes.length_bigEndian 3 _), List.take_left' (Bytes.length_bigEndian 3 _),
      Bytes.ofBigEndian_bigEndian hn]
  have htype : ∀ (t : TimeField) (n : Nat) (type : UInt8) (rest : List UInt8),
      (Bytes.bigEndian 3 t.mark.toNat ++ (Bytes.bigEndian 3 n ++ (type :: rest))).drop 6 =
        type :: rest := by
    intro t n type rest
    rw [← List.append_assoc, List.drop_left' (by simp)]
  cases h with
  | full time length type streamId =>
    obtain ⟨ht, hl⟩ := hfits
    -- only format 0 has a fourth field, and it is little-endian
    have hstream : (UInt32.ofNat (Bytes.ofLittleEndian
        (((Heading.full time length type streamId).fixed.drop 7).take 4))) = streamId := by
      rw [fixed, show (7 : Nat) = 6 + 1 from rfl, ← List.drop_drop, htype time length type,
        List.drop_succ_cons, List.drop_zero, List.take_of_length_le (by simp),
        Bytes.ofNat_ofLittleEndian_littleEndian]
    simp only [MessageHeader.decode, format, header, hstream]
    simp only [fixed, htime time _ ht, hlength time length _ hl, htype time length type]
    rfl
  | sameStream time length type =>
    obtain ⟨ht, hl⟩ := hfits
    simp only [MessageHeader.decode, format, header]
    simp only [fixed, htime time _ ht, hlength time length _ hl, htype time length type]
    rfl
  | sameKind time =>
    have hmark := htime time [] hfits
    rw [List.append_nil] at hmark
    simp only [MessageHeader.decode, format, header, fixed, hmark]
    rfl
  | bare => rfl

end Heading

/-! ### Chunks -/

/-- A chunk before it is written. -/
structure Frame where
  spelling : Spelling
  chunkStream : UInt32
  heading : Heading
  payload : List UInt8
  deriving DecidableEq, Repr

namespace Frame

def headers (f : Frame) : List UInt8 :=
  f.spelling.bytes f.heading.format f.chunkStream ++ f.heading.fixed ++ f.heading.extension

def bytes (f : Frame) : List UInt8 :=
  f.headers ++ f.payload

/-- The headers have the sizes that the format asks for. -/
def Fits (f : Frame) : Prop :=
  f.spelling.Covers f.chunkStream ∧ f.heading.Fits

instance (f : Frame) : Decidable f.Fits := inferInstanceAs (Decidable (_ ∧ _))

end Frame

end LiveIngest.Chunk
