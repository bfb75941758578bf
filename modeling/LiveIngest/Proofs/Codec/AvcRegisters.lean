import LiveIngest.Codec.AvcSps
import LiveIngest.Proofs.Bits.Registers

/-!
# H.264 sequence parameter sets on registers

`AvcSps.decode` works with numbers of any size. Here it is once more on registers
(`AvcSps.decodeOnRegisters`): all that is worked out along the way has a type of 32 or 64 bits, and
a result that is out of its range ends the run.

What can be out of range is said on the side of the cursor (`InRange`): a count of zeros in a row,
the count of the bits that are left, and the sums of scaling lists. A delta has almost 32 bits, and
neither of the two sums that it goes into is worked out in more than 32. Everything behind the
scaling lists has 64 bits for codes of 32, and there is nothing there that could overflow.

Main statement: `decodeOnRegisters_cases` — a run overflows exactly if something is out of range,
and comes to the same as `decode` otherwise.
-/

namespace LiveIngest.Codec.AvcSps

open BitMachine

/-! ### The sums of scaling lists -/

/-- The sums that a scaling list of `n` more entries works out: for each delta its sum with the last
scale, and that with 256 added. -/
def listSums : (n : Nat) → (last next : Int) → BitCursor → List Int
  | 0, _, _ => fun _ => []
  | n + 1, last, next =>
    if next = 0 then listSums n last next
    else
      behind BitTake.se fun delta c =>
        let scale := Int.tmod (scaleSum last delta) 256
        (last + delta) :: (last + delta + 256) ::
          listSums n (if scale = 0 then last else scale) scale c

/-- The sums of scaling lists, of which each is there or not. -/
def listsSums : (sizes : List Nat) → BitCursor → List Int
  | [] => fun _ => []
  | size :: rest =>
    behind BitTake.bit fun isThere c =>
      if isThere then
        listSums size 8 8 c ++ behind (skipScalingList size 8 8) (fun _ => listsSums rest) c
      else listsSums rest c

/-- The sums in what is said of chroma. -/
def chromaSums (profile : Nat) : BitCursor → List Int :=
  if describesChroma profile then
    behind BitTake.ue fun format =>
    behind (if format = 3 then BitTake.bit else pure false) fun _ =>
    behind BitTake.ue fun _ =>
    behind BitTake.ue fun _ =>
    behind BitTake.bit fun _ =>
    behind BitTake.bit fun isThere =>
      if isThere then
        listsSums (List.replicate 6 16 ++ List.replicate (if format = 3 then 6 else 2) 64)
      else fun _ => []
  else fun _ => []

/-- The sums in what the reader passes over. -/
def readerSums : BitCursor → List Int :=
  behind (BitTake.bits 8) fun profile =>
  behind (BitTake.skip 8) fun _ =>
  behind (BitTake.bits 8) fun _ =>
  behind BitTake.ue fun _ => chromaSums profile

/-- The sums of all scaling lists in a parameter set. -/
def scalingSums (bytes : List UInt8) : List Int :=
  readerSums (.ofBytes (Emulation.remove bytes))

/-- What is worked out from `bytes` is in the range of its type. -/
structure InRange (bytes : List UInt8) : Prop where
  /-- Zeros in a row are counted in 32 bits. -/
  zeros : ¬List.replicate (2 ^ 31) 0 <:+: bytes
  /-- The bits that are left are counted in 64 bits; no memory holds more. -/
  length : (Emulation.remove bytes).length * 8 < 2 ^ 64
  sums : ∀ v ∈ scalingSums bytes, IsInt32 v

/-- What is shorter than the counters reach can only hold sums that are out of range. -/
theorem InRange.of_short {bytes : List UInt8} (h : bytes.length < 2 ^ 31)
    (hsums : ∀ v ∈ scalingSums bytes, IsInt32 v) : InRange bytes where
  zeros hrun := by
    have hle := hrun.length_le
    rw [List.length_replicate] at hle
    omega
  length := by
    have hle := (Emulation.remove_sublist bytes).length_le
    omega
  sums := hsums

/-! ### The reader on registers -/

namespace OnRegisters

/-- Pass over the deltas of a scaling list. -/
def skipScalingList : (n : Nat) → (last next : Int) → BitMachine Unit
  | 0, _, _ => return
  | n + 1, last, next => do
    if next = 0 then skipScalingList n last next
    else
      let delta ← BitMachine.se
      let sum ← int32 (last + delta)
      let sum ← int32 (sum + 256)
      let next := Int.tmod sum 256
      skipScalingList n (if next = 0 then last else next) next

def skipScalingLists : (sizes : List Nat) → BitMachine Unit
  | [] => return
  | size :: rest => do
    if ← BitMachine.bit then skipScalingList size 8 8
    skipScalingLists rest

def skipSigned : (n : Nat) → BitMachine Unit
  | 0 => return
  | n + 1 => do
    let _ ← BitMachine.se
    skipSigned n

def chroma (profile : Nat) : BitMachine (Nat × Bool) := do
  if describesChroma profile then
    let format ← BitMachine.ue
    let separate ← if format = 3 then BitMachine.bit else pure false
    let _ ← BitMachine.ue
    let _ ← BitMachine.ue
    let _ ← BitMachine.bit
    if ← BitMachine.bit then
      skipScalingLists
        (List.replicate 6 16 ++ List.replicate (if format = 3 then 6 else 2) 64)
    return (format, separate)
  else
    return (1, false)

def skipPictureOrder : BitMachine Unit := do
  let kind ← BitMachine.ue
  if kind = 0 then
    let _ ← BitMachine.ue
  else if kind = 1 then
    let _ ← BitMachine.bit
    let _ ← BitMachine.se
    let _ ← BitMachine.se
    let cycle ← BitMachine.ue
    skipSigned cycle

def cropping : BitMachine (Nat × Nat × Nat × Nat) := do
  if ← BitMachine.bit then
    let left ← BitMachine.ue
    let right ← BitMachine.ue
    let top ← BitMachine.ue
    let bottom ← BitMachine.ue
    return (left, right, top, bottom)
  else
    return (0, 0, 0, 0)

/-- What is left of `count` times `unit` luma samples when `units` times `margins` are cut off. -/
def shown (count unit units margins : Nat) : BitMachine Nat := do
  let whole ← unsigned 64 (count * unit)
  let cut ← unsigned 64 (units * margins)
  return whole - cut

def reader : BitMachine AvcSps := do
  let profile ← BitMachine.bits 8
  BitMachine.skip 8
  let level ← BitMachine.bits 8
  let _ ← BitMachine.ue
  let (format, separate) ← chroma profile
  let _ ← BitMachine.ue
  skipPictureOrder
  let _ ← BitMachine.ue
  let _ ← BitMachine.bit
  let columns ← BitMachine.ue
  let columns ← unsigned 64 (columns + 1)
  let rows ← BitMachine.ue
  let rows ← unsigned 64 (rows + 1)
  let framesOnly ← BitMachine.bit
  if !framesOnly then
    let _ ← BitMachine.bit
  let _ ← BitMachine.bit
  let (left, right, top, bottom) ← cropping
  let fields := if framesOnly then 1 else 2
  let (across, down) := cropUnits format separate fields
  let down ← unsigned 64 down
  let sides ← unsigned 64 (left + right)
  let width ← shown columns 16 across sides
  let fieldRows ← unsigned 64 (fields * rows)
  let ends ← unsigned 64 (top + bottom)
  let height ← shown fieldRows 16 down ends
  return {
    profile := .ofNat profile
    level := .ofNat level
    chromaFormat := format
    width := .ofNat width
    height := .ofNat height }

end OnRegisters

/-- Read a parameter set on registers. -/
def decodeOnRegisters (bytes : List UInt8) : Except Halt AvcSps := do
  let payload ← Emulation.removeCounting (2 ^ 31) 0 bytes
  OnRegisters.reader.from? payload

/-! ### What can overflow -/

variable {data : List UInt8} {c : BitCursor}

/-- A scaling list is passed over on registers as on a cursor, where its sums stay in range. -/
theorem follows_scalingList (n : Nat) (last next : Int) :
    Follows data (OnRegisters.skipScalingList n last next) (skipScalingList n last next)
      (listSums n last next c) c := by
  induction n generalizing last next c with
  | zero => exact (Copies.pure ()).follows
  | succ n ih =>
    rw [OnRegisters.skipScalingList, skipScalingList, listSums]
    split
    · exact ih last next
    · refine copies_se.bind_follows fun delta c' _ => ?_
      exact follows_int32 (follows_int32 (ih _ _))

/-- So are all scaling lists of a matrix. -/
theorem follows_scalingLists (sizes : List Nat) :
    Follows data (OnRegisters.skipScalingLists sizes) (skipScalingLists sizes)
      (listsSums sizes c) c := by
  induction sizes generalizing c with
  | nil => exact (Copies.pure ()).follows
  | cons size rest ih =>
    rw [OnRegisters.skipScalingLists, skipScalingLists, listsSums]
    refine copies_bit.bind_follows fun isThere c' _ => ?_
    cases isThere with
    | true => exact (follows_scalingList size 8 8).bind fun _ c'' _ => ih
    | false => exact ih

/-- Only the profiles that describe their chroma have sums that may leave their range. -/
theorem follows_chroma (profile : Nat) :
    Follows data (OnRegisters.chroma profile) (chroma profile) (chromaSums profile c) c := by
  unfold OnRegisters.chroma chroma chromaSums
  split
  · refine copies_ue.bind_follows fun format _ _ => ?_
    refine Copies.ifElse_follows copies_bit (Copies.pure false) fun separate _ => ?_
    refine copies_ue.bind_follows fun _ _ _ => copies_ue.bind_follows fun _ _ _ =>
      copies_bit.bind_follows fun _ _ _ => copies_bit.bind_follows fun isThere c' _ => ?_
    -- the lists are read if they are there, and only they can leave the range
    cases isThere with
    | true => exact (follows_scalingLists _).bind_copies fun _ _ _ => Copies.pure _
    | false => exact (Copies.pure _).follows
  · exact (Copies.pure _).follows

theorem copies_signed (n : Nat) : Copies data (OnRegisters.skipSigned n) (skipSigned n) c := by
  induction n generalizing c with
  | zero => exact Copies.pure ()
  | succ n ih => exact copies_se.bind fun _ _ _ => ih

/-- No operation on the order of pictures overflows. -/
theorem copies_pictureOrder : Copies data OnRegisters.skipPictureOrder skipPictureOrder c := by
  refine copies_ue.bind fun kind _ _ => ?_
  split
  · exact copies_ue.bind fun _ _ _ => Copies.pure ()
  · split
    · exact copies_bit.bind fun _ _ _ => copies_se.bind fun _ _ _ => copies_se.bind fun _ _ _ =>
        copies_ue.bind fun cycle _ _ => copies_signed cycle
    · exact Copies.pure ()

/-- Nor does one on the margins. -/
theorem copies_cropping : Copies data OnRegisters.cropping cropping c := by
  refine copies_bit.bind fun isThere _ _ => ?_
  split
  · exact copies_ue.bind fun _ _ _ => copies_ue.bind fun _ _ _ => copies_ue.bind fun _ _ _ =>
      copies_ue.bind fun _ _ _ => Copies.pure _
  · exact Copies.pure _

/-- Margins are Exp-Golomb codes, which are below 2 ^ 32. -/
theorem cropping_lt {left right top bottom : Nat} {c' : BitCursor}
    (h : cropping c = .ok (left, right, top, bottom) c') :
    left < 2 ^ 32 ∧ right < 2 ^ 32 ∧ top < 2 ^ 32 ∧ bottom < 2 ^ 32 := by
  obtain ⟨isThere, c₁, -, h⟩ := BitTake.exists_of_bind_ok h
  split at h
  · obtain ⟨l, c₂, hleft, h⟩ := BitTake.exists_of_bind_ok h
    obtain ⟨r, c₃, hright, h⟩ := BitTake.exists_of_bind_ok h
    obtain ⟨t, c₄, htop, h⟩ := BitTake.exists_of_bind_ok h
    obtain ⟨b, c₅, hbottom, h⟩ := BitTake.exists_of_bind_ok h
    have hl := BitTake.ue_lt hleft
    have hr := BitTake.ue_lt hright
    have ht := BitTake.ue_lt htop
    have hb := BitTake.ue_lt hbottom
    cases h
    omega
  -- without cropping all margins are 0
  · cases h
    decide

/-- A margin counts for two columns and four rows at most. -/
theorem cropUnits_le (format : Nat) (separate framesOnly : Bool) :
    (cropUnits format separate (if framesOnly then 1 else 2)).1 ≤ 2 ∧
      (cropUnits format separate (if framesOnly then 1 else 2)).2 ≤ 4 := by
  unfold cropUnits
  cases framesOnly <;> repeat' split
  all_goals simp

/-- What is shown of a picture is worked out in 64 bits without loss. -/
theorem shown_of_lt {count unit units margins : Nat} (hwhole : count * unit < 2 ^ 64)
    (hcut : units * margins < 2 ^ 64) :
    OnRegisters.shown count unit units margins = pure (count * unit - units * margins) := by
  rw [OnRegisters.shown, unsigned_of_lt hwhole, pure_bind, unsigned_of_lt hcut, pure_bind]

/-- The whole reader follows on registers; the sums of its scaling lists are all that may go wrong.
-/
theorem follows_reader (hdata : data.length * 8 < 2 ^ 64) :
    Follows data OnRegisters.reader reader (readerSums c) c := by
  refine (copies_bits 8).bind_follows fun profile _ _ => ?_
  refine (copies_skip hdata 8).bind_follows fun _ _ _ => ?_
  refine (copies_bits 8).bind_follows fun level _ _ => ?_
  refine copies_ue.bind_follows fun _ _ _ => ?_
  refine (follows_chroma profile).bind_copies ?_
  rintro ⟨format, separate⟩ _ -
  refine copies_ue.bind fun _ _ _ => ?_
  refine copies_pictureOrder.bind fun _ _ _ => ?_
  refine copies_ue.bind fun _ _ _ => ?_
  refine copies_bit.bind fun _ _ _ => ?_
  refine copies_ue.bind fun columns _ hcolumns => ?_
  have hcolumns := BitTake.ue_lt hcolumns
  rw [unsigned_of_lt (by omega), pure_bind]
  refine copies_ue.bind fun rows _ hrows => ?_
  have hrows := BitTake.ue_lt hrows
  rw [unsigned_of_lt (by omega), pure_bind]
  refine copies_bit.bind fun framesOnly _ _ => ?_
  refine copies_bit.ifThen fun c₁ => ?_
  refine copies_bit.bind fun _ _ _ => ?_
  refine copies_cropping.bind ?_
  rintro ⟨left, right, top, bottom⟩ c₂ hcropping
  obtain ⟨hleft, hright, htop, hbottom⟩ := cropping_lt hcropping
  obtain ⟨hacross, hdown⟩ := cropUnits_le format separate framesOnly
  have hfields : (if framesOnly = true then 1 else 2) ≤ 2 := by split <;> omega
  dsimp only
  generalize (if framesOnly = true then 1 else 2) = fields at hacross hdown hfields ⊢
  generalize cropUnits format separate fields = units at hacross hdown ⊢
  -- the products are of a small number and one of 33 bits
  have hwidth : units.1 * (left + right) ≤ 2 * 2 ^ 33 := Nat.mul_le_mul hacross (by omega)
  have hheight : units.2 * (top + bottom) ≤ 4 * 2 ^ 33 := Nat.mul_le_mul hdown (by omega)
  have hrows : fields * (rows + 1) ≤ 2 * 2 ^ 32 := Nat.mul_le_mul hfields (by omega)
  rw [unsigned_of_lt (by omega), pure_bind, unsigned_of_lt (by omega), pure_bind,
    shown_of_lt (by omega) (by omega), pure_bind, unsigned_of_lt (by omega), pure_bind,
    unsigned_of_lt (by omega), pure_bind, shown_of_lt (by omega) (by omega), pure_bind]
  exact Copies.pure _

/-- A payload whose bits cannot be counted. -/
theorem reader_of_long (hdata : 2 ^ 64 ≤ data.length * 8) :
    OnRegisters.reader.from? data = .error .overflow := by
  cases data with
  | nil => exact absurd hdata (by decide)
  | cons b rest =>
    have hread : BitTake.bits 8 (.ofBytes (b :: rest)) = .ok b.toNat ⟨Bits.ofBytes rest, 8⟩ := by
      rw [BitCursor.ofBytes, Bits.ofBytes_cons]
      exact BitTake.Reads.byte b (Bits.ofBytes rest) 0
    -- the profile can still be read; the first skip cannot say how many bits there are
    refine from?_of_overflow ((copies_bits 8).bind_overflow hread (fun r hr => ?_) (.initial _))
    rw [← hr.data_eq] at hdata
    refine ⟨r, ?_⟩
    show EStateM.bind (BitMachine.skip 8) _ r = _
    rw [EStateM.bind, skip_of_long hdata]

/-- A run on registers comes to the same, unless something is out of range. -/
theorem decodeOnRegisters_cases (bytes : List UInt8) :
    (InRange bytes ∧ decodeOnRegisters bytes = (decode bytes).mapError .fault) ∨
      (¬InRange bytes ∧ decodeOnRegisters bytes = .error .overflow) := by
  have hcount := Emulation.removeCounting_cases (show 0 < 2 ^ 31 by decide) bytes
  rw [List.replicate_zero, List.nil_append] at hcount
  unfold decodeOnRegisters
  -- three ways out of range: the run of zeros, the position, and the sums of the scaling lists
  obtain ⟨hrun, hover⟩ | ⟨hrun, hok⟩ := hcount
  · exact .inr ⟨fun h => h.zeros hrun, by rw [hover]; rfl⟩
  rw [hok]
  show _ ∧ OnRegisters.reader.from? (Emulation.remove bytes) = _ ∨ _
  obtain hlength | hlong := Nat.lt_or_ge ((Emulation.remove bytes).length * 8) (2 ^ 64)
  · obtain ⟨hfits, hout⟩ := follows_reader hlength _ (.initial _)
    by_cases hsums : ∀ v ∈ scalingSums bytes, IsInt32 v
    · exact .inl ⟨⟨hrun, hlength, hsums⟩, (hfits hsums).from?⟩
    · refine .inr ⟨fun h => hsums h.sums, from?_of_overflow (hout ?_)⟩
      push Not at hsums
      exact hsums
  · exact .inr ⟨fun h => absurd h.length (Nat.not_lt.2 hlong), reader_of_long hlong⟩

end LiveIngest.Codec.AvcSps
