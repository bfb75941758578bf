import LiveIngest.Proofs.Bytes.Masks
import LiveIngest.Proofs.Codec.Positions
import LiveIngest.Proofs.Codec.Units

/-!
# Configuration records, written again

What a record says is written without loss: reading what was written gives the same record. The
bytes are those that were read, but for reserved bits, bits that are not used, and what an `hvcC`
record has behind its arrays (`AvcRecord.rewritten`, `HevcRecord.rewritten`,
`Av1Record.rewritten`).

Counts and lengths have 8 or 16 bits and are cut to them when they are written. None that was read
is too large: for each kind of record, `parse_eq_ok_iff` has the bytes that are read as a record,
with all its counts within their fields.

Main statement: `records_survive` — all three kinds of records survive, and reading them looks up no
byte that is not there.
-/

namespace LiveIngest.Codec

/-- A kind of record survives on `bytes`: if they are read as a record, it is written so that the
same record is read again, its size is that of what is written, and what is written are the bytes
as `rewritten` has them. Whether they are or not, the reader by position comes to the same, and
looks up nothing that is not there. -/
structure Survives {α : Type} (parse : List UInt8 → Except Fault α)
    (parseAt : List UInt8 → Except Halt α) (serialize : α → List UInt8) (size : α → Nat)
    (rewritten : α → List UInt8 → List UInt8) (bytes : List UInt8) : Prop where
  again : ∀ r, parse bytes = .ok r → parse (serialize r) = .ok r
  size_eq : ∀ r, parse bytes = .ok r → size r = (serialize r).length
  bytes_eq : ∀ r, parse bytes = .ok r → serialize r = rewritten r bytes
  parseAt_eq : parseAt bytes = (parse bytes).mapError .fault
  inBounds : parseAt bytes ≠ .error .outOfBounds

/-- Survival of the records that are read, and agreement of the two readers, are enough. -/
theorem Survives.of_parse {α : Type} {parse : List UInt8 → Except Fault α}
    {parseAt : List UInt8 → Except Halt α} {serialize : α → List UInt8} {size : α → Nat}
    {rewritten : α → List UInt8 → List UInt8} {bytes : List UInt8}
    (hparseAt : parseAt bytes = (parse bytes).mapError .fault)
    (h : ∀ r, parse bytes = .ok r → parse (serialize r) = .ok r ∧
      size r = (serialize r).length ∧ serialize r = rewritten r bytes) :
    Survives parse parseAt serialize size rewritten bytes where
  again r hr := (h r hr).1
  size_eq r hr := (h r hr).2.1
  bytes_eq r hr := (h r hr).2.2
  parseAt_eq := hparseAt
  inBounds hout := by
    rw [hparseAt] at hout
    cases hparse : parse bytes <;> rw [hparse] at hout <;> cases hout

/-! ### H.264 -/

namespace AvcRecord

/-- The bytes of a record, of which two hold reserved bits. -/
def bytesWith (r : AvcRecord) (lengthByte spsByte : UInt8) : List UInt8 :=
  [r.version, r.profile, r.compatibility, r.level, lengthByte, spsByte] ++ writeUnits r.sps ++
    UInt8.ofNat r.pps.length :: writeUnits r.pps ++ r.extension

/-- What a record says when its two bytes with reserved bits are these. -/
structure SaidBy (r : AvcRecord) (lengthByte spsByte : UInt8) : Prop where
  version : r.version = 1
  lengthSize : lengthByte &&& 0x03 = r.lengthSizeMinusOne
  spsCount : r.sps.length = (spsByte &&& 0x1f).toNat
  ppsCount : r.pps.length < 256
  sps : ∀ unit ∈ r.sps, unit.length < 256 ^ 2
  pps : ∀ unit ∈ r.pps, unit.length < 256 ^ 2

/-- Exactly these bytes are read as the record: two of them have free bits. -/
theorem parse_eq_ok_iff {bytes : List UInt8} {r : AvcRecord} :
    parse bytes = .ok r ↔ ∃ lengthByte spsByte,
      r.SaidBy lengthByte spsByte ∧ bytes = r.bytesWith lengthByte spsByte := by
  constructor
  · -- what was parsed: the bytes are put together again from the two runs of units
    intro h
    unfold parse at h
    split at h
    · rename_i version profile compatibility level lengthByte spsByte next rest
      split at h
      · cases h
      · rename_i hversion
        obtain ⟨⟨sps, left⟩, hsps, h⟩ := ok_of_bind h
        obtain ⟨hspsCount, hspsLengths, hleft⟩ := readUnits_eq_ok_iff.1 hsps
        dsimp only at h
        split at h
        · cases h
        · rename_i ppsCount behind
          obtain ⟨⟨pps, extension⟩, hpps, h⟩ := ok_of_bind h
          obtain ⟨hppsCount, hppsLengths, hbehind⟩ := readUnits_eq_ok_iff.1 hpps
          obtain rfl := Except.ok.inj h
          have hcount : pps.length < 256 := hppsCount ▸ ppsCount.toNat_lt
          refine ⟨lengthByte, spsByte,
            ⟨not_not.1 hversion, rfl, hspsCount, hcount, hspsLengths, hppsLengths⟩, ?_⟩
          rw [bytesWith, hppsCount, UInt8.ofNat_toNat, hleft, hbehind]
          simp only [List.cons_append, List.nil_append, List.append_assoc]
    · cases h
  · -- what was written: only the head needs a look, since units are read as they are written
    rintro ⟨lengthByte, spsByte, ⟨hversion, hlengthSize, hspsCount, hppsCount, hsps, hpps⟩, rfl⟩
    have hcount : (UInt8.ofNat r.pps.length).toNat = r.pps.length :=
      UInt8.toNat_ofNat_of_lt' hppsCount
    have hspsRead : readUnits .avcC .sps (spsByte &&& 0x1f).toNat (writeUnits r.sps ++
        (UInt8.ofNat r.pps.length :: (writeUnits r.pps ++ r.extension))) = .ok (r.sps, _) :=
      readUnits_eq_ok_iff.2 ⟨hspsCount, hsps, rfl⟩
    have hppsRead : readUnits .avcC .pps (UInt8.ofNat r.pps.length).toNat
        (writeUnits r.pps ++ r.extension) = .ok (r.pps, r.extension) :=
      readUnits_eq_ok_iff.2 ⟨hcount.symm, hpps, rfl⟩
    -- the parser wants a byte behind its six, and there is one whatever the sets are
    have hparse : parse (r.bytesWith lengthByte spsByte) =
        parseSets r.version r.profile r.compatibility r.level lengthByte spsByte
          (writeUnits r.sps ++
            (UInt8.ofNat r.pps.length :: (writeUnits r.pps ++ r.extension))) := by
      rw [bytesWith]
      simp only [List.cons_append, List.nil_append, List.append_assoc]
      generalize hbody : writeUnits r.sps ++
        (UInt8.ofNat r.pps.length :: (writeUnits r.pps ++ r.extension)) = body
      cases body with
      | nil => exact absurd hbody (by simp)
      | cons next rest => exact if_neg (not_not_intro hversion)
    rw [hparse, parseSets, hspsRead]
    show (readUnits .avcC .pps (UInt8.ofNat r.pps.length).toNat _ >>= _) = _
    rw [hppsRead]
    show Except.ok _ = _
    rw [hlengthSize]

/-- Reserved bits are written as ones. -/
theorem serialize_eq {r : AvcRecord} {lengthByte spsByte : UInt8}
    (h : r.SaidBy lengthByte spsByte) :
    r.serialize = r.bytesWith (0xfc ||| lengthByte) (0xe0 ||| spsByte) := by
  have hlengthByte : 0xfc ||| (lengthByte &&& 0x03) = 0xfc ||| lengthByte :=
    Bytes.or_and_of_cover rfl lengthByte
  have hspsByte : 0xe0 ||| (spsByte &&& 0x1f &&& 0x1f) = 0xe0 ||| spsByte := by
    rw [Bytes.and_and_of_within rfl, Bytes.or_and_of_cover rfl]
  rw [serialize, bytesWith, ← h.lengthSize, h.spsCount, UInt8.ofNat_toNat, hlengthByte, hspsByte]

/-- The free bits may be set, as they are when the record is written. -/
theorem SaidBy.rewritten {r : AvcRecord} {lengthByte spsByte : UInt8}
    (h : r.SaidBy lengthByte spsByte) : r.SaidBy (0xfc ||| lengthByte) (0xe0 ||| spsByte) := by
  have hlengthByte : (0xfc ||| lengthByte) &&& 0x03 = lengthByte &&& 0x03 :=
    Bytes.or_and_of_disjoint rfl lengthByte
  have hspsByte : (0xe0 ||| spsByte) &&& 0x1f = spsByte &&& 0x1f :=
    Bytes.or_and_of_disjoint rfl spsByte
  exact { h with
    lengthSize := hlengthByte.trans h.lengthSize
    spsCount := h.spsCount.trans (congrArg UInt8.toNat hspsByte.symm) }

/-- The size is worked out without writing the record. -/
theorem size_eq_length (r : AvcRecord) : r.size = r.serialize.length := by
  rw [size, serialize, ← length_writeUnits, ← length_writeUnits]
  simp only [List.length_append, List.length_cons, List.length_nil]
  omega

/-- The bytes of a record with all reserved bits set. -/
def rewritten (bytes : List UInt8) : List UInt8 :=
  (bytes.modify 4 (0xfc ||| ·)).modify 5 (0xe0 ||| ·)

/-- **Records of H.264 survive.** -/
theorem survives (bytes : List UInt8) :
    Survives parse parseAt serialize size (fun _ => rewritten) bytes :=
  .of_parse (parseAt_eq bytes) fun r h => by
    obtain ⟨lengthByte, spsByte, hsaid, rfl⟩ := parse_eq_ok_iff.1 h
    have hwritten := serialize_eq hsaid
    exact ⟨parse_eq_ok_iff.2 ⟨_, _, hsaid.rewritten, hwritten⟩, size_eq_length r, hwritten⟩

end AvcRecord

/-! ### H.265 -/

namespace HevcRecord

/-- What an array of these units says behind a first byte. -/
def arrayOf (head : UInt8) (units : List (List UInt8)) : HevcArray :=
  { isComplete := head &&& 0x80 != 0, type := head &&& 0x3f, units }

def arrayBytes (head : UInt8) (units : List (List UInt8)) : List UInt8 :=
  head :: (Bytes.bigEndian 2 units.length ++ writeUnits units)

/-- Bytes begin with arrays; anything may follow. -/
inductive Begins : List UInt8 → List HevcArray → Prop
  | nil (rest : List UInt8) : Begins rest []
  | cons (head : UInt8) {units : List (List UInt8)} {rest : List UInt8} {arrays : List HevcArray}
    (hcount : units.length < 256 ^ 2) (hunits : ∀ unit ∈ units, unit.length < 256 ^ 2)
    (h : Begins rest arrays) : Begins (arrayBytes head units ++ rest) (arrayOf head units :: arrays)

/-- Arrays are read exactly off the bytes that begin with them. -/
theorem parseArrays_eq_ok_iff {n : Nat} {bytes : List UInt8} {arrays : List HevcArray} :
    parseArrays n bytes = .ok arrays ↔ arrays.length = n ∧ Begins bytes arrays := by
  constructor
  · -- along the parser, which takes one array at a time
    intro h
    induction n, bytes using parseArrays.induct generalizing arrays with
    | case1 bytes =>
      obtain rfl := Except.ok.inj h
      exact ⟨rfl, .nil bytes⟩
    | case2 n head high low rest ih =>
      obtain ⟨⟨units, left⟩, hunits, h⟩ := ok_of_bind h
      obtain ⟨others, hothers, h⟩ := ok_of_bind h
      obtain rfl := Except.ok.inj h
      obtain ⟨rfl, hbegins⟩ := ih left hothers
      obtain ⟨hcount, hlengths, rfl⟩ := readUnits_eq_ok_iff.1 hunits
      have hprefix : [high, low] = Bytes.bigEndian 2 units.length := by
        rw [hcount]
        exact (Bytes.bigEndian_ofBigEndian [high, low]).symm
      have hbytes : head :: high :: low :: (writeUnits units ++ left) =
          arrayBytes head units ++ left := by
        rw [arrayBytes, ← hprefix]
        rfl
      rw [hbytes]
      exact ⟨rfl, .cons head (hcount ▸ Bytes.ofBigEndian_lt [high, low]) hlengths hbegins⟩
    | case3 n bytes hshort =>
      rw [parseArrays.eq_3 bytes n hshort] at h
      cases h
  · -- along the bytes, which begin with one array at a time
    rintro ⟨rfl, h⟩
    induction h with
    | nil rest => rfl
    | @cons head units rest arrays hcount hunits _ ih =>
      obtain ⟨high, low, hprefix, hsize⟩ := exists_lengthBytes hcount
      have hread : readUnits .hvcC .nal (Bytes.ofBigEndian [high, low]) (writeUnits units ++ rest) =
          .ok (units, rest) := readUnits_eq_ok_iff.2 ⟨hsize.symm, hunits, rfl⟩
      have hbytes : arrayBytes head units ++ rest =
          head :: high :: low :: (writeUnits units ++ rest) := by
        rw [arrayBytes, hprefix]
        rfl
      rw [hbytes, List.length_cons, parseArrays, hread]
      show (parseArrays arrays.length rest >>= _) = _
      rw [ih]
      rfl

/-- The size of a unit has 16 bits. -/
theorem Begins.length_lt {bytes : List UInt8} {arrays : List HevcArray} (h : Begins bytes arrays) :
    ∀ a ∈ arrays, ∀ unit ∈ a.units, unit.length < 256 ^ 2 := by
  induction h with
  | nil rest => exact fun _ hmem => absurd hmem List.not_mem_nil
  | cons head hcount hunits _ ih => exact List.forall_mem_cons.2 ⟨hunits, ih⟩

/-- The bit that is not used is written as zero. -/
theorem writeArray_arrayOf (head : UInt8) (units : List (List UInt8)) :
    writeArray (arrayOf head units) = arrayBytes (head &&& 0xbf) units := by
  have hhead : ((head &&& 0x80 != 0).toUInt8 <<< 7) ||| (head &&& 0x3f &&& 0x3f) =
      head &&& 0xbf := by
    rw [Bytes.flag_shiftLeft (m := 0x80) (i := 7) rfl, Bytes.and_and_of_within rfl,
      Bytes.and_or_and]
    rfl
  exact congrArg (· :: _) hhead

/-- The bit that is not used says nothing. -/
theorem arrayOf_and (head : UInt8) (units : List (List UInt8)) :
    arrayOf (head &&& 0xbf) units = arrayOf head units := by
  have htype : head &&& 0xbf &&& 0x3f = head &&& 0x3f := Bytes.and_and_of_within rfl head
  have hcomplete : head &&& 0xbf &&& 0x80 = head &&& 0x80 := Bytes.and_and_of_within rfl head
  rw [arrayOf, arrayOf, htype, hcomplete]

/-- Arrays are written so that they are read again. -/
theorem Begins.written {bytes : List UInt8} {arrays : List HevcArray} (h : Begins bytes arrays) :
    Begins (arrays.flatMap writeArray) arrays := by
  induction h with
  | nil rest => exact .nil []
  | @cons head units rest arrays hcount hunits _ ih =>
    rw [List.flatMap_cons, writeArray_arrayOf, ← arrayOf_and]
    exact .cons _ hcount hunits ih

/-- The positions of the first bytes of arrays that stand at `offset`. -/
def heads : (offset : Nat) → List HevcArray → List Nat
  | _, [] => []
  | offset, a :: rest => offset :: heads (offset + 3 + unitsSize a.units) rest

def arraysSize (arrays : List HevcArray) : Nat :=
  arrays.foldr (fun a size => 3 + unitsSize a.units + size) 0

/-- Bytes with the unused bit of each array's first byte cleared. -/
def cleared (positions : List Nat) (bytes : List UInt8) : List UInt8 :=
  bytes.mapIdx fun i b => if i ∈ positions then b &&& 0xbf else b

/-- The head of an array is not before the first array. -/
theorem le_of_mem_heads {i offset : Nat} {arrays : List HevcArray}
    (h : i ∈ heads offset arrays) : offset ≤ i := by
  induction arrays generalizing offset with
  | nil => exact absurd h List.not_mem_nil
  | cons a rest ih =>
    obtain rfl | h := List.mem_cons.1 h
    · exact Nat.le_refl i
    · have := ih h
      omega

/-- The heads of arrays that stand later by `k`. -/
theorem mem_heads_add {i k offset : Nat} {arrays : List HevcArray} :
    i + k ∈ heads (offset + k) arrays ↔ i ∈ heads offset arrays := by
  induction arrays generalizing offset with
  | nil => exact iff_of_false List.not_mem_nil List.not_mem_nil
  | cons a rest ih =>
    have hshift : offset + k + 3 + unitsSize a.units = offset + 3 + unitsSize a.units + k := by
      omega
    rw [heads, heads, List.mem_cons, List.mem_cons, hshift, ih, Nat.add_right_cancel_iff]

/-- What stands in front of the arrays is left alone, and they are cleared as if at the start. -/
theorem cleared_append (front back : List UInt8) (arrays : List HevcArray) :
    cleared (heads front.length arrays) (front ++ back) =
      front ++ cleared (heads 0 arrays) back := by
  -- no head stands in the front part, and those behind it are moved by its length
  have hfront : front.mapIdx
      (fun i b => if i ∈ heads front.length arrays then b &&& 0xbf else b) = front := by
    refine List.ext_getElem List.length_mapIdx fun i hi hi' => ?_
    rw [List.getElem_mapIdx, if_neg fun hmem => absurd (le_of_mem_heads hmem) (by omega)]
  have hback (i : Nat) : i + front.length ∈ heads front.length arrays ↔ i ∈ heads 0 arrays := by
    have hadd : i + front.length ∈ heads (0 + front.length) arrays ↔ i ∈ heads 0 arrays :=
      mem_heads_add
    rwa [Nat.zero_add] at hadd
  rw [cleared, List.mapIdx_append, hfront, cleared]
  simp only [hback]

/-- An array's first byte is cleared at its own place. -/
theorem cleared_cons {positions : List Nat} (h : 0 ∉ positions) (b : UInt8) (bytes : List UInt8) :
    cleared (0 :: positions) (b :: bytes) = cleared positions ((b &&& 0xbf) :: bytes) := by
  have hlater (i : Nat) : i + 1 ∈ 0 :: positions ↔ i + 1 ∈ positions :=
    List.mem_cons.trans (or_iff_right (Nat.succ_ne_zero i))
  rw [cleared, cleared, List.mapIdx_cons, List.mapIdx_cons, if_pos List.mem_cons_self, if_neg h]
  simp only [hlater]

theorem length_arrayBytes (head : UInt8) (units : List (List UInt8)) :
    (arrayBytes head units).length = 3 + unitsSize units := by
  rw [arrayBytes, List.length_cons, List.length_append, Bytes.length_bigEndian, length_writeUnits]
  omega

/-- Arrays are written as they were read, up to the bits that are not used. -/
theorem Begins.flatMap_writeArray {bytes : List UInt8} {arrays : List HevcArray}
    (h : Begins bytes arrays) : arrays.flatMap writeArray =
      cleared (heads 0 arrays) (bytes.take (arraysSize arrays)) := by
  induction h with
  | nil rest => rfl
  | @cons head units rest arrays hcount hunits _ ih =>
    have htake : (arrayBytes head units ++ rest).take (arraysSize (arrayOf head units :: arrays)) =
        arrayBytes head units ++ rest.take (arraysSize arrays) := by
      show (arrayBytes head units ++ rest).take (3 + unitsSize units + arraysSize arrays) = _
      rw [← length_arrayBytes head units, List.take_length_add_append]
    have hheads : heads 0 (arrayOf head units :: arrays) =
        0 :: heads (arrayBytes (head &&& 0xbf) units).length arrays := by
      rw [length_arrayBytes]
      show 0 :: heads (0 + 3 + unitsSize units) arrays = _
      rw [Nat.zero_add]
    -- the bit of the first head is cleared by itself: the other heads are further behind
    have hout : 0 ∉ heads (arrayBytes (head &&& 0xbf) units).length arrays := fun hmem => by
      have := le_of_mem_heads hmem
      rw [length_arrayBytes] at this
      omega
    rw [List.flatMap_cons, writeArray_arrayOf, ih, htake, hheads, ← cleared_append]
    exact (cleared_cons hout head _).symm

theorem length_writeArray (a : HevcArray) : (writeArray a).length = 3 + unitsSize a.units :=
  length_arrayBytes _ a.units

/-- The size of a record, whose fixed part has always the same length. -/
theorem size_eq_length (r : HevcRecord) (h : r.fixed.length = fixedSize) :
    r.size = r.serialize.length := by
  have harrays : (r.arrays.flatMap writeArray).length = arraysSize r.arrays := by
    induction r.arrays with
    | nil => rfl
    | cons a rest ih =>
      rw [List.flatMap_cons, List.length_append, length_writeArray, ih]
      rfl
  rw [serialize, List.length_append, List.length_cons, h, harrays, size]
  show _ + arraysSize r.arrays = _
  omega

/-- What a record says whose arrays begin `rest`. -/
structure SaidBy (r : HevcRecord) (rest : List UInt8) : Prop where
  fixed : r.fixed.length = fixedSize
  version : r.fixed.headD 0 = 1
  count : r.arrays.length < 256
  arrays : Begins rest r.arrays

/-- Exactly these bytes are read as the record: the fixed part, the number of arrays, and what
begins with them. -/
theorem parse_eq_ok_iff {bytes : List UInt8} {r : HevcRecord} :
    parse bytes = .ok r ↔
      ∃ rest, r.SaidBy rest ∧ bytes = r.fixed ++ UInt8.ofNat r.arrays.length :: rest := by
  constructor
  · intro h
    unfold parse at h
    split at h
    · rename_i count rest hdrop
      dsimp only at h
      split at h
      · cases h
      · rename_i hversion
        obtain ⟨arrays, harrays, rfl⟩ := ok_of_map h
        obtain ⟨hcount, hbegins⟩ := parseArrays_eq_ok_iff.1 harrays
        -- the first bytes are all there, since something follows them
        have hfixed : (bytes.take fixedSize).length = fixedSize := by
          have := congrArg List.length hdrop
          rw [List.length_drop, List.length_cons] at this
          rw [List.length_take]
          omega
        have hhead : (bytes.take fixedSize).headD 0 = bytes.headD 0 := by
          cases bytes <;> rfl
        refine ⟨rest,
          ⟨hfixed, hhead.trans (not_not.1 hversion), hcount ▸ count.toNat_lt, hbegins⟩, ?_⟩
        rw [hcount, UInt8.ofNat_toNat, ← hdrop, List.take_append_drop]
    · cases h
  · rintro ⟨rest, ⟨hfixed, hversion, hcount, hbegins⟩, rfl⟩
    have hdrop : (r.fixed ++ UInt8.ofNat r.arrays.length :: rest).drop fixedSize =
        UInt8.ofNat r.arrays.length :: rest := List.drop_left' hfixed
    have htake : (r.fixed ++ UInt8.ofNat r.arrays.length :: rest).take fixedSize = r.fixed :=
      List.take_left' hfixed
    have hhead : (r.fixed ++ UInt8.ofNat r.arrays.length :: rest).headD 0 = 1 := by
      obtain ⟨head, tail, hcons⟩ := List.exists_cons_of_length_eq_add_one hfixed
      rw [hcons] at hversion ⊢
      exact hversion
    have harrays : parseArrays (UInt8.ofNat r.arrays.length).toNat rest = .ok r.arrays :=
      parseArrays_eq_ok_iff.2 ⟨(UInt8.toNat_ofNat_of_lt' hcount).symm, hbegins⟩
    unfold parse
    rw [hdrop]
    dsimp only
    rw [hhead, if_neg (not_not_intro rfl), harrays, htake]
    rfl

/-- The bytes of a record with these arrays, up to the end of the last one. -/
def rewritten (r : HevcRecord) (bytes : List UInt8) : List UInt8 :=
  cleared (heads (fixedSize + 1) r.arrays) (bytes.take r.size)

/-- What is written differs from what was read in the reserved bit of each array alone. -/
theorem serialize_eq {r : HevcRecord} {rest : List UInt8} (h : r.SaidBy rest) :
    r.serialize = r.rewritten (r.fixed ++ UInt8.ofNat r.arrays.length :: rest) := by
  -- the fixed part and the count stand in front of all heads
  have hfront : (r.fixed ++ [UInt8.ofNat r.arrays.length]).length = fixedSize + 1 := by
    rw [List.length_append, h.fixed]
    rfl
  have hbytes (tail : List UInt8) : r.fixed ++ UInt8.ofNat r.arrays.length :: tail =
      (r.fixed ++ [UInt8.ofNat r.arrays.length]) ++ tail := by
    rw [List.append_assoc]
    rfl
  rw [serialize, rewritten, hbytes rest, hbytes (r.arrays.flatMap writeArray), size, ← hfront,
    ← arraysSize, List.take_length_add_append, cleared_append, h.arrays.flatMap_writeArray]

/-- **Records of H.265 survive.** -/
theorem survives (bytes : List UInt8) :
    Survives parse parseAt serialize size rewritten bytes :=
  .of_parse (parseAt_eq bytes) fun r h => by
    obtain ⟨rest, hsaid, rfl⟩ := parse_eq_ok_iff.1 h
    have hwritten : r.SaidBy (r.arrays.flatMap writeArray) :=
      { hsaid with arrays := hsaid.arrays.written }
    exact ⟨parse_eq_ok_iff.2 ⟨_, hwritten, rfl⟩, size_eq_length r hsaid.fixed, serialize_eq hsaid⟩

end HevcRecord

/-! ### AV1 -/

namespace Av1Record

/-- What the four bytes of a record say. -/
def said (profileByte flags delay : UInt8) (obus : List UInt8) : Av1Record where
  profile := profileByte >>> 5
  level := profileByte &&& 0x1f
  tier := flags &&& 0x80 != 0
  highBitDepth := flags &&& 0x40 != 0
  twelveBit := flags &&& 0x20 != 0
  monochrome := flags &&& 0x10 != 0
  subsamplingX := flags &&& 0x08 != 0
  subsamplingY := flags &&& 0x04 != 0
  samplePosition := flags &&& 0x03
  delayMinusOne := if delay &&& 0x10 != 0 then some (delay &&& 0x0f) else none
  obus := obus

/-- Exactly these bytes are read as the record: a marker with the version, three bytes of fields and
the OBUs. -/
theorem parse_eq_ok_iff {bytes : List UInt8} {r : Av1Record} :
    parse bytes = .ok r ↔ ∃ profileByte flags delay obus,
      bytes = 0x81 :: profileByte :: flags :: delay :: obus ∧
        r = said profileByte flags delay obus := by
  constructor
  · intro h
    unfold parse at h
    split at h
    · rename_i head profileByte flags delay obus
      split at h
      · cases h
      · rename_i hmarker
        split at h
        · cases h
        · rename_i hversion
          obtain rfl := Except.ok.inj h
          -- marker and version fill the byte, so that only one value is left for it
          have hset : head &&& 0x80 = 0x80 :=
            (Bytes.flag_cases (i := 7) rfl head).resolve_left hmarker
          have hhead : (head &&& 0x80) ||| (head &&& 0x7f) = head := by
            rw [Bytes.and_or_and]
            exact Bytes.and_all head
          rw [hset, not_not.1 hversion] at hhead
          obtain rfl : head = 0x81 := hhead.symm
          exact ⟨profileByte, flags, delay, obus, rfl, rfl⟩
    · cases h
  · rintro ⟨profileByte, flags, delay, obus, rfl, rfl⟩
    rfl

/-- The byte of the delay with its reserved bits cleared, and a delay that is not given. -/
def clearedDelay (b : UInt8) : UInt8 :=
  if b &&& 0x10 = 0 then 0 else b &&& 0x1f

/-- The six flags and the sample position make up their byte. -/
theorem flagsByte_said (profileByte flags delay : UInt8) (obus : List UInt8) :
    (said profileByte flags delay obus).flagsByte = flags := by
  have hflag {m i : UInt8} (h : m = 1 <<< i) := Bytes.flag_shiftLeft h flags
  unfold said flagsByte
  dsimp only
  rw [hflag (m := 0x80) (i := 7) rfl, hflag (m := 0x40) (i := 6) rfl,
    hflag (m := 0x20) (i := 5) rfl, hflag (m := 0x10) (i := 4) rfl,
    hflag (m := 0x08) (i := 3) rfl, hflag (m := 0x04) (i := 2) rfl, Bytes.and_and_of_within rfl]
  simp only [Bytes.and_or_and]
  exact Bytes.and_all flags

/-- A record is written as it was read, but for a delay that was not announced. -/
theorem serialize_said (profileByte flags delay : UInt8) (obus : List UInt8) :
    (said profileByte flags delay obus).serialize =
      0x81 :: profileByte :: flags :: clearedDelay delay :: obus := by
  have hprofile : (profileByte >>> 5) <<< 5 ||| (profileByte &&& 0x1f &&& 0x1f) =
      profileByte := by
    rw [← Bytes.and_all (profileByte >>> 5), Bytes.field_shiftLeft, Bytes.and_and_of_within rfl,
      Bytes.and_or_and]
    exact Bytes.and_all profileByte
  have hannounced (h : delay &&& 0x10 = 0x10) :
      0x10 ||| (delay &&& 0x0f &&& 0x0f) = delay &&& 0x1f := by
    rw [Bytes.and_and_of_within rfl]
    calc 0x10 ||| (delay &&& 0x0f) = (delay &&& 0x10) ||| (delay &&& 0x0f) := by rw [h]
      _ = delay &&& 0x1f := Bytes.and_or_and delay 0x10 0x0f
  rw [serialize, flagsByte_said]
  unfold said clearedDelay
  dsimp only
  rw [hprofile]
  rcases Bytes.flag_cases (m := 0x10) (i := 4) rfl delay with hnone | hsome
  · rw [hnone]
    rfl
  · rw [hsome, ← hannounced hsome]
    rfl

/-- A delay that was not announced says nothing. -/
theorem said_clearedDelay (profileByte flags delay : UInt8) (obus : List UInt8) :
    said profileByte flags (clearedDelay delay) obus = said profileByte flags delay obus := by
  unfold said clearedDelay
  split
  · rename_i hnone
    rw [hnone]
    rfl
  · have hflag : delay &&& 0x1f &&& 0x10 = delay &&& 0x10 := Bytes.and_and_of_within rfl delay
    have hvalue : delay &&& 0x1f &&& 0x0f = delay &&& 0x0f := Bytes.and_and_of_within rfl delay
    rw [hflag, hvalue]

theorem size_eq_length (r : Av1Record) : r.size = r.serialize.length :=
  Nat.add_comm 4 r.obus.length

def rewritten (bytes : List UInt8) : List UInt8 :=
  bytes.modify 3 clearedDelay

/-- **Records of AV1 survive.** -/
theorem survives (bytes : List UInt8) :
    Survives parse parseAt serialize size (fun _ => rewritten) bytes :=
  .of_parse (parseAt_eq bytes) fun r h => by
    obtain ⟨profileByte, flags, delay, obus, rfl, rfl⟩ := parse_eq_ok_iff.1 h
    have hagain : parse (said profileByte flags delay obus).serialize =
        .ok (said profileByte flags delay obus) := by
      rw [serialize_said]
      exact parse_eq_ok_iff.2 ⟨_, _, _, _, rfl, (said_clearedDelay _ _ _ _).symm⟩
    exact ⟨hagain, size_eq_length _, serialize_said _ _ _ _⟩

end Av1Record

/-- **Configuration records survive being written again**, and reading them stays within their
bytes. -/
theorem records_survive (bytes : List UInt8) :
    Survives AvcRecord.parse AvcRecord.parseAt AvcRecord.serialize AvcRecord.size
      (fun _ => AvcRecord.rewritten) bytes ∧
    Survives HevcRecord.parse HevcRecord.parseAt HevcRecord.serialize HevcRecord.size
      HevcRecord.rewritten bytes ∧
    Survives Av1Record.parse Av1Record.parseAt Av1Record.serialize Av1Record.size
      (fun _ => Av1Record.rewritten) bytes :=
  ⟨AvcRecord.survives bytes, HevcRecord.survives bytes, Av1Record.survives bytes⟩

/-- Reserved bits of an H.264 record are set, an unused bit of an H.265 array is cleared and what
follows the arrays is dropped, and a delay that an AV1 record does not give is cleared. -/
theorem records_survive_reserved :
    let avc : List UInt8 := [1, 0x64, 0, 0x1f, 0x03, 0x01, 0, 2, 0x67, 0x64, 1, 0, 1, 0x68]
    let hevc : List UInt8 := HevcRecord.empty.fixed ++ [1, 0xe1, 0, 1, 0, 2, 0x42, 0x01, 0xff]
    let av1 : List UInt8 := [0x81, 0x05, 0x0c, 0xef, 0x0a]
    let avcRecord : AvcRecord := { AvcRecord.empty with
      profile := 0x64
      level := 0x1f
      sps := [[0x67, 0x64]]
      pps := [[0x68]] }
    let hevcRecord : HevcRecord := { HevcRecord.empty with
      arrays := [{ isComplete := true, type := 33, units := [[0x42, 0x01]] }] }
    let av1Record : Av1Record := { Av1Record.empty with
      level := 5
      subsamplingX := true
      subsamplingY := true
      obus := [0x0a] }
    (AvcRecord.parse avc = .ok avcRecord ∧
      avcRecord.serialize = [1, 0x64, 0, 0x1f, 0xff, 0xe1, 0, 2, 0x67, 0x64, 1, 0, 1, 0x68]) ∧
    (HevcRecord.parse hevc = .ok hevcRecord ∧
      hevcRecord.serialize = HevcRecord.empty.fixed ++ [1, 0xa1, 0, 1, 0, 2, 0x42, 0x01]) ∧
    Av1Record.parse av1 = .ok av1Record ∧ av1Record.serialize = [0x81, 0x05, 0x0c, 0, 0x0a] := by
  intro avc hevc av1 avcRecord hevcRecord av1Record
  have havc : AvcRecord.parse avc = .ok avcRecord := by decide +kernel
  have hhevc : HevcRecord.parse hevc = .ok hevcRecord := by decide +kernel
  have hav1 : Av1Record.parse av1 = .ok av1Record := by decide +kernel
  refine ⟨⟨havc, ?_⟩, ⟨hhevc, ?_⟩, hav1, ?_⟩
  · exact ((records_survive avc).1.bytes_eq _ havc).trans (by decide +kernel)
  · exact ((records_survive hevc).2.1.bytes_eq _ hhevc).trans (by decide +kernel)
  · exact ((records_survive av1).2.2.bytes_eq _ hav1).trans (by decide +kernel)

end LiveIngest.Codec
