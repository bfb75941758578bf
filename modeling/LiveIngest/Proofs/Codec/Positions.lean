import LiveIngest.Codec.Av1
import LiveIngest.Codec.Avc
import LiveIngest.Codec.Hevc
import LiveIngest.Proofs.Bits.Registers

/-!
# Configuration records by position

The readers of configuration records take the front of the bytes that are left. Here they are with
all bytes at hand and a position among them: what is looked up at a position or between two
positions may not be there, and then the run ends with `Halt.outOfBounds`.

Each look-up has a check of the length in front of it somewhere. Where a reader goes on, its
position is within the bytes, and the bytes behind that position are those that are left
(`Finds`): the check that a reader on what is left makes by its patterns is the one made here by
positions.

Main statements: `AvcRecord.parseAt_eq`, `HevcRecord.parseAt_eq`, `Av1Record.parseAt_eq`.
-/

namespace LiveIngest.Codec

/-! ### Looking up -/

/-- The byte at a position. -/
def byteAt (data : List UInt8) (i : Nat) : Except Halt UInt8 :=
  match data[i]? with
  | some b => .ok b
  | none => .error .outOfBounds

/-- The bytes from a position up to another one. -/
def bytesBetween (data : List UInt8) (first last : Nat) : Except Halt (List UInt8) :=
  if first ≤ last ∧ last ≤ data.length then .ok ((data.take last).drop first)
  else .error .outOfBounds

/-- Read `n` units from a position on. Returns them and the position behind them. -/
def unitsAt (record : ConfigRecord) (kind : RecordUnit) (data : List UInt8) :
    (n : Nat) → (offset : Nat) → Except Halt (List (List UInt8) × Nat)
  | 0, offset => return ([], offset)
  | n + 1, offset => do
    if data.length < offset + 2 then throw (.fault (.unitLengthCut record kind))
    else
      let high ← byteAt data offset
      let low ← byteAt data (offset + 1)
      let size := Bytes.ofBigEndian [high, low]
      let offset := offset + 2
      if data.length < offset + size then throw (.fault (.unitDataCut record kind))
      else
        let unit ← bytesBetween data offset (offset + size)
        let (units, offset) ← unitsAt record kind data n (offset + size)
        return (unit :: units, offset)

def AvcRecord.parseAt (data : List UInt8) : Except Halt AvcRecord := do
  if data.length < 7 then throw (.fault (.recordTooShort .avcC))
  else
    let version ← byteAt data 0
    if version ≠ 1 then throw (.fault (.recordVersion .avcC version))
    else
      let spsByte ← byteAt data 5
      let (sps, offset) ← unitsAt .avcC .sps data (spsByte &&& 0x1f).toNat 6
      if data.length ≤ offset then throw (.fault .ppsCountMissing)
      else
        let ppsCount ← byteAt data offset
        let (pps, offset) ← unitsAt .avcC .pps data ppsCount.toNat (offset + 1)
        let profile ← byteAt data 1
        let compatibility ← byteAt data 2
        let level ← byteAt data 3
        let lengthByte ← byteAt data 4
        let extension ← bytesBetween data offset data.length
        return { version, profile, compatibility, level,
                 lengthSizeMinusOne := lengthByte &&& 0x03, sps, pps, extension }

namespace HevcRecord

/-- Read `n` arrays from a position on. -/
def arraysAt (data : List UInt8) : (n : Nat) → (offset : Nat) → Except Halt (List HevcArray)
  | 0, _ => return []
  | n + 1, offset => do
    if data.length < offset + 3 then throw (.fault .arrayHeaderCut)
    else
      let head ← byteAt data offset
      let high ← byteAt data (offset + 1)
      let low ← byteAt data (offset + 2)
      let (units, offset) ← unitsAt .hvcC .nal data (Bytes.ofBigEndian [high, low]) (offset + 3)
      let arrays ← arraysAt data n offset
      return { isComplete := head &&& 0x80 != 0, type := head &&& 0x3f, units } :: arrays

def parseAt (data : List UInt8) : Except Halt HevcRecord := do
  if data.length < fixedSize + 1 then throw (.fault (.recordTooShort .hvcC))
  else
    let version ← byteAt data 0
    if version ≠ 1 then throw (.fault (.recordVersion .hvcC version))
    else
      let fixed ← bytesBetween data 0 fixedSize
      let count ← byteAt data fixedSize
      let arrays ← arraysAt data count.toNat (fixedSize + 1)
      return { fixed, arrays }

end HevcRecord

def Av1Record.parseAt (data : List UInt8) : Except Halt Av1Record := do
  if data.length < 4 then throw (.fault (.recordTooShort .av1C))
  else
    let head ← byteAt data 0
    if head &&& 0x80 = 0 then throw (.fault .markerBitMissing)
    else if head &&& 0x7f ≠ 1 then throw (.fault (.recordVersion .av1C (head &&& 0x7f)))
    else
      let profileByte ← byteAt data 1
      let flags ← byteAt data 2
      let delay ← byteAt data 3
      let obus ← bytesBetween data 4 data.length
      return {
        profile := profileByte >>> 5
        level := profileByte &&& 0x1f
        tier := flags &&& 0x80 != 0
        highBitDepth := flags &&& 0x40 != 0
        twelveBit := flags &&& 0x20 != 0
        monochrome := flags &&& 0x10 != 0
        subsamplingX := flags &&& 0x08 != 0
        subsamplingY := flags &&& 0x04 != 0
        samplePosition := flags &&& 0x03
        delayMinusOne := if delay &&& 0x10 != 0 then some (delay &&& 0x0f) else none
        obus }

/-! ### Positions and what is left -/

variable {α : Type} {data rest : List UInt8} {offset : Nat}

/-- A reader by position finds what a reader of what is left does. -/
inductive Finds (data : List UInt8) :
    Except Halt (α × Nat) → Except Fault (α × List UInt8) → Prop
  | ok {offset : Nat} (a : α) (h : offset ≤ data.length) :
    Finds data (.ok (a, offset)) (.ok (a, data.drop offset))
  | error (f : Fault) : Finds data (.error (.fault f)) (.error f)

/-- The byte at a position is the first of what is left there. -/
theorem byteAt_of_drop {b : UInt8} (h : data.drop offset = b :: rest) :
    byteAt data offset = .ok b := by
  have hget : data[offset]? = some b := by rw [← List.head?_drop, h, List.head?_cons]
  rw [byteAt, hget]

theorem drop_succ {b : UInt8} (h : data.drop offset = b :: rest) :
    data.drop (offset + 1) = rest := by
  rw [← List.tail_drop, h, List.tail_cons]

/-- What lies between two positions within the data is cut out. -/
theorem bytesBetween_of_le {size : Nat} (h : offset + size ≤ data.length) :
    bytesBetween data offset (offset + size) = .ok ((data.drop offset).take size) := by
  rw [bytesBetween, if_pos ⟨Nat.le_add_right offset size, h⟩, List.drop_take,
    Nat.add_sub_cancel_left]

/-- What is left is as long as the data less the position. -/
theorem length_of_drop (h : data.drop offset = rest) (hle : offset ≤ data.length) :
    data.length = offset + rest.length := by
  rw [← h, List.length_drop]
  omega

/-- The units of one kind, found by position as they are read off the front. The induction is on how
many are left, and the position is carried as the rest of the data. -/
theorem finds_units (record : ConfigRecord) (kind : RecordUnit) (n : Nat)
    (h : offset ≤ data.length) :
    Finds data (unitsAt record kind data n offset)
      (readUnits record kind n (data.drop offset)) := by
  induction n generalizing offset with
  | zero => exact .ok [] h
  | succ n ih =>
    rw [unitsAt, readUnits]
    -- a length needs two bytes; both readers miss the same one
    cases hleft : data.drop offset with
    | nil =>
      have hlength := length_of_drop hleft h
      rw [if_pos (by rw [hlength]; exact Nat.lt_add_of_pos_right Nat.two_pos)]
      exact .error _
    | cons high behind =>
      cases behind with
      | nil =>
        have hlength := length_of_drop hleft h
        rw [if_pos (by rw [hlength]; exact Nat.lt_succ_self _)]
        exact .error _
      | cons low behind =>
        have hlength := length_of_drop hleft h
        have hlow := drop_succ hleft
        have hbehind := drop_succ hlow
        simp only [List.length_cons] at hlength
        rw [if_neg (by omega), byteAt_of_drop hleft, byteAt_of_drop hlow]
        show Finds data (if _ then _ else _) (readUnit record kind (high :: low :: behind) >>= _)
        rw [readUnit]
        dsimp only
        -- the unit itself may be cut short, which one reader sees by position and the other by what
        -- is left
        by_cases hcut : data.length < offset + 2 + Bytes.ofBigEndian [high, low]
        · have hshort : (behind.take (Bytes.ofBigEndian [high, low])).length <
              Bytes.ofBigEndian [high, low] := by
            rw [List.length_take]
            omega
          rw [if_pos hcut, if_pos hshort]
          exact .error _
        · have hlong : ¬(behind.take (Bytes.ofBigEndian [high, low])).length <
              Bytes.ofBigEndian [high, low] := by
            rw [List.length_take]
            omega
          rw [if_neg hcut, if_neg hlong, bytesBetween_of_le (Nat.le_of_not_lt hcut), hbehind]
          -- both go on behind the unit
          have hnext := ih (Nat.le_of_not_lt hcut)
          rw [← List.drop_drop, hbehind] at hnext
          show Finds data (unitsAt record kind data n _ >>= _) (readUnits record kind n _ >>= _)
          generalize unitsAt record kind data n _ = x at hnext ⊢
          generalize readUnits record kind n _ = y at hnext ⊢
          cases hnext with
          | ok units hle => exact .ok _ hle
          | error f => exact .error f

/-- What goes on behind units. -/
theorem Finds.bind {β : Type} {x : Except Halt (α × Nat)} {y : Except Fault (α × List UInt8)}
    {next : α × Nat → Except Halt β} {nextLeft : α × List UInt8 → Except Fault β}
    (h : Finds data x y) (hnext : ∀ (a : α) (offset : Nat), offset ≤ data.length →
      next (a, offset) = (nextLeft (a, data.drop offset)).mapError .fault) :
    (x >>= next) = (y >>= nextLeft).mapError .fault := by
  cases h with
  | ok a hle => exact hnext a _ hle
  | error f => rfl

/-- The bytes from a position to the end. -/
theorem bytesBetween_length (h : offset ≤ data.length) :
    bytesBetween data offset data.length = .ok (data.drop offset) := by
  rw [bytesBetween, if_pos ⟨h, Nat.le_refl _⟩, List.take_length]

/-- **Reading an H.264 record looks up what is there**, and comes to the same as `parse`. -/
theorem AvcRecord.parseAt_eq (data : List UInt8) :
    parseAt data = (parse data).mapError .fault := by
  unfold parse
  split
  · rename_i version profile compatibility level lengthByte spsByte next rest
    generalize hdata : version :: profile :: compatibility :: level :: lengthByte :: spsByte ::
      next :: rest = data
    -- the six bytes in front, by position
    obtain ⟨hversion, hprofile, hcompatibility, hlevel, hlengthByte, hspsByte⟩ :
        byteAt data 0 = .ok version ∧ byteAt data 1 = .ok profile ∧
          byteAt data 2 = .ok compatibility ∧ byteAt data 3 = .ok level ∧
          byteAt data 4 = .ok lengthByte ∧ byteAt data 5 = .ok spsByte := by
      subst hdata
      exact ⟨rfl, rfl, rfl, rfl, rfl, rfl⟩
    have hdrop : next :: rest = data.drop 6 := by rw [← hdata]; rfl
    have hlength : 7 ≤ data.length := by
      rw [← hdata]
      exact Nat.le_add_left 7 rest.length
    rw [parseAt, if_neg (Nat.not_lt.2 hlength), hversion, hspsByte, parseSets, hdrop]
    show (if version ≠ 1 then _ else unitsAt .avcC .sps data _ 6 >>= _) = _
    split
    · rfl
    · -- behind the sets of one kind both readers stand at the same place
      refine (finds_units .avcC .sps _ (Nat.le_of_succ_le hlength)).bind fun sps offset hle => ?_
      dsimp only
      cases hleft : data.drop offset with
      | nil =>
        rw [if_pos (List.drop_eq_nil_iff.1 hleft)]
        rfl
      | cons ppsCount behind =>
        have hmore := length_of_drop hleft hle
        rw [List.length_cons] at hmore
        rw [if_neg (by omega), byteAt_of_drop hleft]
        dsimp only
        rw [← drop_succ hleft]
        refine (finds_units .avcC .pps _ (by omega)).bind fun pps offset hle => ?_
        rw [hprofile, hcompatibility, hlevel, hlengthByte]
        show (bytesBetween data offset data.length >>= _) = _
        rw [bytesBetween_length hle]
        rfl
  · rename_i hshort
    -- fewer than seven bytes are refused by both
    have hlength : data.length < 7 := by
      match data, hshort with
      | [], _ | [_], _ | [_, _], _ | [_, _, _], _ | [_, _, _, _], _ | [_, _, _, _, _], _
      | [_, _, _, _, _, _], _ => simp
      | _ :: _ :: _ :: _ :: _ :: _ :: _ :: _, hshort => exact (hshort _ _ _ _ _ _ _ _ rfl).elim
    rw [parseAt, if_pos hlength]
    rfl

/-- The arrays by position are those read off the front, and the same data are refused. -/
theorem HevcRecord.arraysAt_eq (n : Nat) (h : offset ≤ data.length) :
    arraysAt data n offset = (parseArrays n (data.drop offset)).mapError .fault := by
  induction n generalizing offset with
  | zero => rfl
  | succ n ih =>
    rw [arraysAt]
    -- the head and the count of an array take three bytes
    match hleft : data.drop offset with
    | head :: high :: low :: rest =>
      have hmore := length_of_drop hleft h
      simp only [List.length_cons] at hmore
      have hhigh := drop_succ hleft
      have hlow := drop_succ hhigh
      rw [if_neg (by omega), byteAt_of_drop hleft, byteAt_of_drop hhigh, byteAt_of_drop hlow,
        parseArrays, ← drop_succ hlow]
      refine (finds_units .hvcC .nal _ (by omega)).bind fun units offset hle => ?_
      dsimp only
      rw [ih hle]
      cases parseArrays n (data.drop offset) <;> rfl
    | [] | [_] | [_, _] =>
      have hmore := length_of_drop hleft h
      simp only [List.length_cons, List.length_nil] at hmore
      rw [if_pos (by omega)]
      rfl

/-- **Reading an H.265 record looks up what is there**, and comes to the same as `parse`. -/
theorem HevcRecord.parseAt_eq (data : List UInt8) :
    parseAt data = (parse data).mapError .fault := by
  unfold parse
  split
  · rename_i count rest hleft
    have hlength : fixedSize + 1 ≤ data.length := by
      have hmore := congrArg List.length hleft
      rw [List.length_drop, List.length_cons] at hmore
      omega
    have hversion : byteAt data 0 = .ok (data.headD 0) := by
      cases data with
      | nil => cases hlength
      | cons head tail => rfl
    have hfixed : bytesBetween data 0 fixedSize = .ok (data.take fixedSize) :=
      if_pos ⟨Nat.zero_le _, Nat.le_of_succ_le hlength⟩
    rw [parseAt, if_neg (Nat.not_lt.2 hlength), hversion]
    -- both look at the version before they read on
    show (if data.headD 0 ≠ 1 then _ else _) = Except.mapError Halt.fault (if _ then _ else _)
    split
    · rfl
    · rw [hfixed, byteAt_of_drop hleft, ← drop_succ hleft]
      show (arraysAt data count.toNat (fixedSize + 1) >>= _) = _
      rw [arraysAt_eq count.toNat hlength]
      cases parseArrays count.toNat (data.drop (fixedSize + 1)) <;> rfl
  · rename_i hnone
    have hlength : data.length < fixedSize + 1 := Nat.lt_succ_of_le (List.drop_eq_nil_iff.1 hnone)
    rw [parseAt, if_pos hlength]
    rfl

/-- **Reading an AV1 record looks up what is there**, and comes to the same as `parse`. -/
theorem Av1Record.parseAt_eq (data : List UInt8) :
    parseAt data = (parse data).mapError .fault := by
  unfold parse
  split
  · rename_i head profileByte flags delay obus
    have hlength : ¬(head :: profileByte :: flags :: delay :: obus).length < 4 :=
      Nat.not_lt.2 (Nat.le_add_left 4 obus.length)
    rw [parseAt, if_neg hlength]
    show (if head &&& 0x80 = 0 then _ else if head &&& 0x7f ≠ 1 then _ else
      (bytesBetween (head :: profileByte :: flags :: delay :: obus) 4 _ >>= _)) = _
    rw [bytesBetween_length (Nat.le_of_not_lt hlength)]
    split
    · rfl
    · split <;> rfl
  · rename_i hshort
    -- fewer than four bytes are refused by both
    have hlength : data.length < 4 := by
      match data, hshort with
      | [], _ | [_], _ | [_, _], _ | [_, _, _], _ => simp
      | _ :: _ :: _ :: _ :: _, hshort => exact (hshort _ _ _ _ _ rfl).elim
    rw [parseAt, if_pos hlength]
    rfl

end LiveIngest.Codec
