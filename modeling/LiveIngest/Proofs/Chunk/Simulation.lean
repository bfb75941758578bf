import LiveIngest.Proofs.Chunk.Registers

/-!
# Registers and stages

The registers of the receiving side and the machine `Demux` go together as `Shows` says: they have
the same chunk size and know the same chunk streams, and in the registers stands what the stage
names. Registers of a machine that lost framing are halted.

A pass comes to the same as a turn (`Follows`), with two exceptions in the middle of a payload:

* where the chunk size was lowered to what was taken, a pass is spent on finding the chunk over,
  and the turn is the next pass;
* where a turn takes nothing, the machine stalls. A pass takes nothing either, and leaves registers
  of the same machine, so that the next pass does the same again.

A message that is complete behind a pass is handed over before the next one, and by the turn itself.

Main statements: `Shows.reads` — what a call gives is what `Demux.parse` gives; `Shows.ends_iff` — a
call makes passes for ever exactly if `Demux.parse` stalls.
-/

namespace LiveIngest.Chunk

/-- What takes nothing is left as it is. -/
theorem Assembly.append_of_zero {a : Assembly} {bytes : List UInt8} (h : (a.append bytes).2 = 0) :
    a.append bytes = (a, 0) := by
  have htaken : bytes.take a.missing = [] := List.length_eq_zero_iff.1 h
  unfold append
  rw [htaken]
  rfl

namespace Registers

/-! ### Registers and stages -/

/-- The registers are those of a stage. What a stage does not name may be anything. -/
def AtStage (r : Registers) : Stage → Prop
  | .basicHeader seen =>
    r.phase = .basicHeader ∧ r.seen = seen ∧ r.need = Demux.basicNeed seen ∧
      seen.length < Demux.basicNeed seen
  | .messageHeader basic seen =>
    r.phase = .messageHeader ∧ r.basic = basic ∧ r.seen = seen ∧
      r.need = messageHeaderLength basic.format ∧ seen.length < messageHeaderLength basic.format
  | .extendedTimestamp c h seen =>
    r.phase = .extendedTimestamp ∧ r.basic.chunkStream = c ∧ r.fields = some h ∧ r.seen = seen ∧
      r.need = 4 ∧ seen.length < 4
  | .payload c taken =>
    r.phase = .payload ∧ r.basic.chunkStream = c ∧ r.taken = taken ∧
      ∃ a, r.streams.get? c = some a ∧ a.isComplete = false
  | .broken phase again => r.phase = phase ∧ r.Halted again

/-- The registers and the machine have the same chunk size and know the same chunk streams. -/
structure Alike (r : Registers) (d : Demux) : Prop where
  chunkSize : r.chunkSize = d.chunkSize
  chunkSize_pos : 0 < d.chunkSize
  streams : ∀ c, r.streams.get? c = d.streams.get? c

/-- The registers are those of the machine. -/
structure Shows (r : Registers) (d : Demux) : Prop extends r.Alike d where
  stage : r.AtStage d.stage

/-- Both readers begin alike. -/
theorem Shows.initial : Registers.initial.Shows .initial where
  chunkSize := rfl
  chunkSize_pos := by decide
  streams := fun _ => rfl
  stage := ⟨rfl, rfl, rfl, Nat.one_pos⟩

variable {r : Registers} {d : Demux}

theorem Alike.withStage (h : r.Alike d) (stage : Stage) : r.Alike { d with stage } :=
  ⟨h.chunkSize, h.chunkSize_pos, h.streams⟩

/-- Both sides put back the same assembly. -/
theorem Alike.get?_put (h : r.Alike d) (c : UInt32) (a : Assembly) (c' : UInt32) :
    (r.streams.put c a).get? c' = (d.streams.put c a).get? c' := by
  rw [Keyed.get?_put, Keyed.get?_put, h.streams]

/-- A reader that is shown by a stage has nothing ready: what was complete has been handed over. -/
theorem Shows.handOver?_eq_none (h : r.Shows d) : r.handOver? = none := by
  have hstage := h.stage
  cases hd : d.stage with
  | payload c taken =>
    rw [hd] at hstage
    -- inside a payload the message is known and not complete
    obtain ⟨hphase, rfl, -, a, hget, hincomplete⟩ := hstage
    unfold handOver?
    dsimp only
    rw [if_pos hphase, hget]
    dsimp only
    rw [hincomplete, if_neg Bool.false_ne_true]
  | broken phase again =>
    rw [hd] at hstage
    exact handOver?_of_ne hstage.2.phase_ne_payload
  | basicHeader | messageHeader | extendedTimestamp =>
    rw [hd] at hstage
    exact handOver?_of_ne (by rw [hstage.1]; exact Phase.noConfusion)

/-- A pass and a turn come to the same. A message that the turn brings is handed over behind the
pass. -/
inductive Follows : Pass → Demux.Reading → Prop
  | quiet {r : Registers} {d : Demux} (h : r.Shows d) (n : Nat) :
      Follows (.of n (r, none)) (.of n (d, .quiet))
  | packet {r r' : Registers} {d : Demux} {p : Packet}
      (hpacket : r.handOver? = some (r', .ok (0, some p))) (h : r'.Shows d) (n : Nat) :
      Follows (.of n (r, none)) (.of n (d, .packet p))
  | fault {r : Registers} {d : Demux} {again : Fault} (h : r.Shows d) (hhalted : r.Halted again)
      (f : Fault) (n m : Nat) : Follows (.of n (r, some f)) (.of m (d, .fault f))

/-- Putting back a chunk stream in the phase of the payload. -/
theorem Alike.putBack (h : r.Alike d) (hphase : r.phase = .payload) (a : Assembly)
    (taken n : Nat) :
    Follows (.of n (r.putBack a taken, none)) (.of n (d.settle r.basic.chunkStream a taken)) := by
  unfold Registers.putBack Demux.settle
  dsimp only
  by_cases hcomplete : a.isComplete = true
  · -- the message is handed over behind the pass, which leaves it complete
    rw [if_neg (by simp [hcomplete]), if_pos hcomplete]
    let given := expect { r with
      taken := 0, streams := r.streams.put r.basic.chunkStream a.clear } .basicHeader 1
    have hshows : given.Shows { d with
        stage := .basicHeader [], streams := d.streams.put r.basic.chunkStream a.clear } :=
      ⟨⟨h.chunkSize, h.chunkSize_pos, h.get?_put _ _⟩, rfl, rfl, rfl, Nat.one_pos⟩
    refine .packet ?_ hshows n
    unfold handOver?
    dsimp only
    rw [if_pos hphase, Keyed.get?_put_self]
    dsimp only
    rw [if_pos hcomplete, Keyed.put_put]
  rw [if_neg hcomplete]
  have hincomplete := Bool.eq_false_iff.2 hcomplete
  by_cases hfull : d.chunkSize ≤ taken
  · rw [if_pos ⟨hincomplete, h.chunkSize ▸ hfull⟩, if_pos hfull]
    refine .quiet ?_ n
    exact ⟨⟨h.chunkSize, h.chunkSize_pos, h.get?_put _ _⟩, rfl, rfl, rfl, Nat.one_pos⟩
  · rw [if_neg (by rw [h.chunkSize]; exact fun hboth => hfull hboth.2), if_neg hfull]
    refine .quiet ?_ n
    exact ⟨⟨h.chunkSize, h.chunkSize_pos, h.get?_put _ _⟩, hphase, rfl, rfl, a,
      Keyed.get?_put_self _ _ _, hincomplete⟩

/-- Both sides open the payload of a chunk. -/
theorem Alike.startPayload (h : r.Alike d) (a : Assembly) (n : Nat) :
    Follows
      (.of n (expect { r with taken := 0, streams := r.streams.put r.basic.chunkStream a }
        .payload 0, none))
      (.of n (d.settle r.basic.chunkStream a 0)) := by
  have halike : (r.expect .payload 0).Alike d := ⟨h.chunkSize, h.chunkSize_pos, h.streams⟩
  have hfollows := halike.putBack rfl a 0 n
  -- no chunk is full before its first byte
  have hopen : ¬ (a.isComplete = false ∧ r.chunkSize ≤ 0) := by
    rw [h.chunkSize]
    exact fun hfull => Nat.not_le.2 h.chunkSize_pos hfull.2
  have hput : (r.expect .payload 0).putBack a 0 = expect { r with
      taken := 0, streams := r.streams.put r.basic.chunkStream a } .payload 0 := if_neg hopen
  rwa [hput] at hfollows

/-- Both sides lose framing with the same fault, and the registers are halted. -/
theorem Alike.lose (h : r.Alike d) {phase : Phase} (hphase : r.phase = phase) {again : Fault}
    (hhalted : r.Halted again) (f : Fault) (n : Nat) :
    Follows (.of n (r, some f)) (.of n (d.lose phase f again)) := by
  refine .fault ?_ hhalted f n n
  exact ⟨⟨h.chunkSize, h.chunkSize_pos, h.streams⟩, hphase, hhalted⟩

/-- Both readers take a message header alike. A header that names an unknown chunk stream stops
them, and both with the same fault. -/
theorem Alike.onMessageHeader (h : r.Alike d) {header : MessageHeader} {phase : Phase}
    {again : Fault}
    (hlost : header.format ≠ 0 → r.streams.get? r.basic.chunkStream = none →
      r.phase = phase ∧ r.Halted again) (timestamp : UInt32) (n : Nat) :
    Follows (.of n (r.onMessageHeader header timestamp))
      (.of n (d.onMessageHeader r.basic.chunkStream header timestamp phase again)) := by
  unfold Registers.onMessageHeader Demux.onMessageHeader
  dsimp only
  rw [← h.streams]
  cases hget : r.streams.get? r.basic.chunkStream with
  | some a =>
    rw [if_neg (by simp)]
    exact h.startPayload _ n
  | none =>
    -- format 0 opens the chunk stream, and any other one is orphaned
    dsimp only
    by_cases hformat : header.format = 0
    · rw [if_neg (fun horphan => horphan.1 hformat), if_pos hformat]
      exact h.startPayload _ n
    · rw [if_pos ⟨hformat, rfl⟩, if_neg hformat]
      obtain ⟨hphase, hhalted⟩ := hlost hformat hget
      exact h.lose hphase hhalted _ n

/-- Both readers decode the same fields from the same bytes. -/
theorem Alike.onFields (h : r.Alike d) (hphase : r.phase = .messageHeader)
    (hseen : r.seen.length = r.need) (n : Nat) :
    Follows (.of n r.onFields)
      (.of n (d.onFields r.basic (.decode r.basic.format r.seen))) := by
  unfold Registers.onFields Demux.onFields
  dsimp only
  rw [if_pos hseen]
  by_cases hextended : (MessageHeader.decode r.basic.format r.seen).isExtended = true
  · rw [if_pos hextended, if_pos hextended]
    refine .quiet ?_ n
    exact ⟨⟨h.chunkSize, h.chunkSize_pos, h.streams⟩, rfl, rfl, rfl, rfl, rfl, Nat.succ_pos 3⟩
  · rw [if_neg hextended, if_neg hextended]
    exact h.onMessageHeader (fun hformat hunknown => ⟨hphase, .orphaned hphase hseen
      (Bool.eq_false_iff.2 hextended) hformat hunknown⟩) _ n

/-- The fields are taken away before their header is found to be orphaned. -/
theorem Alike.onExtendedTimestamp (h : r.Alike d) (hphase : r.phase = .extendedTimestamp)
    (hseen : r.seen.length = 4) (hneed : r.need = 4) {header : MessageHeader}
    (hfields : r.fields = some header) (n : Nat) :
    Follows (.of n r.onExtendedTimestamp)
      (.of n (d.onMessageHeader r.basic.chunkStream header (.ofNat (Bytes.ofBigEndian r.seen))
        .extendedTimestamp .extendedWithoutHeader)) := by
  unfold Registers.onExtendedTimestamp
  rw [if_pos hseen, hfields]
  have halike : Alike { r with fields := none } d := ⟨h.chunkSize, h.chunkSize_pos, h.streams⟩
  exact halike.onMessageHeader (fun _ _ => ⟨hphase, .bereft hphase hseen hneed rfl⟩) _ n

/-- A header that has no bytes opens nothing, and carries no timestamp. -/
theorem of_messageHeaderLength_eq_zero {format : UInt8} (h : messageHeaderLength format = 0) :
    format ≠ 0 ∧ (MessageHeader.decode format []).isExtended = false := by
  unfold messageHeaderLength at h
  split at h
  · cases h
  · cases h
  · cases h
  · rename_i hzero hone htwo
    refine ⟨hzero, decide_eq_false fun hboth => ?_⟩
    have hle : format.toNat ≤ 2 := UInt8.le_iff_toNat_le.1 hboth.1
    have hcases : format.toNat = 0 ∨ format.toNat = 1 ∨ format.toNat = 2 := by omega
    rcases hcases with heq | heq | heq
    · exact hzero (UInt8.toNat_inj.1 heq)
    · exact hone (UInt8.toNat_inj.1 heq)
    · exact htwo (UInt8.toNat_inj.1 heq)

/-- A header without fields is taken at once on both sides. -/
theorem Alike.onContinuation (h : r.Alike d) (hphase : r.phase = .messageHeader)
    (hseen : r.seen = []) (hneed : r.need = 0) (hlength : messageHeaderLength r.basic.format = 0)
    (n : Nat) :
    Follows (.of n r.onContinuation) (.of n (d.onBasicHeader r.basic)) := by
  unfold Registers.onContinuation Demux.onBasicHeader
  dsimp only
  rw [if_pos hlength, ← h.streams]
  cases hget : r.streams.get? r.basic.chunkStream with
  | some a => exact h.startPayload _ n
  | none =>
    -- the phase is that of a message header, which misses no byte
    obtain ⟨hformat, hplain⟩ := of_messageHeaderLength_eq_zero hlength
    have hhalted : r.Halted (.orphanHeader r.basic.format r.basic.chunkStream) :=
      .orphaned hphase (by rw [hseen, hneed]; rfl) (by rw [hseen]; exact hplain) hformat hget
    exact h.lose hphase hhalted _ n

/-- Both readers go on from a whole basic header. -/
theorem Alike.onBasicHeader (h : r.Alike d) (hseen : r.seen.length = r.need)
    (hlength : r.need = basicLength (r.seen.headD 0)) (n : Nat) :
    Follows (.of n r.onBasicHeader) (.of n (d.onBasicHeader (.decode r.seen))) := by
  unfold Registers.onBasicHeader
  dsimp only
  rw [if_neg (by omega), if_pos hseen]
  split
  · -- no message header follows
    rename_i hnone
    exact Alike.onContinuation (r := expect { r with basic := .decode r.seen } .messageHeader
      (messageHeaderLength (BasicHeader.decode r.seen).format))
      ⟨h.chunkSize, h.chunkSize_pos, h.streams⟩ rfl rfl hnone hnone n
  · rename_i hsome
    unfold Demux.onBasicHeader
    rw [if_neg hsome]
    refine .quiet ?_ n
    exact ⟨⟨h.chunkSize, h.chunkSize_pos, h.streams⟩, rfl, rfl, rfl, rfl, Nat.pos_of_ne_zero hsome⟩

/-! ### Passes and turns -/

/-- Both sides take bytes into a header and go on with it, or act on it when all bytes came. -/
theorem follows_turnField {stage : List UInt8 → Stage} {need : List UInt8 → Nat}
    {done : List UInt8 → Demux × Event} {act : Registers → Registers × Option Fault}
    (hneed : r.need = need r.seen) (slice : List UInt8)
    (hmore : ∀ n, (r.fill slice).seen.length < need (r.fill slice).seen →
      Follows (.of n (act (r.fill slice)))
        (.of n ({ d with stage := stage (r.fill slice).seen }, .quiet)))
    (hdone : ∀ n, ¬ (r.fill slice).seen.length < need (r.fill slice).seen →
      Follows (.of n (act (r.fill slice))) (.of n (done (r.fill slice).seen))) :
    Follows (.of (slice.take (r.need - r.seen.length)).length (act (r.fill slice)))
      (d.turnField stage need done r.seen slice) := by
  -- the bytes taken in are the same ones, and both sides count them
  unfold Demux.turnField
  unfold fill at hmore hdone ⊢
  dsimp only at hmore hdone ⊢
  rw [hneed] at hmore hdone ⊢
  split
  · exact hmore _ ‹_›
  · exact hdone _ ‹_›

/-- Bytes that are only collected change nothing that is compared. -/
theorem Alike.fill (h : r.Alike d) (slice : List UInt8) : (r.fill slice).Alike d :=
  ⟨h.chunkSize, h.chunkSize_pos, h.streams⟩

/-- No more bytes are taken than the header misses. -/
theorem length_fill_le (hless : r.seen.length < r.need) (slice : List UInt8) :
    (r.fill slice).seen.length ≤ r.need := by
  unfold fill
  dsimp only
  rw [List.length_append, List.length_take]
  omega

theorem basicNeed_of_ne {seen : List UInt8} (h : seen ≠ []) :
    Demux.basicNeed seen = basicLength (seen.headD 0) := by
  obtain ⟨b, rest, rfl⟩ := List.exists_cons_of_ne_nil h
  rfl

theorem basicLength_pos (first : UInt8) : 0 < basicLength first := by
  unfold basicLength
  split <;> decide

/-- With the bytes of a slice taken in, the first byte is there. It came just now, or the number of
bytes is known from it. -/
theorem fill_basicHeader (hneed : r.need = Demux.basicNeed r.seen) {slice : List UInt8}
    (hs : slice ≠ []) :
    (r.fill slice).seen ≠ [] ∧
      (r.need = basicLength ((r.fill slice).seen.headD 0) ∨
        r.need = 1 ∧ (r.fill slice).seen.length = 1) := by
  unfold fill
  dsimp only
  obtain ⟨b, rest, rfl⟩ := List.exists_cons_of_ne_nil hs
  cases hseen : r.seen with
  | nil =>
    rw [hseen] at hneed
    have hone : r.need = 1 := hneed
    rw [hone]
    exact ⟨List.cons_ne_nil b _, Or.inr ⟨rfl, rfl⟩⟩
  | cons first tail =>
    rw [hseen] at hneed
    exact ⟨List.cons_ne_nil first _, Or.inl hneed⟩

/-- One pass over a basic header. -/
theorem Alike.pass_basicHeader (h : r.Alike d) (hphase : r.phase = .basicHeader)
    (hneed : r.need = Demux.basicNeed r.seen) (hless : r.seen.length < r.need) {slice : List UInt8}
    (hs : slice ≠ []) : Follows (r.pass slice) (d.turnBasicHeader r.seen slice) := by
  have hle := length_fill_le hless slice
  obtain ⟨hne, hcases⟩ := fill_basicHeader hneed hs
  have hlength := basicNeed_of_ne hne
  have hpos := basicLength_pos ((r.fill slice).seen.headD 0)
  unfold Registers.pass
  dsimp only
  rw [hphase]
  refine follows_turnField hneed slice (fun n hmore => ?_) (fun n hall => ?_)
  · rw [hlength] at hmore
    rcases hcases with hknown | ⟨hone, hfirst⟩
    · -- the number of bytes was known, and there are not as many
      have hopen : (r.fill slice).onBasicHeader = (r.fill slice, none) := by
        have hsame : (r.fill slice).need = r.need := rfl
        unfold Registers.onBasicHeader
        rw [if_neg (by omega), if_neg (by omega)]
      rw [hopen]
      refine .quiet ?_ n
      exact ⟨(h.fill slice).withStage _, hphase, rfl, hknown.trans hlength.symm,
        by rw [hlength]; exact hmore⟩
    · -- the first byte says that there are more
      have hopen : (r.fill slice).onBasicHeader = ({ r.fill slice with
          need := basicLength ((r.fill slice).seen.headD 0) }, none) :=
        if_pos ⟨hfirst, hone, hfirst ▸ hmore⟩
      rw [hopen]
      refine .quiet ?_ n
      exact ⟨⟨h.chunkSize, h.chunkSize_pos, h.streams⟩, hphase, rfl, hlength.symm,
        by rw [hlength]; exact hmore⟩
  · rw [hlength] at hall
    -- in both cases the bytes are all there
    have hseen : (r.fill slice).seen.length = r.need := by omega
    exact (h.fill slice).onBasicHeader hseen (by show r.need = _; omega) n

/-- One pass over the fields of a message header. -/
theorem Alike.pass_messageHeader (h : r.Alike d) (hphase : r.phase = .messageHeader)
    (hneed : r.need = messageHeaderLength r.basic.format) (hless : r.seen.length < r.need)
    (slice : List UInt8) :
    Follows (r.pass slice)
      (d.turnField (.messageHeader r.basic) (fun _ => messageHeaderLength r.basic.format)
        (fun seen => d.onFields r.basic (.decode r.basic.format seen)) r.seen slice) := by
  have hle := length_fill_le hless slice
  unfold Registers.pass
  dsimp only
  rw [hphase]
  refine follows_turnField hneed slice (fun n hmore => ?_) (fun n hall => ?_)
  · -- the header goes on
    rw [← hneed] at hmore
    have hopen : (r.fill slice).onFields = (r.fill slice, none) := if_neg (Nat.ne_of_lt hmore)
    rw [hopen]
    refine .quiet ?_ n
    exact ⟨(h.fill slice).withStage _, hphase, rfl, rfl, hneed, by rw [← hneed]; exact hmore⟩
  · rw [← hneed] at hall
    exact (h.fill slice).onFields hphase (Nat.le_antisymm hle (Nat.not_lt.1 hall)) n

/-- One pass over an extended timestamp. -/
theorem Alike.pass_extendedTimestamp (h : r.Alike d) (hphase : r.phase = .extendedTimestamp)
    {header : MessageHeader} (hfields : r.fields = some header) (hneed : r.need = 4)
    (hless : r.seen.length < r.need) (slice : List UInt8) :
    Follows (r.pass slice)
      (d.turnField (.extendedTimestamp r.basic.chunkStream header) (fun _ => 4)
        (fun seen => d.onMessageHeader r.basic.chunkStream header (.ofNat (Bytes.ofBigEndian seen))
          .extendedTimestamp .extendedWithoutHeader) r.seen slice) := by
  have hle := length_fill_le hless slice
  rw [hneed] at hle
  unfold Registers.pass
  dsimp only
  rw [hphase]
  -- the four bytes are still cut off, or they are all there
  refine follows_turnField hneed slice (fun n hmore => ?_) (fun n hall => ?_)
  · have hopen : (r.fill slice).onExtendedTimestamp = (r.fill slice, none) :=
      if_neg (Nat.ne_of_lt hmore)
    rw [hopen]
    refine .quiet ?_ n
    exact ⟨(h.fill slice).withStage _, hphase, rfl, hfields, rfl, hneed, hmore⟩
  · exact (h.fill slice).onExtendedTimestamp hphase (Nat.le_antisymm hle (Nat.not_lt.1 hall)) hneed
      hfields n

/-- A payload pass on a chunk that is not full takes what the turn takes. -/
theorem Alike.pass_payload (h : r.Alike d) (hphase : r.phase = .payload) {a : Assembly}
    (hget : r.streams.get? r.basic.chunkStream = some a) (slice : List UInt8) :
    Follows (r.pass slice) (d.turnPayload r.basic.chunkStream r.taken slice) := by
  unfold Registers.pass
  dsimp only
  rw [hphase]
  unfold passPayload Demux.turnPayload
  dsimp only
  rw [← h.streams, hget]
  dsimp only
  rw [← h.chunkSize]
  exact h.putBack hphase _ _ _

/-- A payload pass that takes nothing: the chunk is over where the chunk size was lowered to what
was taken, and otherwise nothing changes. -/
theorem Alike.pass_of_zero (h : r.Alike d) (hphase : r.phase = .payload) {a : Assembly}
    (hget : r.streams.get? r.basic.chunkStream = some a) (hincomplete : a.isComplete = false)
    (slice : List UInt8) (hzero : (a.append (slice.take (r.chunkSize - r.taken))).2 = 0) :
    ∃ r', r.pass slice = ⟨r', 0, none⟩ ∧
      if d.chunkSize ≤ r.taken then r'.Shows { d with stage := .basicHeader [] }
      else r'.Shows { d with stage := .payload r.basic.chunkStream r.taken } := by
  -- the assembly is put back as it was taken out
  have hsame : ∀ c, (r.streams.put r.basic.chunkStream a).get? c = d.streams.get? c := by
    intro c
    rw [Keyed.get?_put, ← h.streams]
    split
    · rename_i heq
      rw [heq, hget]
    · rfl
  refine ⟨r.putBack a r.taken, ?_, ?_⟩
  · unfold Registers.pass
    dsimp only
    rw [hphase]
    unfold passPayload
    dsimp only
    rw [hget]
    dsimp only
    rw [Assembly.append_of_zero hzero]
    rfl
  · unfold Registers.putBack
    dsimp only
    -- nothing was taken: the chunk is used up, or the slice was
    by_cases hfull : d.chunkSize ≤ r.taken
    · rw [if_pos hfull, if_pos ⟨hincomplete, h.chunkSize ▸ hfull⟩]
      exact ⟨⟨h.chunkSize, h.chunkSize_pos, hsame⟩, rfl, rfl, rfl, Nat.one_pos⟩
    · rw [if_neg hfull, if_neg fun hboth => hfull (h.chunkSize ▸ hboth.2)]
      exact ⟨⟨h.chunkSize, h.chunkSize_pos, hsame⟩, hphase, rfl, rfl, a, Keyed.get?_put_self _ _ _,
        hincomplete⟩

/-- **A pass on registers of a machine.** It comes to the same as a turn that takes bytes. If the
turn takes none, so does the pass, and it leaves registers of a machine that reads on alike. -/
theorem Shows.pass (h : r.Shows d) {slice : List UInt8} (hs : slice ≠ []) :
    (d.turn slice).consumed ≠ 0 ∧ Follows (r.pass slice) (d.turn slice) ∨
      (∃ c taken, d.stage = .payload c taken) ∧
        ∃ r' d', r.pass slice = ⟨r', 0, none⟩ ∧ r'.Shows d' ∧ d'.parse slice = d.parse slice ∧
          ((d.parse slice).event = .stalled ∨ d'.stage = .basicHeader []) := by
  have hstage := h.stage
  cases hd : d.stage with
  | basicHeader seen =>
    rw [hd] at hstage
    obtain ⟨hphase, rfl, hneed, hless⟩ := hstage
    refine Or.inl ?_
    unfold Demux.turn
    rw [hd]
    exact ⟨Demux.consumed_turnField_ne_zero d _ _ hless hs,
      h.pass_basicHeader hphase hneed (hneed ▸ hless) hs⟩
  | messageHeader basic seen =>
    rw [hd] at hstage
    obtain ⟨hphase, rfl, rfl, hneed, hless⟩ := hstage
    refine Or.inl ?_
    unfold Demux.turn
    rw [hd]
    exact ⟨Demux.consumed_turnField_ne_zero d _ _ hless hs,
      h.pass_messageHeader hphase hneed (hneed ▸ hless) slice⟩
  | extendedTimestamp c header seen =>
    rw [hd] at hstage
    obtain ⟨hphase, rfl, hfields, rfl, hneed, hless⟩ := hstage
    refine Or.inl ?_
    unfold Demux.turn
    rw [hd]
    exact ⟨Demux.consumed_turnField_ne_zero d _ _ hless hs,
      h.pass_extendedTimestamp hphase hfields hneed (hneed ▸ hless) slice⟩
  | payload c taken =>
    rw [hd] at hstage
    obtain ⟨hphase, rfl, rfl, a, hget, hincomplete⟩ := hstage
    have hzero := h.pass_of_zero hphase hget hincomplete slice
    by_cases hfull : d.chunkSize ≤ r.taken
    · -- the chunk size was lowered, and a pass is spent on finding the chunk over
      have hnothing : (a.append (slice.take (r.chunkSize - r.taken))).2 = 0 := by
        rw [h.chunkSize, Nat.sub_eq_zero_of_le hfull, List.take_zero, Assembly.append_nil]
      obtain ⟨r', hpass, hshows⟩ := hzero hnothing
      rw [if_pos hfull] at hshows
      have hparse := (Demux.parse_of_full hd hfull hs).symm
      exact Or.inr ⟨⟨_, _, rfl⟩, r', _, hpass, hshows, hparse, Or.inr rfl⟩
    have hturn : d.turn slice = d.turnPayload r.basic.chunkStream r.taken slice := by
      unfold Demux.turn
      rw [hd]
      exact if_neg hfull
    have hconsumed : (d.turn slice).consumed =
        (a.append (slice.take (r.chunkSize - r.taken))).2 := by
      rw [hturn, h.chunkSize]
      unfold Demux.turnPayload
      rw [← h.streams, hget]
      rfl
    by_cases hnothing : (d.turn slice).consumed = 0
    · -- the machine stalls, and the pass is the first of those without end
      obtain ⟨r', hpass, hshows⟩ := hzero (hconsumed ▸ hnothing)
      rw [if_neg hfull, ← hd] at hshows
      have hstalls : (d.parse slice).event = .stalled := by
        unfold Demux.parse
        rw [dif_neg hs, dif_pos hnothing]
      exact Or.inr ⟨⟨_, _, rfl⟩, r', d, hpass, hshows, rfl, Or.inl hstalls⟩
    · refine Or.inl ⟨hnothing, ?_⟩
      rw [hturn]
      exact h.pass_payload hphase hget slice
  | broken phase again =>
    rw [hd] at hstage
    obtain ⟨hphase, hhalted⟩ := hstage
    refine Or.inl ?_
    unfold Demux.turn
    rw [hd, hhalted.pass]
    exact ⟨Nat.one_ne_zero, .fault h hhalted again 0 1⟩

/-! ### Calls -/

/-- **What a call gives is what `Demux.parse` gives.** It leaves registers of the machine that
`Demux.parse` leaves, and after a fault they are halted. -/
theorem Shows.reads (h : r.Shows d) {slice : List UInt8} {r' : Registers} {a : Answer}
    (hreads : r.Reads slice r' a) :
    (d.parse slice).answer? = some a ∧ r'.Shows (d.parse slice).demux ∧
      ∀ f, a = .error f → ∃ again, r'.Halted again := by
  induction hreads generalizing d with
  | handOver hover =>
    rw [h.handOver?_eq_none] at hover
    cases hover
  | usedUp =>
    rw [Demux.parse_nil]
    exact ⟨rfl, h, fun f hf => by cases hf⟩
  | @goOn r r' slice a _ hs hpass hrest ih =>
    rcases h.pass hs with ⟨hr, hfollows⟩ | ⟨-, r₁, d₁, hidle, hshows, hparse, -⟩
    · -- the pass is a turn
      generalize hp : r.pass slice = p at hpass hrest ih hfollows
      generalize ht : d.turn slice = t at hr hfollows
      cases hfollows with
      | quiet hshows n =>
        obtain ⟨hanswer, hlater, hhalted⟩ := ih hshows
        rw [Demux.parse_of_quiet hs (by rw [ht]; exact hr) (by rw [ht]; rfl), ht,
          Demux.Reading.answer?_after, Demux.Reading.demux_after]
        refine ⟨congrArg (Option.map (·.after n)) hanswer, hlater, fun f hf => ?_⟩
        cases a with
        | error g => exact hhalted g rfl
        | ok given => cases hf
      | packet hpacket hshows n =>
        -- what follows the pass is the handing over
        obtain ⟨rfl, rfl⟩ := hrest.unique (.handOver hpacket _)
        rw [Demux.parse_of_ne hs (by rw [ht]; exact hr) (by rw [ht]; exact Event.noConfusion), ht]
        exact ⟨rfl, hshows, fun f hf => by cases hf⟩
      | fault => cases hpass
    · -- the pass took nothing, and the call goes on as that of another machine
      rw [hidle] at ih ⊢
      rw [← hparse, Answer.after_zero]
      exact ih hshows
  | @fails r slice f _ hs hpass =>
    rcases h.pass hs with ⟨hr, hfollows⟩ | ⟨-, r₁, d₁, hidle, -⟩
    · generalize hp : r.pass slice = p at hpass hfollows
      generalize ht : d.turn slice = t at hr hfollows
      cases hfollows with
      | quiet | packet => cases hpass
      | fault hshows hhalted =>
        obtain rfl := Option.some.inj hpass
        rw [Demux.parse_of_ne hs (by rw [ht]; exact hr) (by rw [ht]; exact Event.noConfusion), ht]
        exact ⟨rfl, hshows, fun _ _ => ⟨_, hhalted⟩⟩
    · rw [hidle] at hpass
      cases hpass

/-- A call ends behind a pass that comes to the same as a turn, if what is left of it ends. -/
theorem Shows.exists_reads_of_follows (h : r.Shows d) {slice : List UInt8} (hs : slice ≠ [])
    (hr : (d.turn slice).consumed ≠ 0) (hfollows : Follows (r.pass slice) (d.turn slice))
    (hlater : ∀ {r₁ : Registers} {d₁ : Demux}, r₁.Shows d₁ →
      (d₁.parse (slice.drop (d.turn slice).consumed)).event ≠ .stalled →
      ∃ r' a, r₁.Reads (slice.drop (d.turn slice).consumed) r' a)
    (hlive : (d.parse slice).event ≠ .stalled) : ∃ r' a, r.Reads slice r' a := by
  have hhead := h.handOver?_eq_none
  generalize hp : r.pass slice = p at hfollows
  generalize ht : d.turn slice = t at hr hfollows hlater
  -- a quiet pass goes on with what is left of the slice
  cases hfollows with
  | quiet hshows n =>
    rw [Demux.parse_of_quiet hs (by rw [ht]; exact hr) (by rw [ht]; rfl), ht] at hlive
    obtain ⟨r', a, hrest⟩ := hlater hshows hlive
    exact ⟨r', _, .goOn hhead hs (by rw [hp]; rfl) (by rw [hp]; exact hrest)⟩
  | packet hpacket hshows n =>
    exact ⟨_, _, .goOn hhead hs (by rw [hp]; rfl) (by rw [hp]; exact .handOver hpacket _)⟩
  | fault =>
    exact ⟨_, _, .fails hhead hs (by rw [hp]; rfl)⟩

/-- **When a call ends.** It makes passes for ever exactly if `Demux.parse` stalls. -/
theorem Shows.ends_iff (h : r.Shows d) (slice : List UInt8) :
    (∃ r' a, r.Reads slice r' a) ↔ (d.parse slice).event ≠ .stalled := by
  refine ⟨fun ⟨r', a, hreads⟩ => Demux.Reading.answer?_ne_none (h.reads hreads).1, ?_⟩
  -- by induction on the length of the slice, of which a turn takes something
  induction hlength : slice.length using Nat.strongRecOn generalizing r d slice with
  | _ length ih =>
    subst hlength
    intro hlive
    by_cases hs : slice = []
    · subst hs
      exact ⟨r, _, .usedUp h.handOver?_eq_none⟩
    have hpos := List.length_pos_iff.2 hs
    have hends {r₁ : Registers} {d₁ : Demux} (h₁ : r₁.Shows d₁)
        (hr : (d₁.turn slice).consumed ≠ 0) (hfollows : Follows (r₁.pass slice) (d₁.turn slice))
        (hlive₁ : (d₁.parse slice).event ≠ .stalled) : ∃ r' a, r₁.Reads slice r' a :=
      h₁.exists_reads_of_follows hs hr hfollows
        (fun h₂ => ih _ (by rw [List.length_drop]; omega) h₂ _ rfl) hlive₁
    rcases h.pass hs with ⟨hr, hfollows⟩ | ⟨-, r₁, d₁, hidle, hshows, hparse, hwhich⟩
    · exact hends h hr hfollows hlive
    rcases hwhich with hstalls | hstage
    · exact absurd hstalls hlive
    -- the chunk is over, and the next pass is one on a header
    rcases hshows.pass hs with ⟨hr, hfollows⟩ | ⟨⟨c, taken, hpayload⟩, -⟩
    · obtain ⟨r', a, hrest⟩ := hends hshows hr hfollows (by rw [hparse]; exact hlive)
      exact ⟨r', _, .goOn h.handOver?_eq_none hs (by rw [hidle]) (by rw [hidle]; exact hrest)⟩
    · exact Stage.noConfusion (hstage.symm.trans hpayload)

end Registers

end LiveIngest.Chunk
