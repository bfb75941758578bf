import LiveIngest.Proofs.Chunk.Stalling

/-!
# The receiving machine as registers

`Demux` keeps in its stage just what the stage needs, and of a machine that lost framing the stage
says so. A program keeps **registers**, all of them at any time: a phase, the bytes of the header
under way and how many it has, the last basic header, the fields that wait for an extended
timestamp, how much of a chunk was taken. A call makes passes of one loop over them (`Reads`), and
where a pass meets a fault, the registers stay as the pass has left them. No register says that
framing was lost.

It can be told from them all the same. The registers are `Halted` if the header under way is
complete but cannot be acted on, so that the next pass finds it again:

* of an orphaned header all bytes are there, and its chunk stream is unknown. A header of format 3
  is found to be orphaned in the phase of the message header that it does not have, where no byte is
  missed either;
* of an extended timestamp all bytes are there, and the fields it belongs to were taken away.

Main statements: `Reads.unique` — a call has at most one outcome; `Halted.pass` — a pass on halted
registers takes nothing, fails, and changes nothing.
-/

namespace LiveIngest.Chunk

/-- What a call gives: how many bytes it took and the message that they completed, or a fault. -/
abbrev Answer := Except Fault (Nat × Option Packet)

namespace Answer

/-- The answer of a call that took bytes before. -/
def after (a : Answer) (n : Nat) : Answer :=
  a.map fun (consumed, p?) => (n + consumed, p?)

theorem after_zero (a : Answer) : a.after 0 = a := by
  cases a with
  | error f => rfl
  | ok given =>
    unfold after Except.map
    dsimp only
    rw [Nat.zero_add]

end Answer

namespace Demux.Reading

/-- The answer of a call; one that stalls gives none. -/
def answer? (r : Reading) : Option Answer :=
  match r.event with
  | .quiet => some (.ok (r.consumed, none))
  | .packet p => some (.ok (r.consumed, some p))
  | .fault f => some (.error f)
  | .stalled => none

/-- An answer moves with the bytes before it. -/
theorem answer?_after (r : Reading) (n : Nat) :
    (r.after n).answer? = r.answer?.map (·.after n) := by
  obtain ⟨d, consumed, event⟩ := r
  cases event <;> rfl

/-- A reading with an answer is not stalled. -/
theorem answer?_ne_none {r : Reading} {a : Answer} (h : r.answer? = some a) :
    r.event ≠ .stalled := by
  intro hstall
  unfold answer? at h
  rw [hstall] at h
  cases h

end Demux.Reading

/-- The registers of the receiving side. -/
structure Registers where
  phase : Phase
  chunkSize : Nat
  /-- The bytes of the header under way that were seen. -/
  seen : List UInt8
  /-- How many bytes that header has, as far as those seen tell. -/
  need : Nat
  basic : BasicHeader
  /-- The fields of a message header that waits for its extended timestamp. -/
  fields : Option MessageHeader
  /-- How many payload bytes of the chunk were taken. -/
  taken : Nat
  streams : Keyed UInt32 Assembly
  deriving DecidableEq, Repr

namespace Registers

def initial : Registers where
  phase := .basicHeader
  chunkSize := defaultSize
  seen := []
  need := 1
  basic := ⟨0, 0⟩
  fields := none
  taken := 0
  streams := []

/-! ### Operations -/

def setChunkSize (r : Registers) (size : Nat) : Registers :=
  { r with chunkSize := max size 1 }

def abort (r : Registers) (c : UInt32) : Registers :=
  match r.streams.get? c with
  | some a => { r with streams := r.streams.put c a.clear }
  | none => r

/-- Wait for a header of `need` bytes, or for a payload. -/
def expect (r : Registers) (phase : Phase) (need : Nat) : Registers :=
  { r with phase, seen := [], need }

/-- Take bytes of a slice into the header under way. -/
def fill (r : Registers) (slice : List UInt8) : Registers :=
  { r with seen := r.seen ++ slice.take (r.need - r.seen.length) }

/-- A message header is complete, its timestamp resolved. -/
def onMessageHeader (r : Registers) (h : MessageHeader) (timestamp : UInt32) :
    Registers × Option Fault :=
  let c := r.basic.chunkStream
  if h.format ≠ 0 ∧ r.streams.get? c = none then (r, some (.orphanHeader h.format c))
  else
    let a := ((r.streams.get? c).getD (.fresh c)).applyHeader h timestamp
    (expect { r with taken := 0, streams := r.streams.put c a } .payload 0, none)

/-- A header of format 3 is complete. -/
def onContinuation (r : Registers) : Registers × Option Fault :=
  let c := r.basic.chunkStream
  match r.streams.get? c with
  | some a =>
    (expect { r with taken := 0, streams := r.streams.put c a.continueOrRepeat } .payload 0, none)
  | none => (r, some (.orphanContinuation c))

/-- Go on in the phase of the basic header, its bytes taken in. -/
def onBasicHeader (r : Registers) : Registers × Option Fault :=
  -- the first byte says how many there are
  if r.seen.length = 1 ∧ r.need = 1 ∧ 1 < basicLength (r.seen.headD 0) then
    ({ r with need := basicLength (r.seen.headD 0) }, none)
  else if r.seen.length = r.need then
    let basic := BasicHeader.decode r.seen
    let need := messageHeaderLength basic.format
    let r := expect { r with basic } .messageHeader need
    if need = 0 then r.onContinuation else (r, none)
  else (r, none)

/-- Go on in the phase of the message header, its bytes taken in. -/
def onFields (r : Registers) : Registers × Option Fault :=
  if r.seen.length = r.need then
    let h := MessageHeader.decode r.basic.format r.seen
    if h.isExtended then (expect { r with fields := some h } .extendedTimestamp 4, none)
    else r.onMessageHeader h h.timestamp
  else (r, none)

/-- Go on in the phase of the extended timestamp, its bytes taken in. The fields that wait for it
are taken away first. -/
def onExtendedTimestamp (r : Registers) : Registers × Option Fault :=
  if r.seen.length = 4 then
    match r.fields with
    | some h => onMessageHeader { r with fields := none } h (.ofNat (Bytes.ofBigEndian r.seen))
    | none => ({ r with fields := none }, some .extendedWithoutHeader)
  else (r, none)

/-- Put back a chunk stream of which `taken` bytes were taken in the chunk. Unless the message is
complete, a header follows on a full chunk. -/
def putBack (r : Registers) (a : Assembly) (taken : Nat) : Registers :=
  let r := { r with taken, streams := r.streams.put r.basic.chunkStream a }
  if a.isComplete = false ∧ r.chunkSize ≤ taken then expect { r with taken := 0 } .basicHeader 1
  else r

/-- The outcome of a pass. -/
structure Pass where
  registers : Registers
  consumed : Nat
  fault : Option Fault

/-- A pass took bytes, and what they did is known. -/
def Pass.of (consumed : Nat) (out : Registers × Option Fault) : Pass :=
  ⟨out.1, consumed, out.2⟩

def passPayload (r : Registers) (slice : List UInt8) : Pass :=
  let c := r.basic.chunkStream
  match r.streams.get? c with
  | some a =>
    let (a, n) := a.append (slice.take (r.chunkSize - r.taken))
    .of n (r.putBack a (r.taken + n), none)
  | none => .of 0 (r, some (.chunkStreamMissing c))

/-- One pass of the loop over a slice that is not empty. -/
def pass (r : Registers) (slice : List UInt8) : Pass :=
  let n := (slice.take (r.need - r.seen.length)).length
  match r.phase with
  | .basicHeader => .of n (r.fill slice).onBasicHeader
  | .messageHeader => .of n (r.fill slice).onFields
  | .extendedTimestamp => .of n (r.fill slice).onExtendedTimestamp
  | .payload => r.passPayload slice

/-- What is done before a pass: in the phase of the payload, a complete message is handed over. -/
def handOver? (r : Registers) : Option (Registers × Answer) :=
  let c := r.basic.chunkStream
  if r.phase = .payload then
    match r.streams.get? c with
    | some a =>
      if a.isComplete then
        some (expect { r with taken := 0, streams := r.streams.put c a.clear } .basicHeader 1,
          .ok (0, some a.packet))
      else none
    | none => some (r, .error (.chunkStreamMissing c))
  else none

/-- A call on a slice, pass by pass, with the registers it leaves and its answer. A call that makes
passes for ever has none. -/
inductive Reads : Registers → List UInt8 → Registers → Answer → Prop
  | handOver {r r' : Registers} {a : Answer} (h : r.handOver? = some (r', a))
      (slice : List UInt8) : Reads r slice r' a
  | usedUp {r : Registers} (h : r.handOver? = none) : Reads r [] r (.ok (0, none))
  | goOn {r r' : Registers} {slice : List UInt8} {a : Answer} (h : r.handOver? = none)
      (hs : slice ≠ []) (hpass : (r.pass slice).fault = none)
      (hrest : Reads (r.pass slice).registers (slice.drop (r.pass slice).consumed) r' a) :
      Reads r slice r' (a.after (r.pass slice).consumed)
  | fails {r : Registers} {slice : List UInt8} {f : Fault} (h : r.handOver? = none)
      (hs : slice ≠ []) (hpass : (r.pass slice).fault = some f) :
      Reads r slice (r.pass slice).registers (.error f)

/-- **A call has at most one outcome.** -/
theorem Reads.unique {r r₁ r₂ : Registers} {slice : List UInt8} {a₁ a₂ : Answer}
    (h₁ : r.Reads slice r₁ a₁) (h₂ : r.Reads slice r₂ a₂) : r₁ = r₂ ∧ a₁ = a₂ := by
  -- what is done next is told by the registers, what is left of the slice, and the pass on it
  induction h₁ generalizing r₂ a₂ with
  | handOver h slice =>
    cases h₂ with
    | handOver h' _ => simpa using h.symm.trans h'
    | usedUp h' | goOn h' | fails h' => exact absurd (h.symm.trans h') (Option.some_ne_none _)
  | usedUp h =>
    cases h₂ with
    | handOver h' _ => exact absurd (h.symm.trans h') (Option.some_ne_none _).symm
    | usedUp _ => exact ⟨rfl, rfl⟩
    | goOn _ hs | fails _ hs => exact absurd rfl hs
  | goOn h hs hpass _ ih =>
    cases h₂ with
    | handOver h' _ => exact absurd (h.symm.trans h') (Option.some_ne_none _).symm
    | usedUp _ => exact absurd rfl hs
    | goOn _ _ _ hrest' =>
      obtain ⟨rfl, rfl⟩ := ih hrest'
      exact ⟨rfl, rfl⟩
    | fails _ _ hpass' => exact absurd (hpass.symm.trans hpass') (Option.some_ne_none _).symm
  | fails h hs hpass =>
    cases h₂ with
    | handOver h' _ => exact absurd (h.symm.trans h') (Option.some_ne_none _).symm
    | usedUp _ => exact absurd rfl hs
    | goOn _ _ hpass' _ => exact absurd (hpass.symm.trans hpass') (Option.some_ne_none _)
    | fails _ _ hpass' =>
      obtain rfl := Option.some.inj (hpass.symm.trans hpass')
      exact ⟨rfl, rfl⟩

/-! ### Lost framing -/

/-- The header under way is complete and cannot be acted on. The next pass finds it again and fails
with the fault. -/
inductive Halted (r : Registers) : Fault → Prop
  /-- All bytes of an orphaned header are there. -/
  | orphaned (hphase : r.phase = .messageHeader) (hseen : r.seen.length = r.need)
      (hplain : (MessageHeader.decode r.basic.format r.seen).isExtended = false)
      (hformat : r.basic.format ≠ 0) (hunknown : r.streams.get? r.basic.chunkStream = none) :
      Halted r (.orphanHeader r.basic.format r.basic.chunkStream)
  /-- All bytes of an extended timestamp are there, and the fields were taken away. -/
  | bereft (hphase : r.phase = .extendedTimestamp) (hseen : r.seen.length = 4) (hneed : r.need = 4)
      (hfields : r.fields = none) : Halted r .extendedWithoutHeader

/-- Framing is not lost while a payload is read. -/
theorem Halted.phase_ne_payload {r : Registers} {f : Fault} (h : r.Halted f) :
    r.phase ≠ .payload := by
  intro hpayload
  cases h with
  | orphaned hphase | bereft hphase => exact Phase.noConfusion (hpayload.symm.trans hphase)

theorem handOver?_of_ne {r : Registers} (h : r.phase ≠ .payload) : r.handOver? = none :=
  if_neg h

/-- A header of which all bytes are there takes no more. -/
theorem fill_of_le {r : Registers} (h : r.need ≤ r.seen.length) (slice : List UInt8) :
    r.fill slice = r := by
  unfold fill
  rw [Nat.sub_eq_zero_of_le h, List.take_zero, List.append_nil]

/-- **A pass on halted registers** takes nothing, fails, and leaves them as they are. -/
theorem Halted.pass {r : Registers} {f : Fault} (h : r.Halted f) (slice : List UInt8) :
    r.pass slice = ⟨r, 0, some f⟩ := by
  cases h with
  | orphaned hphase hseen hplain hformat hunknown =>
    -- no byte is missed, so that the header is complete again at once
    unfold Registers.pass
    dsimp only
    rw [hphase, fill_of_le (Nat.le_of_eq hseen.symm), hseen, Nat.sub_self, List.take_zero]
    unfold onFields
    dsimp only
    rw [if_pos hseen, hplain, if_neg Bool.false_ne_true]
    -- it opens nothing, and its chunk stream is as unknown as before
    unfold onMessageHeader
    dsimp only
    rw [if_pos ⟨hformat, hunknown⟩]
    rfl
  | bereft hphase hseen hneed hfields =>
    unfold Registers.pass
    dsimp only
    rw [hphase, fill_of_le (by omega), hseen, hneed, Nat.sub_self, List.take_zero]
    unfold onExtendedTimestamp
    rw [if_pos hseen, hfields]
    dsimp only
    -- there is nothing to take away any more
    rw [← hfields]
    rfl

end Registers

end LiveIngest.Chunk
