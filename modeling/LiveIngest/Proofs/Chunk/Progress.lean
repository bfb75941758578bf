import LiveIngest.Chunk.Demux
import LiveIngest.Proofs.Keyed

/-!
# Reading byte by byte

What the receiving side does, told one byte at a time: `Demux.step`. A turn of the machine takes as
many bytes as the stage asks for, so that a byte may be anywhere in a turn; told byte by byte, there
is nothing in the middle of which input can be cut.

A machine that is only read from never stalls and never keeps a complete message back. The invariant
is `Demux.Sound`:

* of the header under way, fewer bytes were seen than it has (`unfinished`);
* no assembly holds a complete message (`incomplete`) — a message is handed over with the byte that
  completes it, also when that byte ends its header and there is no payload;
* in the middle of a payload, the assembly of its chunk stream is there, has a message under way and
  misses bytes (`underWay`), so that the next byte has a place to go.

Main statement: `Sound.step` — the invariant holds along every byte, whatever the byte is. Changing
the chunk size keeps it at any time, and giving up a message keeps it between two chunks.
-/

namespace LiveIngest.Chunk

/-! ### Assemblies -/

namespace Assembly

variable (a : Assembly)

@[simp] theorem inProgress_append (bytes : List UInt8) :
    (a.append bytes).1.inProgress = a.inProgress := rfl

@[simp] theorem inProgress_applyHeader (h : MessageHeader) (timestamp : UInt32) :
    (a.applyHeader h timestamp).inProgress = true := by
  unfold applyHeader
  split <;> rfl

@[simp] theorem inProgress_continueOrRepeat : a.continueOrRepeat.inProgress = true := by
  unfold continueOrRepeat
  split
  · assumption
  · rfl

@[simp] theorem isComplete_clear : a.clear.isComplete = false := rfl

@[simp] theorem inProgress_clear : a.clear.inProgress = false := rfl

end Assembly

/-- Of the header under way, fewer bytes were seen than it has. -/
def Stage.Unfinished : Stage → Prop
  | .basicHeader seen => seen.length < Demux.basicNeed seen
  | .messageHeader basic seen => seen.length < messageHeaderLength basic.format
  | .extendedTimestamp _ _ seen => seen.length < 4
  | .payload _ _ | .broken _ _ => True

/-- A reader that has read nothing of a header is not done with it. -/
theorem Stage.unfinished_basicHeader_nil : (Stage.basicHeader []).Unfinished :=
  Nat.one_pos

namespace Demux

/-! ### One byte -/

/-- A byte of a header of which `seen` came before. -/
def stepField (d : Demux) (stage : List UInt8 → Stage) (need : List UInt8 → Nat)
    (done : List UInt8 → Demux × Event) (seen : List UInt8) (b : UInt8) : Demux × Event :=
  let seen := seen ++ [b]
  if seen.length < need seen then ({ d with stage := stage seen }, .quiet) else done seen

/-- A byte of a basic header of which `seen` came before. -/
def stepBasicHeader (d : Demux) (seen : List UInt8) (b : UInt8) : Demux × Event :=
  d.stepField .basicHeader basicNeed (fun seen => d.onBasicHeader (.decode seen)) seen b

def step (d : Demux) (b : UInt8) : Demux × Event :=
  match d.stage with
  | .basicHeader seen => d.stepBasicHeader seen b
  | .messageHeader basic seen =>
    d.stepField (.messageHeader basic) (fun _ => messageHeaderLength basic.format)
      (fun seen => d.onFields basic (.decode basic.format seen)) seen b
  | .extendedTimestamp chunkStream h seen =>
    d.stepField (.extendedTimestamp chunkStream h) (fun _ => 4)
      (fun seen => d.onMessageHeader chunkStream h (.ofNat (Bytes.ofBigEndian seen))
        .extendedTimestamp .extendedWithoutHeader) seen b
  | .payload chunkStream taken =>
    if d.chunkSize ≤ taken then d.stepBasicHeader [] b
    else
      match d.streams.get? chunkStream with
      | some a =>
        if a.missing = 0 then (d, .stalled)
        else d.settle chunkStream (a.append [b]).1 (taken + 1)
      | none => (d, .fault (.chunkStreamMissing chunkStream))
  | .broken _ again => (d, .fault again)

/-! ### The invariant -/

/-- The invariant of a machine that is read from. -/
structure Sound (d : Demux) : Prop where
  unfinished : d.stage.Unfinished
  incomplete : ∀ e ∈ d.streams, e.2.isComplete = false
  /-- A payload belongs to a message under way that misses bytes. -/
  underWay : ∀ c taken, d.stage = .payload c taken →
    ∃ a, d.streams.get? c = some a ∧ a.inProgress = true ∧ a.missing ≠ 0

/-- A reader is sound from the start. -/
theorem Sound.initial : Sound .initial where
  unfinished := Stage.unfinished_basicHeader_nil
  incomplete := fun _ h => absurd h (by simp [Demux.initial])
  underWay := fun _ _ h => absurd h (by simp [Demux.initial])

/-- A stage other than the payload's asks for nothing of an assembly. -/
theorem Sound.withStage {d : Demux} (h : d.Sound) {stage : Stage} (hun : stage.Unfinished)
    (hstage : ∀ c taken, stage ≠ .payload c taken) : Sound { d with stage } where
  unfinished := hun
  incomplete := h.incomplete
  underWay := fun c taken he => absurd he (hstage c taken)

/-- The chunk size may change at any time. -/
theorem Sound.setChunkSize {d : Demux} (h : d.Sound) (size : Nat) :
    (d.setChunkSize size).Sound where
  unfinished := h.unfinished
  incomplete := h.incomplete
  underWay := h.underWay

/-- A message may be given up while no payload of its chunk stream is being read. -/
theorem Sound.abort {d : Demux} (h : d.Sound) {c : UInt32}
    (hstage : ∀ taken, d.stage ≠ .payload c taken) : (d.abort c).Sound := by
  unfold Demux.abort
  cases hget : d.streams.get? c with
  | none => exact h
  | some a =>
    refine ⟨h.unfinished, fun e he => ?_, fun c' taken he => ?_⟩
    · rcases Keyed.mem_of_mem_put he with rfl | he
      · exact a.isComplete_clear
      · exact h.incomplete e he
    · -- the payload that is being read is of another chunk stream
      have hne : c' ≠ c := by
        rintro rfl
        exact hstage taken he
      obtain ⟨b, hb, hrest⟩ := h.underWay c' taken he
      exact ⟨b, (Keyed.get?_put_of_ne hne _ _).trans hb, hrest⟩

/-- Putting back a chunk stream with a message under way: a complete message leaves its assembly,
and any other misses bytes. -/
theorem Sound.settle {d : Demux} (h : d.Sound) (c : UInt32) {a : Assembly}
    (ha : a.inProgress = true) (taken : Nat) : (d.settle c a taken).1.Sound := by
  unfold Demux.settle
  split
  · -- the message was handed over
    refine ⟨Stage.unfinished_basicHeader_nil, fun e he => ?_, fun _ _ he => Stage.noConfusion he⟩
    rcases Keyed.mem_of_mem_put he with rfl | he
    · exact a.isComplete_clear
    · exact h.incomplete e he
  · -- the assembly goes back; it misses bytes, since it is under way and not complete
    rename_i hnot
    have hmissing : a.missing ≠ 0 := fun hm => hnot (by simp [Assembly.isComplete, ha, hm])
    refine ⟨?_, fun e he => ?_, fun c' taken' he => ?_⟩
    · dsimp only
      split
      · exact Stage.unfinished_basicHeader_nil
      · trivial
    · rcases Keyed.mem_of_mem_put he with rfl | he
      · exact Bool.eq_false_iff.2 hnot
      · exact h.incomplete e he
    · by_cases hfull : d.chunkSize ≤ taken
      · rw [if_pos hfull] at he
        exact Stage.noConfusion he
      · rw [if_neg hfull] at he
        obtain ⟨rfl, -⟩ := Stage.payload.inj he
        exact ⟨a, Keyed.get?_put_self c a d.streams, ha, hmissing⟩

/-! ### What a byte does -/

/-- What a byte may do to a machine that is read from: it goes on to a stage outside of a payload,
it finds framing lost, or it puts back a chunk stream with a message under way. -/
inductive Outcome (d : Demux) : Demux × Event → Prop
  /-- The byte belongs to a header that goes on. -/
  | goOn {stage : Stage} (hun : stage.Unfinished) (h : ∀ c taken, stage ≠ .payload c taken) :
      Outcome d ({ d with stage }, .quiet)
  /-- Framing is lost, or was lost before. -/
  | lost (phase : Phase) (again f : Fault) :
      Outcome d ({ d with stage := .broken phase again }, .fault f)
  | settled (c : UInt32) {a : Assembly} (h : a.inProgress = true) (taken : Nat) :
      Outcome d (d.settle c a taken)

/-- A lost chunk is an outcome: the reader stops and yields nothing. -/
theorem Outcome.lose (d : Demux) (phase : Phase) (fault again : Fault) :
    d.Outcome (d.lose phase fault again) :=
  .lost phase again fault

/-- A message header leads to an outcome, whether or not its time is extended. -/
theorem Outcome.onMessageHeader (d : Demux) (c : UInt32) (header : MessageHeader)
    (timestamp : UInt32) (phase : Phase) (again : Fault) :
    d.Outcome (d.onMessageHeader c header timestamp phase again) := by
  unfold Demux.onMessageHeader
  -- a known chunk stream takes over the header, and format 0 opens an unknown one
  split
  · exact .settled c (Assembly.inProgress_applyHeader _ _ _) 0
  · split
    · exact .settled c (Assembly.inProgress_applyHeader _ _ _) 0
    · exact .lose d _ _ _

/-- A basic header alone leads to an outcome where it carries on what is there. -/
theorem Outcome.onBasicHeader (d : Demux) (basic : BasicHeader) :
    d.Outcome (d.onBasicHeader basic) := by
  unfold Demux.onBasicHeader
  -- format 3 goes straight to the payload
  split
  · split
    · exact .settled _ (Assembly.inProgress_continueOrRepeat _) 0
    · exact .lose d _ _ _
  · rename_i hlength
    exact .goOn (Nat.pos_of_ne_zero hlength) fun _ _ he => Stage.noConfusion he

/-- The fields of a header lead to an outcome. -/
theorem Outcome.onFields (d : Demux) (basic : BasicHeader) (header : MessageHeader) :
    d.Outcome (d.onFields basic header) := by
  unfold Demux.onFields
  split
  · exact .goOn (Nat.succ_pos 3) fun _ _ he => Stage.noConfusion he
  · exact .onMessageHeader d _ _ _ _ _

/-- A byte of a header goes on with the header, or it is what completes it. -/
theorem Outcome.stepField (d : Demux) {stage : List UInt8 → Stage} {need : List UInt8 → Nat}
    {done : List UInt8 → Demux × Event}
    (hun : ∀ seen, seen.length < need seen → (stage seen).Unfinished)
    (hstage : ∀ seen c taken, stage seen ≠ .payload c taken)
    (hdone : ∀ seen, d.Outcome (done seen)) (seen : List UInt8) (b : UInt8) :
    d.Outcome (d.stepField stage need done seen b) := by
  unfold Demux.stepField
  dsimp only
  split
  · rename_i hless
    exact .goOn (hun _ hless) (hstage _)
  · exact hdone _

/-- Each byte of a basic header leads to an outcome. -/
theorem Outcome.stepBasicHeader (d : Demux) (seen : List UInt8) (b : UInt8) :
    d.Outcome (d.stepBasicHeader seen b) :=
  .stepField d (fun _ hless => hless) (fun _ _ _ he => Stage.noConfusion he)
    (fun _ => .onBasicHeader d _) seen b

/-- **What a byte does** to a sound machine, whatever the byte is. The invariant excludes the one
case that `Outcome` leaves out, a payload byte without an assembly that misses it. -/
theorem Sound.outcome_step {d : Demux} (h : d.Sound) (b : UInt8) : d.Outcome (d.step b) := by
  unfold Demux.step
  split
  · exact .stepBasicHeader d _ b
  · exact .stepField d (fun _ hless => hless) (fun _ _ _ he => Stage.noConfusion he)
      (fun _ => .onFields d _ _) _ b
  · exact .stepField d (fun _ hless => hless) (fun _ _ _ he => Stage.noConfusion he)
      (fun _ => .onMessageHeader d _ _ _ _ _) _ b
  · rename_i c taken hstage
    -- the invariant gives an assembly that misses bytes
    obtain ⟨a, hget, hprogress, hmissing⟩ := h.underWay c taken hstage
    split
    · exact .stepBasicHeader d _ b
    · rw [hget]
      dsimp only
      rw [if_neg hmissing]
      exact .settled c ((a.inProgress_append [b]).trans hprogress) (taken + 1)
  · rename_i phase again hstage
    have hlost : d.Outcome ({ d with stage := .broken phase again }, .fault again) :=
      .lost phase again again
    rwa [← hstage] at hlost

/-- **The invariant holds along every byte.** -/
theorem Sound.step {d : Demux} (h : d.Sound) (b : UInt8) : (d.step b).1.Sound := by
  -- what the byte is does not matter, only what it did
  have hout := h.outcome_step b
  revert hout
  generalize d.step b = out
  rintro (⟨hun, hstage⟩ | ⟨phase, again, f⟩ | ⟨c, ha, taken⟩)
  · exact h.withStage hun hstage
  · exact h.withStage trivial fun _ _ he => Stage.noConfusion he
  · exact h.settle c ha taken

/-- **Nothing stalls.** -/
theorem Sound.step_ne_stalled {d : Demux} (h : d.Sound) (b : UInt8) : (d.step b).2 ≠ .stalled := by
  have hout := h.outcome_step b
  revert hout
  generalize d.step b = out
  rintro (⟨hun, hstage⟩ | ⟨phase, again, f⟩ | ⟨c, ha, taken⟩)
  · exact Event.noConfusion
  · exact Event.noConfusion
  · unfold Demux.settle
    split <;> exact Event.noConfusion

/-- After a packet the reader stands at the next basic header. -/
theorem Sound.stage_of_packet {d d' : Demux} (h : d.Sound) {b : UInt8} {p : Packet}
    (hstep : d.step b = (d', .packet p)) : d'.stage = .basicHeader [] := by
  have hout := h.outcome_step b
  revert hout
  rw [hstep]
  generalize hpair : (d', Event.packet p) = out
  rintro (⟨hun, hstage⟩ | ⟨phase, again, f⟩ | ⟨c, ha, taken⟩)
  · exact absurd (congrArg Prod.snd hpair) Event.noConfusion
  · exact absurd (congrArg Prod.snd hpair) Event.noConfusion
  · -- only a complete message is handed over, and then a header follows
    unfold Demux.settle at hpair
    split at hpair
    · obtain ⟨rfl, -⟩ := Prod.mk.inj hpair
      rfl
    · exact absurd (congrArg Prod.snd hpair) Event.noConfusion

/-! ### Between two chunks -/

/-- Between two chunks. There the chunk size may change, and any message may be given up. -/
def Idle (d : Demux) : Prop :=
  d.Sound ∧ d.stage = .basicHeader []

/-- A new chunk size starts nothing. -/
theorem Idle.setChunkSize {d : Demux} (h : d.Idle) (size : Nat) : (d.setChunkSize size).Idle :=
  ⟨h.1.setChunkSize size, h.2⟩

/-- An abort starts nothing. -/
theorem Idle.abort {d : Demux} (h : d.Idle) (c : UInt32) : (d.abort c).Idle := by
  refine ⟨h.1.abort fun taken he => ?_, ?_⟩
  · rw [h.2] at he
    exact Stage.noConfusion he
  · unfold Demux.abort
    split
    · exact h.2
    · exact h.2

/-- A message is handed over between two chunks. -/
theorem Sound.idle_of_packet {d d' : Demux} (h : d.Sound) {b : UInt8} {p : Packet}
    (hstep : d.step b = (d', .packet p)) : d'.Idle := by
  have hnext := h.step b
  rw [hstep] at hnext
  exact ⟨hnext, h.stage_of_packet hstep⟩

end Demux

end LiveIngest.Chunk
