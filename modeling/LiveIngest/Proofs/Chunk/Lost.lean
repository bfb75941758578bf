import LiveIngest.Proofs.Chunk.Simulation

/-!
# Lost framing stays lost

A caller hands over slices, changes the chunk size and gives up messages, in any order and as long
as every call ends (`Registers.Runs`). Once a slice was answered by a fault, the registers are
halted, and each call leaves them so: a slice finds the same header again, a chunk size is nothing a
header depends on, and giving up a message clears an assembly without making one. The last matters
most, since a chunk stream that became known would let the header pass.

Main statement: `refuses_of_fault` — behind a fault, every slice that is not empty is answered by
one and the same fault, whatever is done in between.
-/

namespace LiveIngest.Chunk

/-- What may be asked of the receiving side. -/
inductive Call
  | parse (slice : List UInt8)
  | setChunkSize (size : Nat)
  | abort (chunkStream : UInt32)
  deriving DecidableEq, Repr

/-- The slice that is handed over. -/
def Call.slice? : Call → Option (List UInt8)
  | .parse slice => some slice
  | .setChunkSize _ | .abort _ => none

/-- Calls on a machine, with an answer for each slice. One on which the machine stalls has none. -/
def Demux.run (d : Demux) : List Call → Demux × List (Option Answer)
  | [] => (d, [])
  | .parse slice :: calls =>
    let now := d.parse slice
    let later := now.demux.run calls
    (later.1, now.answer? :: later.2)
  | .setChunkSize size :: calls => (d.setChunkSize size).run calls
  | .abort c :: calls => (d.abort c).run calls

theorem Demux.stage_abort (d : Demux) (c : UInt32) : (d.abort c).stage = d.stage := by
  unfold abort
  split <;> rfl

/-- The answer that takes no byte and gives no message: a fault, unless there is nothing to read. -/
def refusal (again : Fault) (slice : List UInt8) : Answer :=
  if slice = [] then .ok (0, none) else .error again

namespace Registers

/-- Calls that end, with an answer for each slice. -/
inductive Runs : Registers → List Call → Registers → List Answer → Prop
  | nil (r : Registers) : Runs r [] r []
  | parse {r r₁ r' : Registers} {slice : List UInt8} {a : Answer} {calls : List Call}
      {answers : List Answer} (h : r.Reads slice r₁ a) (hlater : Runs r₁ calls r' answers) :
      Runs r (.parse slice :: calls) r' (a :: answers)
  | setChunkSize {r r' : Registers} {size : Nat} {calls : List Call} {answers : List Answer}
      (hlater : Runs (r.setChunkSize size) calls r' answers) :
      Runs r (.setChunkSize size :: calls) r' answers
  | abort {r r' : Registers} {c : UInt32} {calls : List Call} {answers : List Answer}
      (hlater : Runs (r.abort c) calls r' answers) : Runs r (.abort c :: calls) r' answers

/-- Calls are answered one part after the other. -/
theorem Runs.append {r r₁ r' : Registers} {calls more : List Call} {answers given : List Answer}
    (h : r.Runs calls r₁ answers) (hmore : r₁.Runs more r' given) :
    r.Runs (calls ++ more) r' (answers ++ given) := by
  induction h with
  | nil => exact hmore
  | parse hreads _ ih => exact .parse hreads (ih hmore)
  | setChunkSize _ ih => exact .setChunkSize (ih hmore)
  | abort _ ih => exact .abort (ih hmore)

variable {r : Registers} {d : Demux}

/-! ### Calls on halted registers -/

/-- Giving up a message changes chunk streams only. -/
theorem exists_abort (r : Registers) (c : UInt32) :
    ∃ streams, r.abort c = { r with streams } := by
  unfold abort
  split
  · exact ⟨_, rfl⟩
  · exact ⟨_, rfl⟩

/-- It clears the one chunk stream, if that is known. -/
theorem get?_abort (r : Registers) (c c' : UInt32) :
    (r.abort c).streams.get? c' =
      if c' = c then (r.streams.get? c).map Assembly.clear else r.streams.get? c' := by
  unfold abort
  cases hget : r.streams.get? c with
  | some a => exact Keyed.get?_put c c' _ _
  -- an abort of a chunk stream that is not known changes nothing
  | none =>
    dsimp only
    split
    · rename_i heq
      rw [heq]
      exact hget
    · rfl

/-- An abort neither opens nor closes a chunk stream. -/
theorem get?_abort_eq_none_iff (r : Registers) (c c' : UInt32) :
    (r.abort c).streams.get? c' = none ↔ r.streams.get? c' = none := by
  rw [get?_abort]
  split
  · rename_i heq
    rw [heq, Option.map_eq_none_iff]
  · exact Iff.rfl

/-- A reader that has failed stays so under a new chunk size. -/
theorem Halted.setChunkSize {f : Fault} (h : r.Halted f) (size : Nat) :
    (r.setChunkSize size).Halted f := by
  cases h with
  | orphaned hphase hseen hplain hformat hunknown =>
    exact .orphaned hphase hseen hplain hformat hunknown
  | bereft hphase hseen hneed hfields => exact .bereft hphase hseen hneed hfields

/-- A reader that has failed stays so when a message is aborted. -/
theorem Halted.abort {f : Fault} (h : r.Halted f) (c : UInt32) : (r.abort c).Halted f := by
  have hnone := r.get?_abort_eq_none_iff c
  obtain ⟨streams, habort⟩ := r.exists_abort c
  rw [habort] at hnone ⊢
  cases h with
  | orphaned hphase hseen hplain hformat hunknown =>
    exact .orphaned hphase hseen hplain hformat ((hnone _).2 hunknown)
  | bereft hphase hseen hneed hfields => exact .bereft hphase hseen hneed hfields

/-- **A call on halted registers** leaves them as they are. It is refused. -/
theorem Halted.reads_iff {f : Fault} (h : r.Halted f) {slice : List UInt8} {r' : Registers}
    {a : Answer} : r.Reads slice r' a ↔ r' = r ∧ a = refusal f slice := by
  have hhead := handOver?_of_ne h.phase_ne_payload
  -- there is always this reading, and readings are unique
  have hreads : r.Reads slice r (refusal f slice) := by
    by_cases hs : slice = []
    · subst hs
      exact .usedUp hhead
    · have hpass := h.pass slice
      have hfails : r.Reads slice (r.pass slice).registers (.error f) :=
        .fails hhead hs (by rw [hpass])
      rw [hpass] at hfails
      unfold refusal
      rw [if_neg hs]
      exact hfails
  constructor
  · exact fun hother => hother.unique hreads
  · rintro ⟨rfl, rfl⟩
    exact hreads

/-- **Calls on halted registers** are refused one after the other, and make no chunk stream
known. -/
theorem Halted.runs {f : Fault} (h : r.Halted f) (calls : List Call) :
    ∃ last, (∀ r' answers, r.Runs calls r' answers ↔
        r' = last ∧ answers = (calls.filterMap Call.slice?).map (refusal f)) ∧
      ∀ c, last.streams.get? c = none ↔ r.streams.get? c = none := by
  -- by induction on the calls: each leaves the registers halted
  induction calls generalizing r with
  | nil =>
    refine ⟨r, fun r' answers => ⟨?_, ?_⟩, fun _ => Iff.rfl⟩
    · rintro ⟨⟩
      exact ⟨rfl, rfl⟩
    · rintro ⟨rfl, rfl⟩
      exact .nil _
  | cons call calls ih =>
    cases call with
    | parse slice =>
      obtain ⟨last, hruns, hknown⟩ := ih h
      refine ⟨last, fun r' answers => ⟨?_, ?_⟩, hknown⟩
      · rintro (_ | ⟨hreads, hlater⟩)
        obtain ⟨rfl, rfl⟩ := h.reads_iff.1 hreads
        obtain ⟨rfl, rfl⟩ := (hruns _ _).1 hlater
        exact ⟨rfl, rfl⟩
      · rintro ⟨rfl, rfl⟩
        exact .parse (h.reads_iff.2 ⟨rfl, rfl⟩) ((hruns _ _).2 ⟨rfl, rfl⟩)
    | setChunkSize size =>
      obtain ⟨last, hruns, hknown⟩ := ih (h.setChunkSize size)
      refine ⟨last, fun r' answers => ⟨?_, ?_⟩, hknown⟩
      · rintro (_ | _ | hlater)
        exact (hruns _ _).1 hlater
      · exact fun hlast => .setChunkSize ((hruns _ _).2 hlast)
    | abort c =>
      obtain ⟨last, hruns, hknown⟩ := ih (h.abort c)
      refine ⟨last, fun r' answers => ⟨?_, ?_⟩, fun c' =>
        (hknown c').trans (r.get?_abort_eq_none_iff c c')⟩
      · rintro (_ | _ | _ | hlater)
        exact (hruns _ _).1 hlater
      · exact fun hlast => .abort ((hruns _ _).2 hlast)

/-! ### Calls on registers of a machine -/

/-- Both readers take a new chunk size alike. -/
theorem Shows.setChunkSize (h : r.Shows d) (size : Nat) :
    (r.setChunkSize size).Shows (d.setChunkSize size) := by
  refine ⟨⟨rfl, Nat.lt_of_lt_of_le Nat.one_pos (Nat.le_max_right _ _), h.streams⟩, ?_⟩
  have hstage := h.stage
  show (r.setChunkSize size).AtStage d.stage
  -- no stage names the chunk size
  cases hd : d.stage with
  | broken phase again =>
    rw [hd] at hstage
    exact ⟨hstage.1, hstage.2.setChunkSize size⟩
  | basicHeader | messageHeader | extendedTimestamp | payload =>
    rw [hd] at hstage
    exact hstage

/-- An abort drops the same pending message on both sides. -/
theorem Alike.abort (h : r.Alike d) (c : UInt32) : (r.abort c).Alike (d.abort c) := by
  unfold Registers.abort Demux.abort
  rw [← h.streams c]
  cases hget : r.streams.get? c with
  | some a => exact ⟨h.chunkSize, h.chunkSize_pos, h.get?_put c a.clear⟩
  | none => exact h

/-- Both readers obey an abort alike, and also in the middle of a chunk. -/
theorem Shows.abort (h : r.Shows d) (c : UInt32) : (r.abort c).Shows (d.abort c) := by
  refine ⟨h.toAlike.abort c, ?_⟩
  have hstage := h.stage
  have hget := r.get?_abort c
  rw [Demux.stage_abort]
  cases hd : d.stage with
  | broken phase again =>
    rw [hd] at hstage
    obtain ⟨hphase, hhalted⟩ := hstage
    have habort := hhalted.abort c
    obtain ⟨streams, heq⟩ := r.exists_abort c
    rw [heq] at habort ⊢
    exact ⟨hphase, habort⟩
  | payload c' taken =>
    -- given up or not, the message of the chunk is not complete
    rw [hd] at hstage
    obtain ⟨hphase, hstream, htaken, a, hknown, hincomplete⟩ := hstage
    have hstill : ∃ a', (r.abort c).streams.get? c' = some a' ∧ a'.isComplete = false := by
      rw [hget]
      split
      · rename_i heq
        exact ⟨a.clear, by rw [← heq, hknown]; rfl, a.isComplete_clear⟩
      · exact ⟨a, hknown, hincomplete⟩
    obtain ⟨streams, heq⟩ := r.exists_abort c
    rw [heq] at hstill ⊢
    exact ⟨hphase, hstream, htaken, hstill⟩
  | basicHeader | messageHeader | extendedTimestamp =>
    rw [hd] at hstage
    obtain ⟨streams, heq⟩ := r.exists_abort c
    rw [heq]
    exact hstage

/-- **A run of calls on registers is one on the machine.** -/
theorem Runs.shows {r' : Registers} {calls : List Call} {answers : List Answer}
    (hruns : r.Runs calls r' answers) (h : r.Shows d) :
    (d.run calls).2 = answers.map some ∧ r'.Shows (d.run calls).1 := by
  induction hruns generalizing d with
  | nil => exact ⟨rfl, h⟩
  | parse hreads _ ih =>
    obtain ⟨hanswer, hshows, -⟩ := h.reads hreads
    obtain ⟨hanswers, hlast⟩ := ih hshows
    refine ⟨?_, hlast⟩
    show (d.parse _).answer? :: _ = _
    rw [hanswer, hanswers]
    rfl
  | setChunkSize _ ih => exact ih (h.setChunkSize _)
  | abort _ ih => exact ih (h.abort _)

/-- **Lost framing stays lost.** Whatever was called before a slice was answered by a fault, there
is one fault that answers every later slice that is not empty, in any run of later calls. No later
call hands over a message, and the chunk streams that are known stay the same ones. The machine
gives the same answers and knows the same chunk streams. -/
theorem refuses_of_fault {before : List Call} {answers : List Answer} {r r' : Registers}
    (hbefore : Registers.initial.Runs before r answers) {slice : List UInt8} {f : Fault}
    (hfault : r.Reads slice r' (.error f)) :
    ∃ again, ∀ later, ∃ last,
      (∀ r'' given, r'.Runs later r'' given ↔
        r'' = last ∧ given = (later.filterMap Call.slice?).map (refusal again)) ∧
      (∀ c, last.streams.get? c = none ↔ r'.streams.get? c = none) ∧
      (Demux.initial.run (before ++ .parse slice :: later)).2 =
        (answers ++ .error f :: (later.filterMap Call.slice?).map (refusal again)).map some ∧
      ∀ c, (Demux.initial.run (before ++ .parse slice :: later)).1.streams.get? c =
        last.streams.get? c := by
  -- the registers before the fault are those of the machine, so that the fault halts them
  obtain ⟨-, hshows⟩ := hbefore.shows .initial
  obtain ⟨-, -, hhalted⟩ := hshows.reads hfault
  obtain ⟨again, hagain⟩ := hhalted f rfl
  refine ⟨again, fun later => ?_⟩
  obtain ⟨last, hruns, hknown⟩ := hagain.runs later
  have hall := hbefore.append (.parse hfault ((hruns _ _).2 ⟨rfl, rfl⟩))
  obtain ⟨hanswers, hlast⟩ := hall.shows .initial
  exact ⟨last, hruns, hknown, hanswers, fun c => (hlast.streams c).symm⟩

/-- A header of format 1 with an extended timestamp, on a chunk stream that was never opened. Behind
it, neither a well formed chunk nor a new chunk size nor giving up a message brings the framing
back. -/
theorem refuses_of_fault_bereft :
    let orphan := [0x44, 0xff, 0xff, 0xff, 0, 0, 1, 8, 1, 0, 0, 0]
    let wellFormed := [4, 0, 0, 0, 0, 0, 1, 8, 1, 0, 0, 0, 0xff]
    let later : List Call := [.parse wellFormed, .setChunkSize 4096, .parse [], .abort 4,
      .parse wellFormed]
    ∃ r r' last, Registers.initial.Runs [.setChunkSize 1] r [] ∧
      r.Reads orphan r' (.error (.orphanHeader 1 4)) ∧
      r'.Runs later last
        [.error .extendedWithoutHeader, .ok (0, none), .error .extendedWithoutHeader] ∧
      last.streams.get? 4 = none := by
  intro orphan wellFormed later
  let r := Registers.initial.setChunkSize 1
  have hbefore : Registers.initial.Runs [.setChunkSize 1] r [] := .setChunkSize (.nil r)
  have hfault : ∃ r', r.Reads orphan r' (.error (.orphanHeader 1 4)) ∧
      r'.streams.get? 4 = none :=
    ⟨_, .goOn (a := .error _) (by decide) (by decide) (by decide)
      (.goOn (a := .error _) (by decide) (by decide) (by decide)
        (.fails (by decide) (by decide) (by decide))), by decide⟩
  obtain ⟨r', hreads, hunknown⟩ := hfault
  obtain ⟨again, hlater⟩ := refuses_of_fault hbefore hreads
  obtain ⟨last, hruns, hknown, hanswers, -⟩ := hlater later
  have hrefusals : (later.filterMap Call.slice?).map (refusal again) =
      [.error again, .ok (0, none), .error again] := rfl
  -- which fault is repeated is read off the machine
  have hmachine : (Demux.initial.run ([.setChunkSize 1] ++ .parse orphan :: later)).2 =
      [some (.error (.orphanHeader 1 4)), some (.error .extendedWithoutHeader),
        some (.ok (0, none)), some (.error .extendedWithoutHeader)] := by decide +kernel
  rw [hmachine, hrefusals] at hanswers
  obtain rfl : Fault.extendedWithoutHeader = again := by simpa using hanswers
  exact ⟨r, r', last, hbefore, hreads, (hruns _ _).2 ⟨rfl, hrefusals.symm⟩, (hknown 4).2 hunknown⟩

end Registers

end LiveIngest.Chunk
