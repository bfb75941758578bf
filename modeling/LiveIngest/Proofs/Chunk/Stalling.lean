import LiveIngest.Proofs.Chunk.Reading

/-!
# Calls that never end

A call of `Demux.parse` makes turns until there is something to tell. `Demux.loop` makes the same
turns, but without the look at what a turn took, and with a bound on their number: a call ends if
some number of turns is enough.

A message may be given up at any moment, also between two slices of one chunk. Of the invariant of
`Demux.Sound` there is then left that no assembly holds a complete message, and that the chunk
stream of a payload is known (`Demux.Steady`). The rest of the chunk is taken as if it belonged to a
message that starts there. Where the announced length ends inside the chunk, the next byte is
nobody's: the machine is **stuck**, a turn takes nothing and changes nothing, and the call makes
turns for ever.

Main statement: `loop_ends_iff` — from every machine that calls lead to, with the chunk size changed
and messages given up at any moment, a call ends exactly if it does not meet that byte. A machine
that gives up messages only between two chunks never does.
-/

namespace LiveIngest.Chunk.Demux

/-! ### Turns without end -/

/-- A call that may make `turns` turns, if they are enough. -/
def loop : (turns : Nat) → Demux → List UInt8 → Option Reading
  | 0, _, _ => none
  | turns + 1, d, slice =>
    if slice = [] then some ⟨d, 0, .quiet⟩
    else
      let r := d.turn slice
      match r.event with
      | .quiet => (loop turns r.demux (slice.drop r.consumed)).map (·.after r.consumed)
      | _ => some r

/-- After `taken` bytes of a chunk, its message was given up; `a` is its assembly. -/
structure GivenUp (d : Demux) (c : UInt32) (taken : Nat) (a : Assembly) : Prop where
  stage : d.stage = .payload c taken
  assembly : d.streams.get? c = some a
  notUnderWay : a.inProgress = false

/-- The message of a chunk was given up, the length announced for it ends inside the chunk, and the
slice goes on behind that. -/
def Stuck (d : Demux) (slice : List UInt8) : Prop :=
  ∃ c taken a, d.GivenUp c taken a ∧ taken + a.missing < d.chunkSize ∧ a.missing < slice.length

theorem loop_nil (d : Demux) (turns : Nat) : loop (turns + 1) d [] = some ⟨d, 0, .quiet⟩ := by
  rw [loop, if_pos rfl]

/-- A turn that brings nothing is followed by the others. -/
theorem loop_of_quiet {d : Demux} {slice : List UInt8} (hs : slice ≠ [])
    (hq : (d.turn slice).event = .quiet) (turns : Nat) :
    loop (turns + 1) d slice = (loop turns (d.turn slice).demux
      (slice.drop (d.turn slice).consumed)).map (·.after (d.turn slice).consumed) := by
  rw [loop, if_neg hs]
  dsimp only
  rw [hq]

/-- A turn that brings something is the last one. -/
theorem loop_of_ne {d : Demux} {slice : List UInt8} (hs : slice ≠ [])
    (hq : (d.turn slice).event ≠ .quiet) (turns : Nat) :
    loop (turns + 1) d slice = some (d.turn slice) := by
  rw [loop, if_neg hs]
  dsimp only
  split
  · rename_i he
    exact absurd he hq
  · rfl

/-- **A call that does not stall ends**: a turn for each byte is enough, and a look behind the last
one. -/
theorem loop_eq_parse {d : Demux} {slice : List UInt8} (h : (d.parse slice).event ≠ .stalled)
    {turns : Nat} (hturns : slice.length < turns) : loop turns d slice = some (d.parse slice) := by
  induction turns generalizing d slice with
  | zero => exact absurd hturns (Nat.not_lt_zero _)
  | succ turns ih =>
    by_cases hs : slice = []
    · rw [hs, parse_nil]
      exact loop_nil d turns
    have hr : (d.turn slice).consumed ≠ 0 := by
      intro hzero
      refine h ?_
      unfold parse
      rw [dif_neg hs, dif_pos hzero]
    by_cases hq : (d.turn slice).event = .quiet
    · -- the turn takes a byte, so that one turn less is enough for the others
      have hpos := List.length_pos_iff.2 hs
      have hless : (slice.drop (d.turn slice).consumed).length < turns := by
        rw [List.length_drop]
        omega
      rw [parse_of_quiet hs hr hq] at h ⊢
      rw [loop_of_quiet hs hq, ih h hless]
      rfl
    · rw [parse_of_ne hs hr hq]
      exact loop_of_ne hs hq turns

/-- More turns change nothing. -/
theorem loop_of_le {d : Demux} {slice : List UInt8} {turns more : Nat} (h : turns ≤ more)
    {r : Reading} (hr : d.loop turns slice = some r) : d.loop more slice = some r := by
  induction turns generalizing d slice more r with
  | zero => cases hr
  | succ turns ih =>
    obtain ⟨more, rfl⟩ := Nat.exists_eq_add_one_of_ne_zero (n := more) (by omega)
    by_cases hs : slice = []
    · rw [hs, loop_nil] at hr ⊢
      exact hr
    -- only a quiet turn goes on with the rest of the slice
    by_cases hq : (d.turn slice).event = .quiet
    · rw [loop_of_quiet hs hq] at hr ⊢
      obtain ⟨later, hlater, rfl⟩ := Option.map_eq_some_iff.1 hr
      rw [ih (by omega) hlater]
      rfl
    · rw [loop_of_ne hs hq] at hr ⊢
      exact hr

/-- A call that does not stall has one outcome. -/
theorem eq_parse_of_loop {d : Demux} {slice : List UInt8} (h : (d.parse slice).event ≠ .stalled)
    {turns : Nat} {r : Reading} (hr : d.loop turns slice = some r) : r = d.parse slice := by
  have hmore := loop_of_le (Nat.le_add_right turns (slice.length + 1)) hr
  rw [loop_eq_parse h (by omega)] at hmore
  exact (Option.some.inj hmore).symm

/-- A turn takes no more than there is. -/
theorem consumed_turn_le (d : Demux) {slice : List UInt8} (hs : slice ≠ []) :
    (d.turn slice).consumed ≤ slice.length := by
  have hpos := List.length_pos_iff.2 hs
  have hfield : ∀ (stage : List UInt8 → Stage) (need : List UInt8 → Nat)
      (done : List UInt8 → Demux × Event) (seen : List UInt8),
      (d.turnField stage need done seen slice).consumed ≤ slice.length :=
    fun _ _ _ _ => List.length_take_le' _ _
  -- every stage takes from the front of the slice
  unfold turn
  split
  · exact hfield _ _ _ _
  · exact hfield _ _ _ _
  · exact hfield _ _ _ _
  · split
    · exact hfield _ _ _ _
    · unfold turnPayload
      split
      · exact Nat.le_trans (List.length_take_le' _ _) (List.length_take_le' _ _)
      · exact hpos
  · exact hpos

/-- A call that brings nothing has taken its slice. -/
theorem consumed_of_quiet {d : Demux} {slice : List UInt8} (h : (d.parse slice).event = .quiet) :
    (d.parse slice).consumed = slice.length := by
  fun_induction d.parse slice with
  | case1 => rfl
  | case2 => exact Event.noConfusion h
  -- the turn took a part, and the call behind it the rest
  | case3 d slice hs r hr hq ih =>
    have htaken := consumed_turn_le d hs
    have hrest := ih h
    rw [List.length_drop] at hrest
    rw [Reading.consumed_after, hrest]
    show (d.turn slice).consumed + (slice.length - (d.turn slice).consumed) = slice.length
    omega
  | case4 d slice hs r hr hq => exact absurd h hq

/-! ### Messages given up in the middle of a chunk -/

/-- The invariant of a machine that is read from while messages are given up at any moment. -/
structure Steady (d : Demux) : Prop where
  unfinished : d.stage.Unfinished
  incomplete : ∀ e ∈ d.streams, e.2.isComplete = false
  /-- The chunk stream of a payload is known. -/
  known : ∀ c taken, d.stage = .payload c taken → ∃ a, d.streams.get? c = some a

theorem Sound.steady {d : Demux} (h : d.Sound) : d.Steady where
  unfinished := h.unfinished
  incomplete := h.incomplete
  known := fun c taken he =>
    let ⟨a, hget, _⟩ := h.underWay c taken he
    ⟨a, hget⟩

theorem Steady.setChunkSize {d : Demux} (h : d.Steady) (size : Nat) :
    (d.setChunkSize size).Steady :=
  ⟨h.unfinished, h.incomplete, h.known⟩

/-- **A message may be given up at any moment.** -/
theorem Steady.abort {d : Demux} (h : d.Steady) (c : UInt32) : (d.abort c).Steady := by
  unfold Demux.abort
  cases hget : d.streams.get? c with
  | none => exact h
  | some a =>
    -- what was complete has left, so a cleared message is as incomplete as the others
    refine ⟨h.unfinished, fun e he => ?_, fun c' taken he => ?_⟩
    · rcases Keyed.mem_of_mem_put he with rfl | he
      · exact a.isComplete_clear
      · exact h.incomplete e he
    · obtain ⟨b, hb⟩ := h.known c' taken he
      rw [Keyed.get?_put]
      split
      · exact ⟨_, rfl⟩
      · exact ⟨b, hb⟩

/-- Outside of the payload of a message that was given up, the machine is sound. -/
theorem Steady.sound {d : Demux} (h : d.Steady)
    (hprogress : ∀ c taken a, d.stage = .payload c taken → d.streams.get? c = some a →
      a.inProgress = true) : d.Sound := by
  refine ⟨h.unfinished, h.incomplete, fun c taken hstage => ?_⟩
  obtain ⟨a, hget⟩ := h.known c taken hstage
  have hunder := hprogress c taken a hstage hget
  -- a message under way that misses nothing would be complete
  refine ⟨a, hget, hunder, fun hmissing => ?_⟩
  have hincomplete := h.incomplete _ (Keyed.mem_of_get? hget)
  unfold Assembly.isComplete at hincomplete
  rw [hunder, hmissing] at hincomplete
  exact absurd hincomplete (by decide)

/-- A call begins with a turn, and asks no more of the machine. -/
theorem parse_congr {d d' : Demux} {slice : List UInt8} (hturn : d.turn slice = d'.turn slice)
    (hr : (d.turn slice).consumed ≠ 0) (hs : slice ≠ []) : d.parse slice = d'.parse slice := by
  by_cases hq : (d.turn slice).event = .quiet
  · rw [parse_of_quiet hs hr hq, parse_of_quiet hs (hturn ▸ hr) (hturn ▸ hq), hturn]
  · rw [parse_of_ne hs hr hq, parse_of_ne hs (hturn ▸ hr) (hturn ▸ hq), hturn]

/-- Behind a chunk, the machine is sound. -/
theorem Steady.sound_basicHeader {d : Demux} (h : d.Steady) :
    Sound { d with stage := .basicHeader [] } :=
  ⟨Stage.unfinished_basicHeader_nil, h.incomplete, fun _ _ he => Stage.noConfusion he⟩

/-- A header that misses bytes takes some. -/
theorem consumed_turnField_ne_zero (d : Demux) (stage : List UInt8 → Stage)
    {need : List UInt8 → Nat} (done : List UInt8 → Demux × Event) {seen : List UInt8}
    (hun : seen.length < need seen) {slice : List UInt8} (hs : slice ≠ []) :
    (d.turnField stage need done seen slice).consumed ≠ 0 := by
  have hpos := List.length_pos_iff.2 hs
  show (slice.take (need seen - seen.length)).length ≠ 0
  rw [List.length_take]
  omega

/-- Where the chunk size was lowered to what was taken, the chunk is over. -/
theorem parse_of_full {d : Demux} {c : UInt32} {taken : Nat} (hstage : d.stage = .payload c taken)
    (hfull : d.chunkSize ≤ taken) {slice : List UInt8} (hs : slice ≠ []) :
    d.parse slice = parse { d with stage := .basicHeader [] } slice := by
  -- nothing is taken for the chunk, and a header begins with this byte
  have hturn : d.turn slice = d.turnBasicHeader [] slice := by
    unfold turn
    rw [hstage]
    dsimp only
    rw [if_pos hfull]
  refine parse_congr (hturn.trans rfl) ?_ hs
  rw [hturn]
  have hun : ([] : List UInt8).length < basicNeed [] := Nat.one_pos
  exact consumed_turnField_ne_zero d _ _ hun hs

/-- How many bytes of a slice go to a message that was given up. -/
def swallowed (d : Demux) (taken : Nat) (a : Assembly) (slice : List UInt8) : Nat :=
  min a.missing (min (d.chunkSize - taken) slice.length)

/-- What becomes of the machine when they are taken. -/
def swallow (d : Demux) (c : UInt32) (taken : Nat) (a : Assembly) (slice : List UInt8) : Demux :=
  let taken' := taken + d.swallowed taken a slice
  { d with
    stage := if d.chunkSize ≤ taken' then .basicHeader [] else .payload c taken'
    streams := d.streams.put c (a.append (slice.take (d.chunkSize - taken))).1 }

/-- **A turn in a message that was given up** takes bytes up to the end of the chunk or of the
announced length, and tells nothing. -/
theorem GivenUp.turn {d : Demux} {c : UInt32} {taken : Nat} {a : Assembly}
    (h : d.GivenUp c taken a) (hroom : taken < d.chunkSize) (slice : List UInt8) :
    d.turn slice = ⟨d.swallow c taken a slice, d.swallowed taken a slice, .quiet⟩ := by
  have hcount : (a.append (slice.take (d.chunkSize - taken))).2 = d.swallowed taken a slice := by
    unfold Assembly.append swallowed
    dsimp only
    rw [List.length_take, List.length_take]
  -- what is not under way cannot be completed
  have hincomplete : (a.append (slice.take (d.chunkSize - taken))).1.isComplete = false := by
    unfold Assembly.isComplete
    rw [Assembly.inProgress_append, h.notUnderWay, Bool.false_and]
  unfold Demux.turn
  rw [h.stage]
  dsimp only
  rw [if_neg (Nat.not_le.2 hroom)]
  unfold turnPayload settle swallow
  rw [h.assembly]
  dsimp only
  rw [hincomplete, hcount]
  rfl

/-- What is left of the announced length. -/
theorem missing_append_take (d : Demux) (taken : Nat) (a : Assembly) (slice : List UInt8) :
    (a.append (slice.take (d.chunkSize - taken))).1.missing =
      a.missing - d.swallowed taken a slice := by
  unfold Assembly.append swallowed
  dsimp only
  rw [List.length_take, List.length_take]

theorem GivenUp.steady_swallow {d : Demux} {c : UInt32} {taken : Nat} {a : Assembly}
    (h : d.GivenUp c taken a) (hd : d.Steady) (slice : List UInt8) :
    (d.swallow c taken a slice).Steady := by
  unfold swallow
  refine ⟨?_, fun e he => ?_, fun c' taken' he => ?_⟩
  · dsimp only
    split
    · exact Stage.unfinished_basicHeader_nil
    · trivial
  · rcases Keyed.mem_of_mem_put he with rfl | he
    · unfold Assembly.isComplete
      rw [Assembly.inProgress_append, h.notUnderWay, Bool.false_and]
    · exact hd.incomplete e he
  · -- the payload that may go on is of the same chunk stream
    dsimp only at he ⊢
    split at he
    · exact Stage.noConfusion he
    · obtain ⟨rfl, -⟩ := Stage.payload.inj he
      exact ⟨_, Keyed.get?_put_self _ _ _⟩

/-- Inside the chunk, the message stays given up. -/
theorem GivenUp.swallow {d : Demux} {c : UInt32} {taken : Nat} {a : Assembly}
    (h : d.GivenUp c taken a) {slice : List UInt8}
    (hroom : taken + d.swallowed taken a slice < d.chunkSize) :
    (d.swallow c taken a slice).GivenUp c (taken + d.swallowed taken a slice)
      (a.append (slice.take (d.chunkSize - taken))).1 where
  stage := if_neg (Nat.not_le.2 hroom)
  assembly := Keyed.get?_put_self _ _ _
  notUnderWay := h.notUnderWay

/-! ### Calls that end, and calls that do not -/

/-- A turn of a stuck machine leaves it stuck on what is left of the slice. -/
theorem Stuck.turn {d : Demux} {slice : List UInt8} (h : d.Stuck slice) :
    (d.turn slice).event = .quiet ∧
      (d.turn slice).demux.Stuck (slice.drop (d.turn slice).consumed) := by
  obtain ⟨c, taken, a, hgiven, hroom, hslice⟩ := h
  -- all that is missing is taken, and the chunk goes on
  have hcount : d.swallowed taken a slice = a.missing := by
    unfold swallowed
    omega
  have hmissing := missing_append_take d taken a slice
  rw [hcount, Nat.sub_self] at hmissing
  rw [hgiven.turn (by omega)]
  refine ⟨rfl, c, _, _, hgiven.swallow (by rw [hcount]; exact hroom), ?_, ?_⟩
  · rw [hmissing, hcount]
    exact hroom
  · rw [hmissing, hcount]
    dsimp only
    rw [List.length_drop]
    omega

/-- **A call on a stuck machine makes turns for ever.** -/
theorem Stuck.loop_eq_none {d : Demux} {slice : List UInt8} (h : d.Stuck slice) (turns : Nat) :
    loop turns d slice = none := by
  induction turns generalizing d slice with
  | zero => rfl
  | succ turns ih =>
    obtain ⟨c, taken, a, hgiven, hroom, hslice⟩ := id h
    have hs : slice ≠ [] := List.length_pos_iff.1 (by omega)
    rw [loop_of_quiet hs h.turn.1, ih h.turn.2, Option.map_none]

/-- **A call on a machine that is not stuck** does not stall, and leaves the machine steady. -/
theorem Steady.parse {d : Demux} (h : d.Steady) {slice : List UInt8} (hs : ¬ d.Stuck slice) :
    (d.parse slice).event ≠ .stalled ∧ (d.parse slice).demux.Steady := by
  by_cases hnil : slice = []
  · rw [hnil, parse_nil]
    exact ⟨Event.noConfusion, h⟩
  by_cases hgiven : ∃ c taken a, d.GivenUp c taken a
  · obtain ⟨c, taken, a, hgiven⟩ := hgiven
    by_cases hfull : d.chunkSize ≤ taken
    · -- the chunk is over, and the slice begins with a header
      rw [parse_of_full hgiven.stage hfull hnil]
      obtain ⟨hsound, hlive, -⟩ := h.sound_basicHeader.parse slice
      exact ⟨hlive, hsound.steady⟩
    -- the turn takes the rest of the chunk, or all of the slice
    have hpos := List.length_pos_iff.2 hnil
    have hcount : d.swallowed taken a slice = min (d.chunkSize - taken) slice.length := by
      have hends : ¬ (taken + a.missing < d.chunkSize ∧ a.missing < slice.length) :=
        fun hin => hs ⟨c, taken, a, hgiven, hin⟩
      unfold swallowed
      omega
    have hturn := hgiven.turn (Nat.not_le.1 hfull) slice
    have hsteady := hgiven.steady_swallow h slice
    rw [parse_of_quiet hnil (by rw [hturn]; dsimp only; omega) (by rw [hturn]), hturn]
    dsimp only
    by_cases hrest : slice.drop (d.swallowed taken a slice) = []
    · rw [hrest, parse_nil]
      exact ⟨Event.noConfusion, hsteady⟩
    · -- behind the chunk the machine is sound
      have hover : d.chunkSize ≤ taken + d.swallowed taken a slice := by
        rw [List.drop_eq_nil_iff] at hrest
        omega
      have hstage : (d.swallow c taken a slice).stage = .basicHeader [] := if_pos hover
      have hsound : (d.swallow c taken a slice).Sound := hsteady.sound fun _ _ _ he _ =>
        Stage.noConfusion (hstage.symm.trans he)
      obtain ⟨hlater, hlive, -⟩ := hsound.parse (slice.drop (d.swallowed taken a slice))
      exact ⟨hlive, hlater.steady⟩
  · -- no message was given up in its chunk
    have hsound : d.Sound := h.sound fun c taken a hstage hget => by
      by_contra hnot
      exact hgiven ⟨c, taken, a, hstage, hget, Bool.eq_false_iff.2 hnot⟩
    obtain ⟨hlater, hlive, -⟩ := hsound.parse slice
    exact ⟨hlive, hlater.steady⟩

/-- A machine that calls lead to, each of which ended. Between calls its chunk size may change and
any message may be given up, also in the middle of a chunk. -/
inductive Driven : Demux → Prop
  | initial : Driven .initial
  | parse {d : Demux} (h : Driven d) {turns : Nat} {slice : List UInt8} {r : Reading}
      (hr : d.loop turns slice = some r) : Driven r.demux
  | setChunkSize {d : Demux} (h : Driven d) (size : Nat) : Driven (d.setChunkSize size)
  | abort {d : Demux} (h : Driven d) (c : UInt32) : Driven (d.abort c)

/-- **Every machine that calls lead to is steady.** -/
theorem Driven.steady {d : Demux} (h : d.Driven) : d.Steady := by
  induction h with
  | initial => exact Sound.initial.steady
  | @parse d _ turns slice r hr ih =>
    -- the call has ended, so the machine was not stuck
    have hs : ¬ d.Stuck slice := by
      intro hstuck
      rw [hstuck.loop_eq_none] at hr
      cases hr
    obtain ⟨hlive, hsteady⟩ := ih.parse hs
    rw [eq_parse_of_loop hlive hr]
    exact hsteady
  | setChunkSize _ size ih => exact ih.setChunkSize size
  | abort _ c ih => exact ih.abort c

/-- **When a call ends.** From every machine that calls lead to, with the chunk size changed and
messages given up at any moment, a call ends exactly if the machine is not stuck on its slice. A
turn for each byte is then enough, and the call hands over a message, meets a fault, or has taken
all of its slice. A machine that gives up messages only between two of their chunks is never
stuck. -/
theorem loop_ends_iff {d : Demux} (h : d.Driven) (slice : List UInt8) :
    ((∃ turns r, d.loop turns slice = some r) ↔ ¬ d.Stuck slice) ∧
      (∀ turns r, d.loop turns slice = some r →
        d.loop (slice.length + 1) slice = some r ∧ r = d.parse slice ∧
          ((r.event = .quiet ∧ r.consumed = slice.length) ∨ (∃ p, r.event = .packet p) ∨
            ∃ f, r.event = .fault f)) ∧
      (d.Reached → ¬ d.Stuck slice) := by
  have hlive : ¬ d.Stuck slice → (d.parse slice).event ≠ .stalled := fun hs =>
    (h.steady.parse hs).1
  have hends : (∃ turns r, d.loop turns slice = some r) ↔ ¬ d.Stuck slice := by
    refine ⟨fun ⟨turns, r, hr⟩ hs => ?_, fun hs => ?_⟩
    · rw [hs.loop_eq_none] at hr
      cases hr
    · exact ⟨slice.length + 1, _, loop_eq_parse (hlive hs) (Nat.lt_succ_self _)⟩
  refine ⟨hends, fun turns r hr => ?_, fun hreached ⟨c, taken, a, hgiven, _⟩ => ?_⟩
  · have hs := hlive (hends.1 ⟨turns, r, hr⟩)
    obtain rfl := eq_parse_of_loop hs hr
    refine ⟨loop_eq_parse hs (Nat.lt_succ_self _), rfl, ?_⟩
    cases hevent : (d.parse slice).event with
    | quiet => exact Or.inl ⟨rfl, consumed_of_quiet hevent⟩
    | packet p => exact Or.inr (Or.inl ⟨p, rfl⟩)
    | fault f => exact Or.inr (Or.inr ⟨f, rfl⟩)
    | stalled => exact absurd hevent hs
  · -- the payload of a sound machine belongs to a message under way
    obtain ⟨b, hget, hprogress, -⟩ := hreached.sound.underWay c taken hgiven.stage
    rw [hgiven.assembly] at hget
    obtain rfl := Option.some.inj hget
    exact absurd (hprogress.symm.trans hgiven.notUnderWay) (by decide)

/-- A message of ten bytes is given up after five. The other five are taken, and then the chunk size
is lowered to what was taken of the chunk, so that the message behind it is found. -/
theorem loop_ends_iff_lowered :
    let d := (initial.parse [3, 0, 0, 0, 0, 0, 10, 8, 1, 0, 0, 0, 1, 2, 3, 4, 5]).demux.abort 3
    let rest := [6, 7, 8, 9, 10]
    let e := (d.parse rest).demux.setChunkSize 10
    let next := [4, 0, 0, 0, 0, 0, 1, 8, 1, 0, 0, 0, 0xff]
    d.Driven ∧ e.Driven ∧ ¬ d.Stuck rest ∧ ¬ e.Stuck next ∧
      e.loop 14 next = some (e.parse next) ∧
      (e.parse next).event = .packet (.ofPayload 0 8 1 4 [0xff]) := by
  intro d rest e next
  have hfirst : loop 18 initial [3, 0, 0, 0, 0, 0, 10, 8, 1, 0, 0, 0, 1, 2, 3, 4, 5] =
      some (initial.parse [3, 0, 0, 0, 0, 0, 10, 8, 1, 0, 0, 0, 1, 2, 3, 4, 5]) := by decide +kernel
  have hsecond : d.loop 6 rest = some (d.parse rest) := by decide +kernel
  have hd : d.Driven := .abort (.parse .initial hfirst) 3
  have he : e.Driven := .setChunkSize (.parse hd hsecond) 10
  obtain ⟨hrest, -, -⟩ := loop_ends_iff hd rest
  obtain ⟨hends, honce, -⟩ := loop_ends_iff he next
  have hnext : e.loop 14 next = some (e.parse next) := by decide +kernel
  exact ⟨hd, he, hrest.1 ⟨6, _, hsecond⟩, hends.1 ⟨14, _, hnext⟩,
    (honce 14 _ hnext).1, by decide +kernel⟩

/-- **A call that never ends.** A message of ten bytes is given up after five. Of what follows in
the same chunk ten bytes are taken, and no number of turns is enough to get behind them. -/
theorem loop_of_given_up :
    let d := (initial.parse [3, 0, 0, 0, 0, 0, 10, 8, 1, 0, 0, 0, 1, 2, 3, 4, 5]).demux.abort 3
    let slice := [6, 7, 8, 9, 10, 4, 0, 0, 0, 0, 0, 1, 8, 1, 0, 0, 0, 0xff]
    d.Driven ∧ ∀ turns, d.loop turns slice = none := by
  intro d slice
  have hfirst : loop 18 initial [3, 0, 0, 0, 0, 0, 10, 8, 1, 0, 0, 0, 1, 2, 3, 4, 5] =
      some (initial.parse [3, 0, 0, 0, 0, 0, 10, 8, 1, 0, 0, 0, 1, 2, 3, 4, 5]) := by decide +kernel
  have hd : d.Driven := .abort (.parse .initial hfirst) 3
  let a : Assembly :=
    { Assembly.fresh 3 with length := 10, type := 8, streamId := 1, missing := 10 }
  have hgiven : d.GivenUp 3 5 a :=
    ⟨by decide +kernel, by decide +kernel, rfl⟩
  have hstuck : d.Stuck slice := ⟨3, 5, a, hgiven, by decide +kernel, by decide +kernel⟩
  exact ⟨hd, hstuck.loop_eq_none⟩

end LiveIngest.Chunk.Demux
