import LiveIngest.Proofs.Chunk.Progress

/-!
# Turns and bytes

A turn of the machine takes many bytes at once, and `Demux.step` takes one. A turn on a slice does
what the first byte does and then, if that byte is not the last one of the turn, what a turn on the
other bytes does (`Sound.begins_turn`). So `Demux.parse` can be told byte by byte: it goes on while
bytes bring nothing (`Sound.parse_cons_quiet`) and ends with the first one that brings something
(`Sound.parse_cons_of_ne`).

Main statement: `Sound.parse` — a call leaves a sound machine sound, and never stalls.
-/

namespace LiveIngest.Chunk

namespace Assembly

/-- Nothing is added to a message that misses nothing. -/
theorem append_of_missing_eq_zero {a : Assembly} (h : a.missing = 0) (bytes : List UInt8) :
    a.append bytes = (a, 0) := by
  cases a
  dsimp only at h
  subst h
  rfl

theorem append_nil (a : Assembly) : a.append [] = (a, 0) := by
  unfold append
  rw [List.take_nil]
  rfl

/-- Bytes are added one after the other. -/
theorem append_cons {a : Assembly} (h : a.missing ≠ 0) (b : UInt8) (rest : List UInt8) :
    a.append (b :: rest) =
      (((a.append [b]).1.append rest).1, 1 + ((a.append [b]).1.append rest).2) := by
  obtain ⟨n, hn⟩ := Nat.exists_eq_succ_of_ne_zero h
  simp only [append, hn, List.take_succ_cons, List.take_nil, List.length_cons, List.length_nil,
    List.reverse_cons, List.reverse_nil, List.nil_append, List.append_assoc, List.singleton_append,
    Nat.zero_add, Nat.succ_eq_add_one, Nat.add_sub_cancel, Nat.add_sub_add_right,
    Nat.add_comm 1]

end Assembly

namespace Demux

/-! ### Readings -/

@[simp] theorem Reading.demux_after (r : Reading) (n : Nat) : (r.after n).demux = r.demux := rfl

@[simp] theorem Reading.consumed_after (r : Reading) (n : Nat) :
    (r.after n).consumed = n + r.consumed := rfl

@[simp] theorem Reading.event_after (r : Reading) (n : Nat) : (r.after n).event = r.event := rfl

theorem Reading.after_after (r : Reading) (m n : Nat) :
    (r.after n).after m = r.after (m + n) := by
  simp only [Reading.after, Nat.add_assoc]

theorem Reading.of_after (m n : Nat) (out : Demux × Event) :
    (Reading.of n out).after m = .of (m + n) out := rfl

/-! ### The first byte of a turn -/

/-- A turn does what its first byte does, `out`. If that byte is not the last one of the turn, then
it brings nothing, and the turn goes on with the others. -/
def Begins (out : Demux × Event) (rest : List UInt8) (r : Reading) : Prop :=
  r = .of 1 out ∨ rest ≠ [] ∧ out.2 = .quiet ∧ r = (out.1.turn rest).after 1

/-- A header that misses more than one byte goes on with the others. -/
theorem begins_turnField (d : Demux) {stage : List UInt8 → Stage} {need : List UInt8 → Nat}
    {done : List UInt8 → Demux × Event} {seen : List UInt8} (hun : seen.length < need seen)
    (b : UInt8) (hneed : seen.length + 1 < need seen → need (seen ++ [b]) = need seen)
    (rest : List UInt8)
    (hrest : turn { d with stage := stage (seen ++ [b]) } rest =
      d.turnField stage need done (seen ++ [b]) rest) :
    Begins (d.stepField stage need done seen b) rest
      (d.turnField stage need done seen (b :: rest)) := by
  obtain ⟨k, hk⟩ : ∃ k, need seen - seen.length = k + 1 :=
    Nat.exists_eq_succ_of_ne_zero (Nat.sub_ne_zero_of_lt hun)
  by_cases hone : rest.take k = []
  · -- the turn has one byte
    refine Or.inl ?_
    unfold turnField stepField
    dsimp only
    rw [hk, List.take_succ_cons, hone]
    rfl
  · -- more bytes are there and wanted, so the first byte only joins those seen
    have hpos : 0 < k := Nat.pos_of_ne_zero fun hzero => hone (by rw [hzero, List.take_zero])
    have hsame := hneed (by omega)
    have hlength : (seen ++ [b]).length = seen.length + 1 := by
      rw [List.length_append, List.length_singleton]
    have hstep : d.stepField stage need done seen b =
        ({ d with stage := stage (seen ++ [b]) }, .quiet) := by
      unfold stepField
      dsimp only
      rw [if_pos (by omega)]
    have hmissing : need (seen ++ [b]) - (seen ++ [b]).length = k := by omega
    refine Or.inr ⟨fun hnil => hone (by rw [hnil, List.take_nil]), by rw [hstep], ?_⟩
    -- the turn takes as many of the others as the next turn would
    rw [hstep, hrest]
    unfold turnField
    dsimp only
    rw [hk, List.take_succ_cons, hmissing, List.append_cons seen b, Reading.of_after,
      List.length_cons, Nat.add_comm 1]

/-- A basic header that misses more than one byte has a first one, which says so. -/
theorem begins_turnBasicHeader (d : Demux) {seen : List UInt8} (hun : seen.length < basicNeed seen)
    (b : UInt8) (rest : List UInt8) :
    Begins (d.stepBasicHeader seen b) rest (d.turnBasicHeader seen (b :: rest)) := by
  refine begins_turnField d hun b (fun hmore => ?_) rest rfl
  -- without a first byte one byte is wanted; with one, the wanted number is known
  cases seen with
  | nil => exact absurd hmore (Nat.lt_irrefl 1)
  | cons first seen => rfl

/-- Putting back a chunk stream twice. -/
theorem settle_put (d : Demux) (stage : Stage) (c : UInt32) (a a' : Assembly) (taken : Nat) :
    settle { d with stage, streams := d.streams.put c a } c a' taken = d.settle c a' taken := by
  unfold settle
  simp only [Keyed.put_put]

/-- A payload goes on with the other bytes unless the chunk or the message ends. -/
theorem begins_turnPayload {d : Demux} {c : UInt32} {taken : Nat} {a : Assembly}
    (hget : d.streams.get? c = some a) (hmissing : a.missing ≠ 0) (hopen : ¬ d.chunkSize ≤ taken)
    (b : UInt8) (rest : List UInt8) :
    Begins (d.settle c (a.append [b]).1 (taken + 1)) rest (d.turnPayload c taken (b :: rest)) := by
  obtain ⟨k, hk⟩ : ∃ k, d.chunkSize - taken = k + 1 :=
    Nat.exists_eq_succ_of_ne_zero (by omega)
  -- the first byte is added, and the others after it
  have hturn : d.turnPayload c taken (b :: rest) =
      .of (1 + ((a.append [b]).1.append (rest.take k)).2)
        (d.settle c ((a.append [b]).1.append (rest.take k)).1
          (taken + (1 + ((a.append [b]).1.append (rest.take k)).2))) := by
    unfold turnPayload
    rw [hget]
    dsimp only
    rw [hk, List.take_succ_cons, Assembly.append_cons hmissing]
  -- the bytes behind the first one add nothing
  have hlast : (a.append [b]).1.append (rest.take k) = ((a.append [b]).1, 0) →
      d.turnPayload c taken (b :: rest) = .of 1 (d.settle c (a.append [b]).1 (taken + 1)) := by
    intro hnothing
    rw [hturn, hnothing]
    rfl
  -- the message ends with the first byte
  by_cases hcomplete : (a.append [b]).1.isComplete = true
  · have hfull : (a.append [b]).1.missing = 0 := by
      simpa using (Bool.and_eq_true_iff.1 hcomplete).2
    exact Or.inl (hlast (Assembly.append_of_missing_eq_zero hfull _))
  -- the chunk or the slice ends with it
  by_cases hone : rest.take k = []
  · exact Or.inl (hlast (by rw [hone, Assembly.append_nil]))
  -- neither ends: the assembly is put back, and found by the next turn
  have hpos : 0 < k := Nat.pos_of_ne_zero fun hzero => hone (by rw [hzero, List.take_zero])
  have hroom : ¬ d.chunkSize ≤ taken + 1 := by omega
  have hsettle : d.settle c (a.append [b]).1 (taken + 1) =
      ({ d with stage := .payload c (taken + 1), streams := d.streams.put c (a.append [b]).1 },
        .quiet) := by
    unfold settle
    rw [if_neg hcomplete, if_neg hroom]
  have hrest : d.chunkSize - (taken + 1) = k := by omega
  refine Or.inr ⟨fun hnil => hone (by rw [hnil, List.take_nil]), by rw [hsettle], ?_⟩
  rw [hturn, hsettle]
  unfold turn
  dsimp only
  rw [if_neg hroom]
  unfold turnPayload
  dsimp only
  rw [Keyed.get?_put_self]
  dsimp only
  rw [hrest, settle_put, Reading.of_after, Nat.add_assoc]

/-- **The first byte of a turn** of a sound machine. -/
theorem Sound.begins_turn {d : Demux} (h : d.Sound) (b : UInt8) (rest : List UInt8) :
    Begins (d.step b) rest (d.turn (b :: rest)) := by
  have hun := h.unfinished
  cases hstage : d.stage with
  | basicHeader seen =>
    unfold Demux.step
    rw [turn, hstage]
    rw [hstage] at hun
    exact begins_turnBasicHeader d hun b rest
  | messageHeader basic seen =>
    unfold Demux.step
    rw [turn, hstage]
    rw [hstage] at hun
    exact begins_turnField d hun b (fun _ => rfl) rest rfl
  | extendedTimestamp c header seen =>
    unfold Demux.step
    rw [turn, hstage]
    rw [hstage] at hun
    exact begins_turnField d hun b (fun _ => rfl) rest rfl
  | payload c taken =>
    -- the invariant gives an assembly that misses bytes
    obtain ⟨a, hget, -, hmissing⟩ := h.underWay c taken hstage
    unfold Demux.step
    rw [turn, hstage]
    dsimp only
    by_cases hfull : d.chunkSize ≤ taken
    · -- the chunk size was lowered, and the byte belongs to the next header
      have hnone : ([] : List UInt8).length < basicNeed [] := Nat.one_pos
      rw [if_pos hfull, if_pos hfull]
      exact begins_turnBasicHeader d hnone b rest
    · rw [if_neg hfull, if_neg hfull, hget]
      dsimp only
      rw [if_neg hmissing]
      exact begins_turnPayload hget hmissing hfull b rest
  -- every byte is answered by the same fault
  | broken phase again =>
    unfold Demux.step
    rw [turn, hstage]
    exact Or.inl rfl

/-! ### Calls -/

theorem parse_nil (d : Demux) : d.parse [] = ⟨d, 0, .quiet⟩ := by
  unfold parse
  rw [dif_pos rfl]

/-- A turn that brings nothing is followed by another one. -/
theorem parse_of_quiet {d : Demux} {slice : List UInt8} (hs : slice ≠ [])
    (hr : (d.turn slice).consumed ≠ 0) (hq : (d.turn slice).event = .quiet) :
    d.parse slice = ((d.turn slice).demux.parse (slice.drop (d.turn slice).consumed)).after
      (d.turn slice).consumed := by
  conv_lhs => unfold parse
  rw [dif_neg hs]
  dsimp only
  rw [dif_neg hr, hq]

/-- A turn that brings something is the last one of a call. -/
theorem parse_of_ne {d : Demux} {slice : List UInt8} (hs : slice ≠ [])
    (hr : (d.turn slice).consumed ≠ 0) (hq : (d.turn slice).event ≠ .quiet) :
    d.parse slice = d.turn slice := by
  unfold parse
  rw [dif_neg hs]
  dsimp only
  rw [dif_neg hr]
  split
  · rename_i he
    exact absurd he hq
  · rfl

theorem Sound.consumed_turn_ne_zero {d : Demux} (h : d.Sound) {slice : List UInt8}
    (hs : slice ≠ []) : (d.turn slice).consumed ≠ 0 := by
  obtain ⟨b, rest, rfl⟩ := List.exists_cons_of_ne_nil hs
  obtain hturn | ⟨-, -, hturn⟩ := h.begins_turn b rest
  · rw [hturn]
    exact Nat.one_ne_zero
  · rw [hturn]
    exact Nat.ne_of_gt (Nat.lt_of_lt_of_le Nat.one_pos (Nat.le_add_right _ _))

/-- A call ends with the first byte that brings something. -/
theorem Sound.parse_cons_of_ne {d : Demux} (h : d.Sound) {b : UInt8} (hb : (d.step b).2 ≠ .quiet)
    (rest : List UInt8) : d.parse (b :: rest) = .of 1 (d.step b) := by
  have hs := List.cons_ne_nil b rest
  obtain hturn | ⟨-, hquiet, -⟩ := h.begins_turn b rest
  · rw [parse_of_ne hs (h.consumed_turn_ne_zero hs) (by rw [hturn]; exact hb), hturn]
  · exact absurd hquiet hb

/-- **A call goes on** behind a byte that brings nothing, in whatever turn that byte was. -/
theorem Sound.parse_cons_quiet {d d' : Demux} (h : d.Sound) {b : UInt8}
    (hb : d.step b = (d', .quiet)) (rest : List UInt8) :
    d.parse (b :: rest) = (d'.parse rest).after 1 := by
  have hs := List.cons_ne_nil b rest
  have hr := h.consumed_turn_ne_zero hs
  have hnext := h.step b
  have hbegins := h.begins_turn b rest
  rw [hb] at hnext hbegins
  obtain hturn | ⟨hrest, -, hturn⟩ := hbegins
  · -- the turn ends with the byte, and another one follows
    rw [parse_of_quiet hs hr (by rw [hturn]; rfl), hturn]
    rfl
  · -- the turn goes on, and it is the first one of the call on the other bytes
    have hr' := hnext.consumed_turn_ne_zero hrest
    by_cases hq : (d'.turn rest).event = .quiet
    · rw [parse_of_quiet hs hr (by rw [hturn]; exact hq), parse_of_quiet hrest hr' hq, hturn,
        Reading.after_after, Reading.consumed_after, Reading.demux_after, Nat.add_comm 1,
        List.drop_succ_cons]
    · rw [parse_of_ne hs hr (by rw [hturn]; exact hq), parse_of_ne hrest hr' hq, hturn]

/-- A slice of one byte. -/
theorem Sound.parse_singleton {d : Demux} (h : d.Sound) (b : UInt8) :
    d.parse [b] = .of 1 (d.step b) := by
  by_cases hb : (d.step b).2 = .quiet
  · have hstep : d.step b = ((d.step b).1, .quiet) := Prod.ext rfl hb
    rw [h.parse_cons_quiet hstep, parse_nil, hstep]
    rfl
  · exact h.parse_cons_of_ne hb []

/-- **Calls keep the invariant.** A call leaves a sound machine sound and does not stall, and it
hands over messages between two chunks. -/
theorem Sound.parse {d : Demux} (h : d.Sound) (slice : List UInt8) :
    (d.parse slice).demux.Sound ∧ (d.parse slice).event ≠ .stalled ∧
      ∀ p, (d.parse slice).event = .packet p → (d.parse slice).demux.Idle := by
  induction slice generalizing d with
  | nil =>
    rw [parse_nil]
    exact ⟨h, Event.noConfusion, fun p he => Event.noConfusion he⟩
  | cons b rest ih =>
    -- by induction on the bytes: the call goes on behind the first one or ends with it
    by_cases hb : (d.step b).2 = .quiet
    · rw [h.parse_cons_quiet (Prod.ext rfl hb)]
      exact ih (h.step b)
    · rw [h.parse_cons_of_ne hb]
      exact ⟨h.step b, h.step_ne_stalled b, fun p he => h.idle_of_packet (Prod.ext rfl he)⟩

theorem Sound.consumed_parse_le {d : Demux} (h : d.Sound) (slice : List UInt8) :
    (d.parse slice).consumed ≤ slice.length := by
  induction slice generalizing d with
  | nil =>
    rw [parse_nil]
    exact Nat.le_refl 0
  | cons b rest ih =>
    rw [List.length_cons]
    by_cases hb : (d.step b).2 = .quiet
    · rw [h.parse_cons_quiet (Prod.ext rfl hb), Reading.consumed_after, Nat.add_comm 1]
      exact Nat.succ_le_succ (ih (h.step b))
    · rw [h.parse_cons_of_ne hb]
      exact Nat.le_add_left 1 _

end Demux

end LiveIngest.Chunk
