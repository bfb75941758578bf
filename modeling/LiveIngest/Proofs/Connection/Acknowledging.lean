import LiveIngest.Proofs.Connection.Runs

/-!
# Windows and acknowledgements

A peer that announces a window of `w` bytes wants to hear of what arrived. Slices are counted before
they are looked at, so a call of `parse` is a count, an acknowledgement if one is due, and the
taking of the slice, which changes no count and acknowledges nothing (`Step.counts`). What is
counted against the window is therefore a function of the lengths of the slices alone.

An acknowledgement is due where the count **exceeds** the window. A peer that waits with exactly `w`
bytes on the way is not answered (`parse_of_full_window`), and up to `w` bytes may stay
unacknowledged.

Main statement: `parse_of_window` — the count behind every call of a run, and the acknowledgement
that the call queues, with the total of all bytes received.
-/

namespace LiveIngest

/-! ### Counting -/

namespace Intake

/-- The count against a window behind `n` more bytes, where `u` bytes were counted before. A length
counts modulo 2 ^ 32, and the count stops at 2 ^ 32 - 1. -/
def counted (u n : Nat) : Nat :=
  min (u + n % 0x100000000) 0xffffffff

/-- What is not acknowledged behind `n` more bytes under a window of `w` bytes. -/
def unacknowledged (w u n : Nat) : Nat :=
  if w < counted u n then 0 else counted u n

/-- No more than a window stays unacknowledged. -/
theorem unacknowledged_le (w u n : Nat) : unacknowledged w u n ≤ w := by
  unfold unacknowledged
  split
  · exact Nat.zero_le w
  · rename_i hle
    exact Nat.le_of_not_lt hle

/-- A slice that makes the count exceed the window is acknowledged, with all bytes received. -/
theorem count_of_window {i : Intake} (h : i.window ≠ 0) (n : Nat) :
    i.count n = (⟨i.total + n, i.window, unacknowledged i.window.toNat i.pending n⟩,
      if i.window.toNat < counted i.pending n then some (.ofNat (i.total + n)) else none) := by
  unfold count unacknowledged counted
  dsimp only
  rw [if_neg h]
  split <;> rfl

theorem count_of_no_window {i : Intake} (h : i.window = 0) (n : Nat) :
    i.count n = ({ i with total := i.total + n }, none) := by
  unfold count
  dsimp only
  rw [if_pos h]

/-- Every byte counts towards the total. -/
theorem total_count (i : Intake) (n : Nat) : (i.count n).1.total = i.total + n := by
  by_cases h : i.window = 0
  · rw [count_of_no_window h]
  · rw [count_of_window h]

/-- Where no length is cut and the count does not stop below the window, bytes are counted. -/
theorem lt_counted_iff {w u n : Nat} (hw : w < 0xffffffff) (hn : n < 0x100000000) :
    w < counted u n ↔ w < u + n := by
  unfold counted
  rw [Nat.mod_eq_of_lt hn]
  omega

/-- Without overflow the count starts over once the window is exceeded. -/
theorem unacknowledged_eq {w u n : Nat} (hw : w < 0xffffffff) (hn : n < 0x100000000) :
    unacknowledged w u n = if w < u + n then 0 else u + n := by
  have hdue := lt_counted_iff (u := u) hw hn
  unfold unacknowledged
  by_cases h : w < u + n
  · rw [if_pos h, if_pos (hdue.2 h)]
  · rw [if_neg h, if_neg (mt hdue.1 h)]
    unfold counted
    rw [Nat.mod_eq_of_lt hn]
    omega

end Intake

namespace Connection

open Handling Intake

variable {σ α : Type} {env : Environment σ} {c d : Connection σ}

/-! ### Calls -/

/-- Taking input changes no count. -/
theorem Step.counts (h : Step env c d) :
    d.intake.total = c.intake.total ∧ d.intake.pending = c.intake.pending := by
  cases h with
  | shake _ m reply =>
    rw [shaken_eq]
    exact ⟨rfl, rfl⟩
  | move h =>
    cases h with
    | stream h =>
      cases h with
      | release =>
        rw [intake_release]
        exact ⟨rfl, rfl⟩
      | _ => exact ⟨rfl, rfl⟩
    | _ => exact ⟨rfl, rfl⟩

/-- What happens between slices counts no bytes. -/
theorem counts_of_steps (h : Relation.ReflTransGen (Step env) c d) :
    d.intake.total = c.intake.total ∧ d.intake.pending = c.intake.pending :=
  chain_induction
    (I := fun e => e.intake.total = c.intake.total ∧ e.intake.pending = c.intake.pending)
    (fun _ _ ih hstep => ⟨hstep.counts.1.trans ih.1, hstep.counts.2.trans ih.2⟩) ⟨rfl, rfl⟩ h

/-- With a window, a slice is counted and perhaps acknowledged. -/
theorem counting_of_window (h : c.intake.window ≠ 0) (n : Nat) :
    c.counting n = { c with
      intake := ⟨c.intake.total + n, c.intake.window,
        unacknowledged c.intake.window.toNat c.intake.pending n⟩
      link := { c.link with
        mux := if c.intake.window.toNat < counted c.intake.pending n
          then c.link.mux.enqueue (.ofControl (.acknowledgement (.ofNat (c.intake.total + n))))
          else c.link.mux } } := by
  unfold counting
  rw [count_of_window h]
  dsimp only
  split <;> rfl

/-- Parsing counts its slice once, whatever else it does. -/
theorem Underway.counts_parse (h : c.Underway) (hlive : c.link.status = .live)
    (slice : List UInt8) :
    (c.parse env slice).2.intake.total = (c.intake.count slice.length).1.total ∧
      (c.parse env slice).2.intake.pending = (c.intake.count slice.length).1.pending := by
  rw [h.parse_eq hlive]
  exact counts_of_steps (steps_takeAll _ 0 slice)

/-! ### Runs -/

/-- Only slices are counted. -/
theorem Underway.counts_operate (hc : c.Underway) {o : Moment × Operation}
    (hlive : (c.operate env o).link.status = .live) :
    let i := o.2.slice?.elim c.intake fun slice => (c.intake.count slice.length).1
    (c.operate env o).intake.total = i.total ∧ (c.operate env o).intake.pending = i.pending := by
  have hbefore := live_of_operate hlive
  have ho := ne_finish_of_live hc hlive
  obtain ⟨t, o⟩ := o
  cases o with
  | parse slice => exact hc.counts_parse hbefore slice
  | finish => exact absurd rfl ho
  | act a => exact ⟨rfl, rfl⟩
  | serialize budget => exact ⟨rfl, rfl⟩

/-- **The total** of a run is the number of all bytes that it received. -/
theorem Underway.total_run (hc : c.Underway) {ops : List (Moment × Operation)}
    (hlive : (c.run env ops).link.status = .live) :
    (c.run env ops).intake.total = c.intake.total + (slices ops).flatten.length := by
  induction ops generalizing c with
  | nil => rfl
  | cons o rest ih =>
    have hmid : (c.operate env o).link.status = .live := live_of_run rest hlive
    have hcount := (hc.counts_operate hmid).1
    have hrest := ih (hc.operate hmid) hlive
    obtain ⟨t, o⟩ := o
    rw [hcount] at hrest
    -- only `parse` counts bytes
    cases o with
    | parse slice =>
      calc _ = (c.intake.count slice.length).1.total + (slices rest).flatten.length := hrest
        _ = c.intake.total + (slice ++ (slices rest).flatten).length := by
          rw [total_count, List.length_append]
          omega
    | _ => exact hrest

/-- **The count against a window** that stays the same. -/
theorem Underway.pending_run (hc : c.Underway) {ops : List (Moment × Operation)}
    (hlive : (c.run env ops).link.status = .live) {w : UInt32} (hw : w ≠ 0)
    (hwindow : ∀ k < ops.length, (c.run env (ops.take k)).intake.window = w) :
    (c.run env ops).intake.pending = (slices ops).foldl
      (fun u slice => unacknowledged w.toNat u slice.length) c.intake.pending := by
  induction ops generalizing c with
  | nil => rfl
  | cons o rest ih =>
    have hmid : (c.operate env o).link.status = .live := live_of_run rest hlive
    have hcount := (hc.counts_operate hmid).2
    have hrest := ih (hc.operate hmid) hlive fun k hk => hwindow (k + 1) (Nat.succ_lt_succ hk)
    -- the window is the same in front of every operation
    have hnow : c.intake.window = w := hwindow 0 (Nat.succ_pos _)
    have hslice : ∀ n, (c.intake.count n).1.pending =
        unacknowledged w.toNat c.intake.pending n := by
      intro n
      rw [count_of_window (hnow ▸ hw), hnow]
    obtain ⟨t, o⟩ := o
    rw [hcount] at hrest
    cases o with
    | parse slice =>
      dsimp only [Operation.slice?, Option.elim] at hrest
      rw [hslice] at hrest
      exact hrest
    | _ => exact hrest

/-- What was received and counted behind a run under a window. -/
theorem Underway.intake_run (hc : c.Underway) {ops : List (Moment × Operation)}
    (hlive : (c.run env ops).link.status = .live) {w : UInt32} (hw : w ≠ 0)
    (hwindow : ∀ k ≤ ops.length, (c.run env (ops.take k)).intake.window = w) :
    (c.run env ops).intake = ⟨c.intake.total + (slices ops).flatten.length, w,
      (slices ops).foldl (fun u slice => unacknowledged w.toNat u slice.length)
        c.intake.pending⟩ := by
  have hlast : (c.run env ops).intake.window = w := by
    have hall := hwindow ops.length (Nat.le_refl _)
    rwa [List.take_length] at hall
  have hpending := hc.pending_run hlive hw fun k hk => hwindow k (Nat.le_of_lt hk)
  rw [← hpending, ← hc.total_run hlive, ← hlast]

/-- Before a window is announced, nothing is counted against one. -/
theorem Underway.pending_run_of_no_window (hc : c.Underway) {ops : List (Moment × Operation)}
    (hlive : (c.run env ops).link.status = .live)
    (hwindow : ∀ k < ops.length, (c.run env (ops.take k)).intake.window = 0) :
    (c.run env ops).intake.pending = c.intake.pending := by
  induction ops generalizing c with
  | nil => rfl
  | cons o rest ih =>
    have hmid : (c.operate env o).link.status = .live := live_of_run rest hlive
    have hcount := (hc.counts_operate hmid).2
    have hrest := ih (hc.operate hmid) hlive fun k hk => hwindow (k + 1) (Nat.succ_lt_succ hk)
    have hnow : c.intake.window = 0 := hwindow 0 (Nat.succ_pos _)
    refine hrest.trans (hcount.trans ?_)
    cases o.2.slice? with
    | none => rfl
    | some slice =>
      show (c.intake.count slice.length).1.pending = c.intake.pending
      rw [count_of_no_window hnow]

/-! ### Acknowledgements -/

/-- While no length is cut and the count does not stop below the window, bytes are counted. -/
theorem foldl_unacknowledged {w : Nat} (hw : w < 0xffffffff) {xs : List (List UInt8)}
    (hxs : ∀ x ∈ xs, x.length < 0x100000000) (u : Nat) :
    xs.foldl (fun u x => unacknowledged w u x.length) u =
      xs.foldl (fun u x => if w < u + x.length then 0 else u + x.length) u := by
  refine List.foldl_ext _ _ u fun u x hx => ?_
  exact unacknowledged_eq hw (hxs x hx)

/-- **Acknowledgements under a window.** Let a run lead to a window of `w` bytes that is there ever
since, and take one more slice on a live link. With `u` bytes counted before it, the call queues one
acknowledgement at its beginning if the count with the slice **exceeds** `w`, and none otherwise; it
carries the number of all bytes received, those of the slice included, modulo 2 ^ 32. The steps in
which the slice is then taken queue no acknowledgement and change no count. Behind the call at most
`w` bytes are not acknowledged.

If there was no window before, the count begins at 0 with the call that announces it. It is the
number of bytes since the last acknowledgement, as long as slices are shorter than 2 ^ 32 bytes and
the window is less than 2 ^ 32 - 1. -/
theorem parse_of_window (env : Environment σ) (id : Nat) (terms : Terms) (s : σ)
    {earlier later : List (Moment × Operation)} {w : UInt32} (hw : w ≠ 0)
    (hwindow : ∀ k ≤ later.length,
      ((initial id terms s).run env (earlier ++ later.take k)).intake.window = w)
    (hlive : ((initial id terms s).run env (earlier ++ later)).link.status = .live)
    (t : Moment) (slice : List UInt8) :
    let announced := (initial id terms s).run env earlier
    let c := (initial id terms s).run env (earlier ++ later)
    let out := c.parse (env.moved t) slice
    let u := (slices later).foldl (fun u x => unacknowledged w.toNat u x.length)
      announced.intake.pending
    let total := (slices (earlier ++ later)).flatten.length + slice.length
    let begun : Connection σ := { c with
      intake := ⟨total, w, unacknowledged w.toNat u slice.length⟩
      link := { c.link with mux := if w.toNat < counted u slice.length
        then c.link.mux.enqueue (.ofControl (.acknowledgement (.ofNat total)))
        else c.link.mux } }
    (out = begun.takeAll (env.moved t) 0 slice ∧
      Relation.ReflTransGen (Step (env.moved t)) begun out.2) ∧
    (out.2.intake.total = total ∧ out.2.intake.pending = unacknowledged w.toNat u slice.length ∧
      out.2.intake.pending ≤ w.toNat) ∧
    ((∀ k < earlier.length,
      ((initial id terms s).run env (earlier.take k)).intake.window = 0) →
        announced.intake.pending = 0) ∧
    (w.toNat < 0xffffffff → (∀ x ∈ slices later ++ [slice], x.length < 0x100000000) →
      u = (slices later).foldl (fun u x => if w.toNat < u + x.length then 0 else u + x.length)
          announced.intake.pending ∧
        (w.toNat < counted u slice.length ↔ w.toNat < u + slice.length)) := by
  intro announced c out u total begun
  have hstart := Underway.initial id terms s
  have hrun : ∀ ops, (initial id terms s).run env (earlier ++ ops) = announced.run env ops :=
    run_append env _ earlier
  have hlater : (announced.run env later).link.status = .live := hrun later ▸ hlive
  have hannounced : announced.link.status = .live := live_of_run later hlater
  -- what was received and counted before the call
  have htotal : c.intake.total = (slices (earlier ++ later)).flatten.length :=
    (hstart.total_run hlive).trans (Nat.zero_add _)
  have hintake : c.intake = ⟨c.intake.total, w, u⟩ := by
    have hcounted := (hstart.run hannounced).intake_run hlater hw
      fun k hk => hrun (later.take k) ▸ hwindow k hk
    have hc : c = announced.run env later := hrun later
    rw [hc, hcounted]
  -- the call begins with the count of its slice
  have hbegun : c.counting slice.length = begun := by
    have hsome : c.intake.window ≠ 0 := by
      rw [hintake]
      exact hw
    rw [counting_of_window hsome, hintake, htotal]
  have hout : out = begun.takeAll (env.moved t) 0 slice :=
    hbegun ▸ (hstart.run hlive).parse_eq hlive slice
  have hsteps : Relation.ReflTransGen (Step (env.moved t)) begun out.2 :=
    hout ▸ steps_takeAll begun 0 slice
  have hcounts := counts_of_steps hsteps
  refine ⟨⟨hout, hsteps⟩, ⟨hcounts.1, hcounts.2, ?_⟩, ?_, ?_⟩
  · rw [hcounts.2]
    exact unacknowledged_le _ _ _
  · intro hnone
    exact hstart.pending_run_of_no_window hannounced hnone
  · intro hmax hshort
    have hbefore : ∀ x ∈ slices later, x.length < 0x100000000 :=
      fun x hx => hshort x (List.mem_append_left _ hx)
    have hslice : slice.length < 0x100000000 :=
      hshort slice (List.mem_append_right _ (List.mem_singleton_self slice))
    exact ⟨foldl_unacknowledged hmax hbefore _, lt_counted_iff hmax hslice⟩

/-- A window of 16 bytes, and two messages of 16 bytes each behind it. With the second one 32 bytes
are not acknowledged, so it is acknowledged, with 3121 bytes. -/
theorem parse_of_window_sixteen :
    let env : Environment Unit := ⟨.silent Unit, .seeded 0, ⟨0, 0⟩⟩
    let hello : List UInt8 := 3 :: List.replicate 3072 0
    let window : List UInt8 := [2, 0, 0, 0, 0, 0, 4, 5, 0, 0, 0, 0, 0, 0, 0, 16]
    let message : List UInt8 := [2, 0, 0, 0, 0, 0, 4, 3, 0, 0, 0, 0, 0, 0, 0, 0]
    let earlier : List (Moment × Operation) := [(⟨0, 0⟩, .parse hello), (⟨0, 0⟩, .parse window)]
    let later : List (Moment × Operation) := [(⟨0, 0⟩, .parse message)]
    let c := (initial 1 .standard ()).run env (earlier ++ later)
    let out := c.parse (env.moved ⟨0, 0⟩) message
    (16 : UInt32) ≠ 0 ∧
      (∀ k ≤ later.length,
        ((initial 1 .standard ()).run env (earlier ++ later.take k)).intake.window = 16) ∧
      c.link.status = .live ∧ c.intake.pending = 16 ∧
      out.2.intake.total = 3121 ∧ out.2.intake.pending = 0 ∧
      out.2.link.mux = c.link.mux.enqueue (.ofControl (.acknowledgement 3121)) := by
  intro env hello window message earlier later c out
  -- exactly the window is pending, and the next byte exceeds it
  obtain ⟨hwindow, hlive, hcounted, hqueued⟩ : (∀ k ≤ later.length,
      ((initial 1 .standard ()).run env (earlier ++ later.take k)).intake.window = 16) ∧
      c.link.status = .live ∧ c.intake.pending = 16 ∧
      out.2.link.mux = c.link.mux.enqueue (.ofControl (.acknowledgement 3121)) := by
    decide +kernel
  obtain ⟨-, ⟨htotal, hpending, -⟩, -⟩ :=
    parse_of_window env 1 .standard () (by decide : (16 : UInt32) ≠ 0) hwindow hlive ⟨0, 0⟩ message
  refine ⟨by decide, hwindow, hlive, hcounted, ?_, ?_, hqueued⟩
  · rw [htotal]
    decide +kernel
  · rw [hpending]
    decide +kernel

/-- A window of 16 bytes, and a message of exactly 16 bytes behind it: the message is not
acknowledged, and 16 bytes stay unacknowledged. -/
theorem parse_of_full_window :
    let env : Environment Unit := ⟨.silent Unit, .seeded 0, ⟨0, 0⟩⟩
    let hello : List UInt8 := 3 :: List.replicate 3072 0
    let window : List UInt8 := [2, 0, 0, 0, 0, 0, 4, 5, 0, 0, 0, 0, 0, 0, 0, 16]
    let message : List UInt8 := [2, 0, 0, 0, 0, 0, 4, 3, 0, 0, 0, 0, 0, 0, 0, 0]
    let earlier : List (Moment × Operation) := [(⟨0, 0⟩, .parse hello), (⟨0, 0⟩, .parse window)]
    let c := (initial 1 .standard ()).run env earlier
    let out := c.parse (env.moved ⟨0, 0⟩) message
    c.intake = ⟨3089, 16, 0⟩ ∧ message.length = 16 ∧ out.2.link.status = .live ∧
      out.2.link.mux = c.link.mux ∧ out.2.intake.pending = 16 := by
  decide +kernel

end Connection

end LiveIngest
