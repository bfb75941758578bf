import LiveIngest.Session
import LiveIngest.Proofs.Chunk.Pulling

/-!
# Flushing

A session writes what is queued piece by piece, until a piece is empty. The budget of each piece is
computed from the chunk size at that moment, which pieces before it may have changed: a chunk of
full size always fits, however small the session's buffer is. So a piece is empty only if nothing is
queued, and every other piece makes the load smaller.

`Mux.flush` is the loop, with a bound on the number of its calls and a time for each of them.

Main statement: `Session.flush_empties` — the loop ends, and nothing is queued behind it.
-/

namespace LiveIngest

/-! ### Pieces -/

namespace Chunk.Mux

/-- Take out a piece for a buffer. A chunk of full size fits in any case. -/
def nextPiece (buffer now : Nat) (m : Mux) : Mux × List UInt8 :=
  m.serialize now (max buffer (m.chunkSize + maxHeaderSize))

/-- Take pieces out at the given times, up to one that is empty. -/
def flush (buffer : Nat) : (times : List Nat) → Mux → Option (List (List UInt8) × Mux)
  | [], _ => none
  | now :: times, m =>
    let r := m.nextPiece buffer now
    if r.2 = [] then some ([r.2], r.1)
    else (flush buffer times r.1).map fun later => (r.2 :: later.1, later.2)

theorem flush_of_nil {buffer now : Nat} {m : Mux} (h : (m.nextPiece buffer now).2 = [])
    (times : List Nat) :
    m.flush buffer (now :: times) = some ([[]], (m.nextPiece buffer now).1) := by
  rw [flush, if_pos h, h]

theorem flush_of_ne {buffer now : Nat} {m : Mux} (h : (m.nextPiece buffer now).2 ≠ [])
    (times : List Nat) : m.flush buffer (now :: times) =
      ((m.nextPiece buffer now).1.flush buffer times).map fun later =>
        ((m.nextPiece buffer now).2 :: later.1, later.2) :=
  if_neg h

/-- The pieces of a loop that ended: all but the last one have bytes, and nothing is queued behind
the last one. -/
structure Emptied (pieces : List (List UInt8)) (m' : Mux) : Prop where
  nonempty : ∀ piece ∈ pieces, piece ≠ []
  hasData : m'.hasData = false

/-- **The load bounds the number of pieces**, and nothing is queued behind the empty one. -/
theorem exists_flush (buffer : Nat) {times : List Nat} {m : Mux} (h : m.load < times.length) :
    ∃ pieces m', m.flush buffer times = some (pieces ++ [[]], m') ∧ Emptied pieces m' := by
  induction times generalizing m with
  | nil => exact absurd h (Nat.not_lt_zero _)
  | cons now times ih =>
    rw [List.length_cons] at h
    by_cases hout : (m.nextPiece buffer now).2 = []
    · have hdata := hasData_of_serialize_eq_nil (Nat.le_max_right buffer _) hout
      exact ⟨[], _, flush_of_nil hout times, fun _ hpiece => absurd hpiece List.not_mem_nil, hdata⟩
    · -- one piece less is to come, and the load is smaller
      have hless : (m.nextPiece buffer now).1.load < m.load := load_serialize_lt hout
      obtain ⟨pieces, m', hflush, hnonempty, hdata⟩ := ih (Nat.lt_of_lt_of_le hless (by omega))
      refine ⟨(m.nextPiece buffer now).2 :: pieces, m', ?_, fun piece hpiece => ?_, hdata⟩
      · rw [flush_of_ne hout, hflush]
        rfl
      · rcases List.mem_cons.1 hpiece with rfl | hpiece
        · exact hout
        · exact hnonempty piece hpiece

end Chunk.Mux

/-! ### Sessions -/

namespace Session

variable {σ : Type} {env : Environment σ} {sizes : BufferSizes} {c : Connection σ}

/-- The connection when something was taken out of its queues. -/
def behind (c : Connection σ) (mux : Chunk.Mux) : Connection σ :=
  { c with link := { c.link with mux } }

/-- What becomes of a flushing session when all of its pieces are written. -/
def flushed (env : Environment σ) (c : Connection σ) (written : List (List UInt8)) :
    (cause : Option Fault) → Session σ
  | none => ⟨c, .checking, written⟩
  | some f => conclude env ⟨c, .flushing (some f), written⟩ (.error f)

theorem pull_of_nil (h : (c.link.mux.nextPiece sizes.write env.now.uptime).2 = [])
    (cause : Option Fault) (written : List (List UInt8)) :
    pull env sizes ⟨c, .flushing cause, written⟩ =
      flushed env (behind c (c.link.mux.nextPiece sizes.write env.now.uptime).1) written cause := by
  unfold pull Link.serialize budget
  unfold Chunk.Mux.nextPiece at h ⊢
  dsimp only
  rw [h]
  cases cause <;> rfl

theorem pull_of_ne (h : (c.link.mux.nextPiece sizes.write env.now.uptime).2 ≠ [])
    (cause : Option Fault) (written : List (List UInt8)) :
    pull env sizes ⟨c, .flushing cause, written⟩ =
      ⟨behind c (c.link.mux.nextPiece sizes.write env.now.uptime).1,
        .writing (c.link.mux.nextPiece sizes.write env.now.uptime).2 cause, written⟩ := by
  obtain ⟨b, rest, hpiece⟩ := List.exists_cons_of_ne_nil h
  unfold pull Link.serialize budget
  unfold Chunk.Mux.nextPiece at hpiece ⊢
  dsimp only
  rw [hpiece]
  rfl

/-- A piece that is empty is the last one. -/
theorem flush_of_nil (h : (c.link.mux.nextPiece sizes.write env.now.uptime).2 = [])
    (refusal : Nat → Option Fault) (cause : Option Fault) (written : List (List UInt8)) :
    flush env sizes refusal ⟨c, .flushing cause, written⟩ =
      flushed env (behind c (c.link.mux.nextPiece sizes.write env.now.uptime).1) written cause := by
  unfold flush
  split
  · rename_i hactivity
    rw [pull_of_nil h] at hactivity
    cases cause <;> cases hactivity
  · exact pull_of_nil h cause written

/-- A piece that the socket takes is followed by the others. -/
theorem flush_of_ne (h : (c.link.mux.nextPiece sizes.write env.now.uptime).2 ≠ [])
    (cause : Option Fault) (written : List (List UInt8)) :
    flush env sizes (fun _ => none) ⟨c, .flushing cause, written⟩ =
      flush env sizes (fun _ => none)
        ⟨behind c (c.link.mux.nextPiece sizes.write env.now.uptime).1, .flushing cause,
          (c.link.mux.nextPiece sizes.write env.now.uptime).2 :: written⟩ := by
  have hpull := pull_of_ne h cause written
  conv_lhs => unfold flush
  split
  · rw [hpull]
    rfl
  · rename_i hnot
    exact absurd (congrArg Session.activity hpull) (hnot _ _ _ rfl)

/-- **The loop of a session** takes out the pieces of `Mux.flush`, and writes them. -/
theorem flush_eq (cause : Option Fault) {n : Nat} {pieces : List (List UInt8)} {mux : Chunk.Mux}
    (h : c.link.mux.flush sizes.write (List.replicate n env.now.uptime) =
      some (pieces ++ [[]], mux)) (written : List (List UInt8)) :
    flush env sizes (fun _ => none) ⟨c, .flushing cause, written⟩ =
      flushed env (behind c mux) (pieces.reverse ++ written) cause := by
  induction n generalizing c pieces written with
  | zero => cases h
  | succ n ih =>
    rw [List.replicate_succ] at h
    by_cases hout : (c.link.mux.nextPiece sizes.write env.now.uptime).2 = []
    · rw [Chunk.Mux.flush_of_nil hout] at h
      obtain ⟨hpieces, rfl⟩ := Prod.mk.inj (Option.some.inj h)
      obtain rfl : pieces = [] := List.append_left_eq_self.1 hpieces.symm
      exact flush_of_nil hout _ cause written
    · rw [Chunk.Mux.flush_of_ne hout] at h
      obtain ⟨⟨later, mux'⟩, hlater, he⟩ := Option.map_eq_some_iff.1 h
      obtain ⟨hpieces, rfl⟩ := Prod.mk.inj he
      -- the piece is not the empty one, so it is the first of `pieces`
      cases pieces with
      | nil => exact absurd (List.cons.inj hpieces).1 hout
      | cons piece more =>
        obtain ⟨rfl, rfl⟩ := List.cons.inj hpieces
        rw [flush_of_ne hout, List.reverse_cons, List.append_assoc]
        exact ih (c := behind c _) hlater _

/-- **Flushing empties the queues**, whatever is queued, however small the session's buffer is and
whenever the pieces are taken out: the loop ends within as many calls as the load counts, and one
more. Every call gives bytes but for the last one, and behind that one nothing is queued. A session
whose socket takes every piece makes these calls, writes what they give, and has then emptied its
queues. -/
theorem flush_empties (env : Environment σ) (sizes : BufferSizes) (c : Connection σ)
    (cause : Option Fault) (written : List (List UInt8)) :
    (∀ times : List Nat, c.link.mux.load < times.length → ∃ pieces mux,
      c.link.mux.flush sizes.write times = some (pieces ++ [[]], mux) ∧
        Chunk.Mux.Emptied pieces mux) ∧
      ∃ calls pieces mux,
        c.link.mux.flush sizes.write (List.replicate calls env.now.uptime) =
          some (pieces ++ [[]], mux) ∧
        Chunk.Mux.Emptied pieces mux ∧
        flush env sizes (fun _ => none) ⟨c, .flushing cause, written⟩ =
          flushed env (behind c mux) (pieces.reverse ++ written) cause := by
  refine ⟨fun times htimes => Chunk.Mux.exists_flush sizes.write htimes, ?_⟩
  -- every call but the last takes something off the load
  have hload : c.link.mux.load < (List.replicate (c.link.mux.load + 1) env.now.uptime).length := by
    rw [List.length_replicate]
    exact Nat.lt_succ_self _
  obtain ⟨pieces, mux, hflush, hemptied⟩ := Chunk.Mux.exists_flush sizes.write hload
  exact ⟨_, pieces, mux, hflush, hemptied, flush_eq cause hflush written⟩

/-- A buffer of no bytes, and three raw bytes in front of the announcement that the chunk size grows
from 128 to 300 and of a message of 700 bytes: five pieces, and an empty one. -/
theorem flush_empties_growing :
    let env : Environment Unit := ⟨.silent Unit, .seeded 0, ⟨0, 0⟩⟩
    let sizes : BufferSizes := ⟨64, 0⟩
    let mux := ((Chunk.Mux.initial.pushRaw [7, 8, 9]).enqueue
      (.ofPayload 0 1 0 2 [0, 0, 1, 44])).enqueue (.ofPayload 0 9 1 5 (List.replicate 700 0))
    let c : Connection Unit := { Connection.initial 1 .standard () with link := ⟨1, mux, .live⟩ }
    c.link.mux.load < (List.range 800).length ∧
      (∃ pieces left, mux.flush sizes.write (List.range 800) = some (pieces ++ [[]], left) ∧
        pieces.map List.length = [3, 16, 312, 301, 101] ∧ left.hasData = false) ∧
      (flush env sizes (fun _ => none) ⟨c, .flushing none, []⟩).connection.link.mux.hasData =
        false := by
  intro env sizes mux c
  have hload : c.link.mux.load < (List.range 800).length := by decide +kernel
  have hlengths : (mux.flush sizes.write (List.range 800)).map (fun out => out.1.map List.length) =
      some ([3, 16, 312, 301, 101] ++ [0]) := by decide +kernel
  obtain ⟨hends, _, pieces', left', -, hemptied', hflush⟩ := flush_empties env sizes c none []
  obtain ⟨pieces, left, hpieces, hemptied⟩ := hends (List.range 800) hload
  refine ⟨hload, ⟨pieces, left, hpieces, ?_, hemptied.hasData⟩, ?_⟩
  · -- the lengths are evaluated, and the rest is read off the theorem
    rw [show mux.flush sizes.write (List.range 800) = _ from hpieces, Option.map_some,
      List.map_append, Option.some.injEq] at hlengths
    exact (List.append_inj' hlengths rfl).1
  · rw [hflush]
    exact hemptied'.hasData

end Session

end LiveIngest
