import LiveIngest.Connection.Input
import LiveIngest.Proofs.Chunk.Turns
import LiveIngest.Proofs.Connection.Handling
import LiveIngest.Proofs.Handshake.Bytewise

/-!
# A connection that takes bytes

A connection takes a slice part by part, and a part may have any number of bytes. `takeBytes` gives
it one byte at a time. Between the two stands what a part does behind its first byte
(`begins_take`): the first byte is the whole part, or it only makes a start (`Begins`), and what is
left of the part is a part of its own.

Main statement: `takeBytes_eq_resume` — taking the bytes of a slice one by one is taking its first
part, and then the bytes behind it.
-/

namespace LiveIngest.Connection

open Handling

variable {σ : Type} {env : Environment σ}

/-! ### What a part does -/

/-- The connection after a part of the handshake. -/
def shaken (c : Connection σ) (m : Handshake.Machine) (reply : List UInt8) : Connection σ :=
  let c := { c with handshake := m, link := c.link.pushRaw reply }
  if m.isDone then c.advance .connected else c

/-- A part of the handshake touches handshake, raw bytes and phase. -/
theorem shaken_eq (c : Connection σ) (m : Handshake.Machine) (reply : List UInt8) :
    c.shaken m reply = { c with
      handshake := m
      link := c.link.pushRaw reply
      phase := if m.isDone then c.phase.advance .connected else c.phase } := by
  unfold shaken
  dsimp only
  split <;> rfl

theorem shaken_of_not_isDone {m : Handshake.Machine} (hm : m.isDone = false) (c : Connection σ)
    (reply : List UInt8) :
    c.shaken m reply = { c with handshake := m, link := c.link.pushRaw reply } := by
  unfold shaken
  rw [hm]
  rfl

/-- Answers go out one behind the other. -/
theorem shaken_shaken {m : Handshake.Machine} (hm : m.isDone = false) (c : Connection σ)
    (m' : Handshake.Machine) (reply reply' : List UInt8) :
    (c.shaken m reply).shaken m' reply' = c.shaken m' (reply ++ reply') := by
  have hraw : (c.link.pushRaw reply).pushRaw reply' = c.link.pushRaw (reply ++ reply') := by
    unfold Link.pushRaw Chunk.Mux.pushRaw
    dsimp only
    rw [List.append_assoc]
  rw [shaken_of_not_isDone hm]
  unfold shaken
  dsimp only
  rw [hraw]

/-- Taking bytes of the handshake, written out. -/
theorem takeHandshake_apply (slice : List UInt8) (c : Connection σ) :
    takeHandshake env slice c =
      (c.handshake.parse env.crypto env.now.wall slice).fault.elim
        (.ok (c.handshake.parse env.crypto env.now.wall slice).consumed,
          c.shaken (c.handshake.parse env.crypto env.now.wall slice).machine
            (c.handshake.parse env.crypto env.now.wall slice).reply)
        fun f => (.error f, c) := by
  unfold takeHandshake
  rw [bind_apply, get_apply]
  dsimp only
  cases (c.handshake.parse env.crypto env.now.wall slice).fault with
  | none => rfl
  | some f => rfl

def onReading (env : Environment σ) (c : Connection σ) (r : Chunk.Demux.Reading) : Outcome σ Nat :=
  match r.event with
  | .packet p =>
    (onPacket env p >>= fun _ => pure r.consumed : Handling σ Nat) { c with demux := r.demux }
  | .fault f => (.error f, { c with demux := r.demux })
  | .quiet | .stalled => (.ok r.consumed, { c with demux := r.demux })

/-- Taking bytes of chunks, written out. -/
theorem takeChunks_apply (slice : List UInt8) (c : Connection σ) :
    takeChunks env slice c = onReading env c (c.demux.parse slice) := by
  unfold takeChunks onReading
  rw [bind_apply, get_apply]
  dsimp only
  cases (c.demux.parse slice).event <;> rfl

/-- Behind the handshake there are only chunks. -/
theorem take_of_isDone {c : Connection σ} (h : c.handshake.isDone = true) (slice : List UInt8) :
    take env slice c = onReading env c (c.demux.parse slice) := by
  rw [← takeChunks_apply]
  unfold take
  rw [bind_apply, get_apply]
  dsimp only
  rw [if_pos h]

/-- Within the handshake there are no chunks yet. -/
theorem take_of_not_isDone {c : Connection σ} (h : c.handshake.isDone = false)
    (slice : List UInt8) : take env slice c = takeHandshake env slice c := by
  unfold take
  rw [bind_apply, get_apply]
  dsimp only
  rw [if_neg (Bool.eq_false_iff.1 h)]

/-! ### The first byte of a part -/

/-- The outcome of a part that has one more byte in front. -/
def Outcome.succ (out : Outcome σ Nat) : Outcome σ Nat :=
  (out.1.map (1 + ·), out.2)

/-- A byte more that the reader has taken is a byte more that is consumed. -/
theorem onReading_after (c : Connection σ) (r : Chunk.Demux.Reading) :
    onReading env c (r.after 1) = Outcome.succ (onReading env c r) := by
  unfold onReading
  rw [Chunk.Demux.Reading.event_after]
  cases r.event with
  | packet p =>
    dsimp only
    rw [bind_apply, bind_apply, Chunk.Demux.Reading.demux_after]
    rcases onPacket env p { c with demux := r.demux } with ⟨_ | _, d⟩
    · rfl
    · rfl
  | _ => rfl

/-- The first byte of a part is the whole part, or it makes a start. In that case the phase stays,
the handshake and the receiving side stay sound, and what is left of the part is a part of its own.
-/
def Begins (env : Environment σ) (c : Connection σ) (b : UInt8) (rest : List UInt8) : Prop :=
  take env (b :: rest) c = take env [b] c ∨
    ∃ d : Connection σ, take env [b] c = (.ok 1, d) ∧ d.phase = c.phase ∧ d.handshake.Sound ∧
      d.demux.Sound ∧ take env (b :: rest) c = Outcome.succ (take env rest d)

/-- Chunks begin with a byte that brings something, or that brings nothing yet. -/
theorem begins_of_isDone {c : Connection σ} (hdone : c.handshake.isDone = true)
    (hshake : c.handshake.Sound) (hdemux : c.demux.Sound) (b : UInt8) (rest : List UInt8) :
    c.Begins env b rest := by
  unfold Begins
  rw [take_of_isDone hdone, take_of_isDone hdone]
  by_cases hb : (c.demux.step b).2 = .quiet
  · have hparse := hdemux.parse_cons_quiet (Prod.ext rfl hb)
    refine Or.inr ⟨{ c with demux := (c.demux.step b).1 }, ?_, rfl, hshake, hdemux.step b, ?_⟩
    · rw [hparse, Chunk.Demux.parse_nil]
      rfl
    · rw [hparse, onReading_after, take_of_isDone (by exact hdone)]
      rfl
  · rw [hdemux.parse_cons_of_ne hb, hdemux.parse_cons_of_ne hb]
    exact Or.inl rfl

/-- The handshake begins with a byte that is at fault or ends it, or that it goes on behind. -/
theorem begins_of_not_isDone {c : Connection σ} (hdone : c.handshake.isDone = false)
    (hshake : c.handshake.Sound) (hdemux : c.demux.Sound) (b : UInt8) (rest : List UInt8) :
    c.Begins env b rest := by
  unfold Begins
  rw [take_of_not_isDone hdone, take_of_not_isDone hdone, takeHandshake_apply, takeHandshake_apply]
  cases hb : c.handshake.step env.crypto env.now.wall b with
  | error f =>
    rw [Handshake.Machine.parse_cons_error hb, Handshake.Machine.parse_cons_error hb]
    exact Or.inl rfl
  | ok out =>
    obtain ⟨m, bytes⟩ := out
    obtain ⟨hm, hbegun⟩ := Handshake.Machine.sound_of_step hb
    have hparse := Handshake.Machine.parse_cons_ok hshake hdone hb
    rw [hparse, hparse, Handshake.Machine.parse_nil hm]
    cases hlast : m.isDone with
    | true =>
      -- the byte ends the handshake, and the others are left for chunks
      rw [Handshake.Machine.parse_of_isDone hlast]
      exact Or.inl rfl
    | false =>
      have hstart := shaken_of_not_isDone hlast c (bytes ++ [])
      refine Or.inr ⟨c.shaken m (bytes ++ []), rfl, ?_, ?_, ?_, ?_⟩
      · rw [hstart]
      · rw [hstart]
        exact hm
      · rw [hstart]
        exact hdemux
      · have hhandshake : (c.shaken m (bytes ++ [])).handshake = m := by
          rw [hstart]
        -- only the first byte of all can be at fault
        have hfault : (m.parse env.crypto env.now.wall rest).fault = none :=
          Handshake.Machine.fault_parse hbegun rest
        rw [take_of_not_isDone (by rw [hhandshake]; exact hlast), takeHandshake_apply, hhandshake,
          shaken_shaken hlast, List.append_nil]
        unfold Handshake.Machine.Reading.after
        dsimp only
        rw [hfault]
        rfl

/-- **The first byte of a part.** -/
theorem begins_take {c : Connection σ} (hshake : c.handshake.Sound) (hdemux : c.demux.Sound)
    (b : UInt8) (rest : List UInt8) : c.Begins env b rest := by
  cases hdone : c.handshake.isDone with
  | true => exact begins_of_isDone hdone hshake hdemux b rest
  | false => exact begins_of_not_isDone hdone hshake hdemux b rest

/-- What is consumed is what the reader has taken. -/
theorem onReading_eq_ok {c d : Connection σ} {r : Chunk.Demux.Reading} {n : Nat}
    (h : onReading env c r = (.ok n, d)) : n = r.consumed := by
  unfold onReading at h
  -- what is handled does not change what was consumed
  cases he : r.event with
  | packet p =>
    rw [he] at h
    dsimp only at h
    rw [bind_apply] at h
    rcases ho : onPacket env p { c with demux := r.demux } with ⟨_ | _, e⟩ <;> rw [ho] at h
    · cases h
    · cases h
      rfl
  | fault f =>
    rw [he] at h
    cases h
  | quiet | stalled =>
    rw [he] at h
    cases h
    rfl

/-- A part takes a byte at least, and not more than there are. -/
theorem take_bounds {c : Connection σ} (hshake : c.handshake.Sound) (hdemux : c.demux.Sound)
    {slice : List UInt8} (hs : slice ≠ []) {n : Nat} {d : Connection σ}
    (h : take env slice c = (.ok n, d)) : 0 < n ∧ n ≤ slice.length := by
  -- the reader takes something of every slice that is not empty, and so does a handshake that is
  -- not done
  cases hdone : c.handshake.isDone with
  | true =>
    rw [take_of_isDone hdone] at h
    rw [onReading_eq_ok h]
    exact ⟨Chunk.Demux.consumed_parse_pos hs (hdemux.parse slice).2.1,
      hdemux.consumed_parse_le slice⟩
  | false =>
    rw [take_of_not_isDone hdone, takeHandshake_apply] at h
    have hle : (c.handshake.parse env.crypto env.now.wall slice).consumed ≤ slice.length :=
      (hshake.parse slice).2.1
    cases hf : (c.handshake.parse env.crypto env.now.wall slice).fault with
    | some f =>
      rw [hf] at h
      cases h
    | none =>
      rw [hf] at h
      cases h
      exact ⟨(hshake.parse slice).2.2 hs hdone hf, hle⟩

/-! ### Bytes -/

/-- Take bytes one by one until the connection is closing, after `taken` bytes. -/
def takeBytes (env : Environment σ) (c : Connection σ) (taken : Nat) :
    List UInt8 → Outcome σ Nat
  | [] => (.ok taken, c)
  | b :: rest =>
    if c.phase = .closing then (.ok taken, c)
    else
      match take env [b] c with
      | (.ok n, d) => takeBytes env d (taken + n) rest
      | (.error f, d) => (.error f, d)

/-- A connection that is closing takes nothing. -/
theorem takeBytes_of_closing {c : Connection σ} (h : c.phase = .closing) (taken : Nat)
    (bytes : List UInt8) : takeBytes env c taken bytes = (.ok taken, c) := by
  cases bytes with
  | nil => rfl
  | cons b rest => rw [takeBytes, if_pos h]

/-- Go on behind the part of a slice that was taken. -/
def resume (env : Environment σ) (taken : Nat) (slice : List UInt8) (out : Outcome σ Nat) :
    Outcome σ Nat :=
  match out with
  | (.ok n, d) => takeBytes env d (taken + n) (slice.drop n)
  | (.error f, d) => (.error f, d)

/-- Bytes in front of others. -/
theorem takeBytes_append (c : Connection σ) (taken : Nat) (xs ys : List UInt8) :
    takeBytes env c taken (xs ++ ys) =
      match takeBytes env c taken xs with
      | (.ok n, d) => takeBytes env d n ys
      | (.error f, d) => (.error f, d) := by
  induction xs generalizing c taken with
  | nil => rfl
  | cons b rest ih =>
    rw [List.cons_append, takeBytes, takeBytes]
    -- a connection that is closing takes neither
    by_cases hclosing : c.phase = .closing
    · rw [if_pos hclosing, if_pos hclosing]
      exact (takeBytes_of_closing hclosing taken ys).symm
    · rw [if_neg hclosing, if_neg hclosing]
      rcases take env [b] c with ⟨_ | n, d⟩
      · rfl
      · exact ih d (taken + n)

/-- A part that has one more byte in front is taken up where that byte leads. -/
theorem resume_succ (taken : Nat) (b : UInt8) (rest : List UInt8) (out : Outcome σ Nat) :
    resume env taken (b :: rest) (Outcome.succ out) = resume env (taken + 1) rest out := by
  obtain ⟨_ | n, d⟩ := out
  · rfl
  · show takeBytes env d (taken + (1 + n)) ((b :: rest).drop (1 + n)) =
      takeBytes env d (taken + 1 + n) (rest.drop n)
    rw [Nat.add_assoc, Nat.add_comm 1 n, List.drop_succ_cons]

/-- **Bytes and parts.** Taking bytes one by one is taking the first part, and then the bytes behind
it. -/
theorem takeBytes_eq_resume {c : Connection σ} (hshake : c.handshake.Sound)
    (hdemux : c.demux.Sound) (hopen : c.phase ≠ .closing) (taken : Nat) {slice : List UInt8}
    (hs : slice ≠ []) :
    takeBytes env c taken slice = resume env taken slice (take env slice c) := by
  induction slice generalizing c taken with
  | nil => exact absurd rfl hs
  | cons b rest ih =>
    rw [takeBytes, if_neg hopen]
    -- a part that is the first byte, or that ends with it
    have hone : ∀ rest, (match take env [b] c with
        | (.ok n, d) => takeBytes env d (taken + n) rest
        | (.error f, d) => (.error f, d)) = resume env taken (b :: rest) (take env [b] c) := by
      intro rest
      rcases htake : take env [b] c with ⟨f | n, d⟩
      · rfl
      · have hbounds := take_bounds hshake hdemux (List.cons_ne_nil b []) htake
        obtain rfl : n = 1 := Nat.le_antisymm hbounds.2 hbounds.1
        rfl
    by_cases hrest : rest = []
    · rw [hrest]
      exact hone []
    -- behind a byte that makes a start, what is left is a part, to which the induction applies
    obtain hwhole | ⟨d, hfirst, hphase, hshake', hdemux', hmore⟩ :=
      begins_take hshake hdemux b rest
    · rw [hwhole]
      exact hone rest
    · rw [hfirst, hmore, resume_succ]
      exact ih hshake' hdemux' (hphase ▸ hopen) (taken + 1) hrest

/-- **Slices and bytes.** Let the handshake and the receiving side be sound wherever parts of the
slice lead. Then taking the slice part by part is taking its bytes. -/
theorem takeAll_eq_takeBytes {I : Connection σ → Prop}
    (hsound : ∀ c, I c → c.handshake.Sound ∧ c.demux.Sound)
    (htake : ∀ c slice, I c → I (take env slice c).2) {c : Connection σ} (h : I c)
    (hopen : c.phase ≠ .closing) (taken : Nat) (slice : List UInt8) :
    c.takeAll env taken slice = takeBytes env c taken slice := by
  fun_induction c.takeAll env taken slice with
  | case1 c taken => rfl
  | case2 c taken slice hs n d hpart hn =>
    obtain ⟨hshake, hdemux⟩ := hsound c h
    have hpos := (take_bounds hshake hdemux hs hpart).1
    rw [takeBytes_eq_resume hshake hdemux hopen taken hs, hpart]
    -- something was taken, so the connection is closing
    exact (takeBytes_of_closing (hn.resolve_right (Nat.ne_of_gt hpos)) _ _).symm
  -- the part was taken, and the connection goes on behind it
  | case3 c taken slice hs n d hpart hn ih =>
    obtain ⟨hshake, hdemux⟩ := hsound c h
    have hnext := htake c slice h
    rw [hpart] at hnext
    rw [takeBytes_eq_resume hshake hdemux hopen taken hs, hpart]
    exact ih hnext fun hclosing => hn (Or.inl hclosing)
  | case4 c taken slice hs f d hpart =>
    obtain ⟨hshake, hdemux⟩ := hsound c h
    rw [takeBytes_eq_resume hshake hdemux hopen taken hs, hpart]
    rfl

end LiveIngest.Connection
