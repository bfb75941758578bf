import LiveIngest.Proofs.Connection.Bytewise
import LiveIngest.Proofs.Connection.Similar

/-!
# The cut of the input is not visible

A connection takes its input in slices and acknowledges slices, but it acts on bytes. Between a
connection that takes slices and one that takes their bytes without acknowledging anything, the only
difference is in acknowledgements: the two stay `Similar` along every part of a slice
(`respects_take`), parts are the bytes they are made of (`takeBytes_eq_resume`), and an
acknowledgement at the beginning of a slice keeps the two similar (`Similar.acknowledge`).

Main statement: `parseAll_slicing` — two ways of cutting the same input lead to the same calls of
the service and to the same connection, but for the acknowledgements that are queued.
-/

namespace LiveIngest.Connection

open Handling

variable {σ α : Type} {env : Environment σ}

/-- A weaker fact about the receiving side. -/
theorem Similar.imp {P Q : Chunk.Demux → Prop} (hPQ : ∀ d, P d → Q d) {c c' : Connection σ}
    (h : Similar P c c') : Similar Q c c' := by
  obtain ⟨hs, hrest⟩ := h
  exact ⟨⟨hs.live, hs.notClosed, hs.handshake, hPQ _ hs.demux⟩, hrest⟩

theorem Similar.sound {c c' : Connection σ} (h : Similar Chunk.Demux.Sound c c') :
    c'.handshake.Sound ∧ c'.demux.Sound := by
  obtain ⟨hs, mux, total, pending, -, rfl⟩ := h
  exact ⟨hs.handshake, hs.demux⟩

/-! ### Parts of a slice -/

/-- A part of the handshake. -/
theorem Similar.shaken {P : Chunk.Demux → Prop} {c c' : Connection σ} (h : Similar P c c')
    {m : Handshake.Machine} (hm : m.Sound) (reply : List UInt8) :
    Similar P (c.shaken m reply) (c'.shaken m reply) := by
  obtain ⟨hs, mux, total, pending, hmatches, rfl⟩ := h
  have hpushed : Similar P { c with handshake := m, link := c.link.pushRaw reply }
      { c.masked mux total pending with
        handshake := m, link := { c.link with mux }.pushRaw reply } :=
    ⟨⟨hs.live, hs.notClosed, hm, hs.demux⟩, mux.pushRaw reply, total, pending,
      hmatches.pushRaw reply, rfl⟩
  unfold Connection.shaken
  cases hdone : m.isDone with
  | true =>
    exact hpushed.change (f := (·.advance .connected)) rfl (fun _ _ _ => rfl)
      (·.advance (by decide))
  | false => exact hpushed

theorem respects_takeHandshake (slice : List UInt8) :
    Respects (Similar Chunk.Demux.Sound) (takeHandshake env slice) := by
  intro c c' h
  have hsame : c'.handshake = c.handshake := by
    obtain ⟨-, mux, total, pending, -, rfl⟩ := h
    rfl
  rw [takeHandshake_apply, takeHandshake_apply, hsame]
  cases (c.handshake.parse env.crypto env.now.wall slice).fault with
  | none => exact ⟨rfl, h.shaken (h.1.handshake.parse slice).1 _⟩
  | some f => exact ⟨rfl, h⟩

theorem respects_takeChunks (henv : env.service.KeepsOpen) (slice : List UInt8) :
    Respects (Similar Chunk.Demux.Sound) (takeChunks env slice) := by
  rintro c _ ⟨hs, mux, total, pending, hmatches, rfl⟩
  have hsame : (c.masked mux total pending).demux = c.demux := rfl
  obtain ⟨hsound, -, hidle⟩ := hs.demux.parse slice
  rw [takeChunks_apply, takeChunks_apply, hsame]
  have hread : ∀ {P : Chunk.Demux → Prop}, P (c.demux.parse slice).demux →
      Similar P { c with demux := (c.demux.parse slice).demux }
        { c.masked mux total pending with demux := (c.demux.parse slice).demux } :=
    fun hP => ⟨⟨hs.live, hs.notClosed, hs.handshake, hP⟩, mux, total, pending, hmatches, rfl⟩
  unfold onReading
  cases he : (c.demux.parse slice).event with
  | packet p =>
    -- the packet is acted upon between two chunks
    have hacted := (respects_onPacket henv p).bind
      (fun _ => Respects.pure (c.demux.parse slice).consumed) (hread (hidle p he))
    exact ⟨hacted.1, hacted.2.imp fun _ h => h.1⟩
  | fault f => exact ⟨rfl, hread hsound⟩
  | quiet | stalled => exact ⟨rfl, hread hsound⟩

/-- **A part of a slice** does the same to similar connections. -/
theorem respects_take (henv : env.service.KeepsOpen) (slice : List UInt8) :
    Respects (Similar Chunk.Demux.Sound) (take env slice) := by
  refine respects_look (fun _ _ _ _ => rfl) fun c => .ite ?_ ?_
  · exact respects_takeChunks henv slice
  · exact respects_takeHandshake slice

/-! ### Slices -/

def Outcome.fault? (out : Outcome σ α) : Option Fault :=
  match out.1 with
  | .ok _ => none
  | .error f => some f

/-- **A slice is taken as its bytes.** -/
theorem Similar.takeAll_eq_takeBytes (henv : env.service.KeepsOpen) {c c' : Connection σ}
    (h : Similar Chunk.Demux.Sound c c') (hopen : c'.phase ≠ .closing) (taken : Nat)
    (slice : List UInt8) : c'.takeAll env taken slice = takeBytes env c' taken slice := by
  -- parts keep a connection similar to another one, and such a connection is sound
  have hsound : ∀ d' : Connection σ, (∃ d, Similar Chunk.Demux.Sound d d') →
      d'.handshake.Sound ∧ d'.demux.Sound := fun _ ⟨_, hsim⟩ => hsim.sound
  refine Connection.takeAll_eq_takeBytes hsound ?_ ⟨c, h⟩ hopen taken slice
  rintro d' part ⟨d, hsim⟩
  exact ⟨_, (respects_take henv part hsim).2⟩

/-- All of a slice is taken, unless the connection is closing afterwards. -/
theorem Similar.taken_takeAll (henv : env.service.KeepsOpen) {c c' : Connection σ}
    (h : Similar Chunk.Demux.Sound c c') {taken n : Nat} {slice : List UInt8} {d : Connection σ}
    (htaken : c'.takeAll env taken slice = (.ok n, d)) :
    n = taken + slice.length ∨ d.phase = .closing := by
  fun_induction c'.takeAll env taken slice generalizing c with
  | case1 c' taken =>
    cases htaken
    exact Or.inl rfl
  | case2 c' taken slice hs k e htake hk =>
    obtain ⟨hshake, hdemux⟩ := h.sound
    -- something was taken, so the connection is closing
    have hpos := (take_bounds hshake hdemux hs htake).1
    cases htaken
    exact Or.inr (hk.resolve_right (Nat.ne_of_gt hpos))
  | case3 c' taken slice hs k e htake hk ih =>
    obtain ⟨hshake, hdemux⟩ := h.sound
    have hle := (take_bounds hshake hdemux hs htake).2
    obtain ⟨-, hsim⟩ := respects_take henv slice h
    rw [htake] at hsim
    -- the bytes of the part and the bytes behind it are those of the slice
    refine (ih hsim htaken).imp_left fun hn => ?_
    rw [hn, List.length_drop]
    omega
  | case4 c' taken slice hs f e htake => cases htaken

/-- Bytes do the same to similar connections, however many were taken before. -/
theorem Similar.takeBytes (henv : env.service.KeepsOpen) {c c' : Connection σ}
    (h : Similar Chunk.Demux.Sound c c') (n n' : Nat) (bytes : List UInt8) :
    (takeBytes env c' n' bytes).fault? = (takeBytes env c n bytes).fault? ∧
      Similar Chunk.Demux.Sound (takeBytes env c n bytes).2 (takeBytes env c' n' bytes).2 := by
  induction bytes generalizing c c' n n' with
  | nil => exact ⟨rfl, h⟩
  | cons b rest ih =>
    have hphase : c'.phase = c.phase := by
      obtain ⟨-, mux, total, pending, -, rfl⟩ := h
      rfl
    rw [Connection.takeBytes, Connection.takeBytes, hphase]
    by_cases hclosing : c.phase = .closing
    · rw [if_pos hclosing, if_pos hclosing]
      exact ⟨rfl, h⟩
    · rw [if_neg hclosing, if_neg hclosing]
      obtain ⟨hanswer, hsim⟩ := respects_take henv [b] h
      -- equal outcomes: both fail, or both go on with the next byte
      rcases htake : take env [b] c with ⟨f | k, d⟩ <;>
        rcases htake' : take env [b] c' with ⟨f' | k', d'⟩ <;> rw [htake, htake'] at hanswer hsim
      · cases hanswer
        exact ⟨rfl, hsim⟩
      · cases hanswer
      · cases hanswer
      · exact ih hsim (n + k) (n' + k')

/-- A window and what is counted against it are all that counting looks at. -/
theorem count_eq (i : Intake) (n : Nat) :
    ∃ total pending, (i.count n).1 = { i with total, pending } := by
  unfold Intake.count
  dsimp only
  split
  · exact ⟨_, _, rfl⟩
  · split
    · exact ⟨_, _, rfl⟩
    · exact ⟨_, _, rfl⟩

/-- Counting a slice, and the acknowledgement that is due. -/
theorem acknowledge_apply (n : Nat) (c : Connection σ) : ∃ total pending,
    acknowledge n c = ((c.intake.count n).2.elim (pure ())
      fun t => send (.ofControl (.acknowledgement t)) : Handling σ Unit)
        (c.masked c.link.mux total pending) := by
  obtain ⟨total, pending, hcount⟩ := count_eq c.intake n
  refine ⟨total, pending, ?_⟩
  have hmasked : { c with intake := (c.intake.count n).1 } =
      c.masked c.link.mux total pending := by
    rw [hcount]
    rfl
  rw [← hmasked]
  unfold acknowledge
  rw [bind_apply, get_apply]
  dsimp only
  rcases c.intake.count n with ⟨intake, _ | t⟩ <;> rfl

/-- **An acknowledgement makes no difference.** It can be queued unless the connection is ending. -/
theorem Similar.acknowledge {P : Chunk.Demux → Prop} {c c' : Connection σ} (h : Similar P c c')
    (hopen : c'.phase.isEnding = false) (n : Nat) :
    ∃ d, acknowledge n c' = (.ok (), d) ∧ d.phase = c'.phase ∧ Similar P c d := by
  obtain ⟨hs, mux, total, pending, hmatches, rfl⟩ := h
  -- the link is live, so nothing keeps the acknowledgement from being queued
  have hlive : c.link.status = .live := by
    refine hs.live.resolve_right fun hclosing => ?_
    have hphase : (c.masked mux total pending).phase = .closing := hclosing
    rw [hphase] at hopen
    exact absurd hopen (by decide)
  obtain ⟨total', pending', hack⟩ := acknowledge_apply n (c.masked mux total pending)
  rw [hack]
  cases ((c.masked mux total pending).intake.count n).2 with
  | none =>
    exact ⟨c.masked mux total' pending', rfl, rfl, hs, mux, total', pending', hmatches, rfl⟩
  | some t =>
    let p := Packet.ofControl (.acknowledgement t)
    refine ⟨c.masked (mux.enqueue p) total' pending', ?_, rfl, hs, mux.enqueue p, total', pending',
      hmatches.enqueue_skip (Packet.isAcknowledgement_ofControl t), rfl⟩
    refine send_of_none ?_ p
    show c.link.status.fault? c.link.id = none
    rw [hlive]
    rfl

/-- A slice against its bytes. -/
theorem Similar.parse (henv : env.service.KeepsOpen) {c c' : Connection σ}
    (h : Similar Chunk.Demux.Sound c c') (n : Nat) (slice : List UInt8) :
    (c'.parse env slice).fault? = (Connection.takeBytes env c n slice).fault? ∧
      Similar Chunk.Demux.Sound (Connection.takeBytes env c n slice).2 (c'.parse env slice).2 := by
  unfold Connection.parse
  cases hending : c'.phase.isEnding with
  | true =>
    -- a call on a connection that is ending takes nothing, and so do bytes
    have hclosing : c.phase = .closing := by
      obtain ⟨hs, mux, total, pending, -, rfl⟩ := h
      have hphase : c.phase.isEnding = true := hending
      have hnot := hs.notClosed
      cases hp : c.phase with
      | closing => rfl
      | closed => exact absurd hp hnot
      | _ =>
        rw [hp] at hphase
        exact absurd hphase (by decide)
    rw [takeBytes_of_closing hclosing, if_pos rfl]
    exact ⟨rfl, h⟩
  | false =>
    obtain ⟨d, hack, hphase, hsim⟩ := h.acknowledge hending slice.length
    -- an acknowledgement leaves the phase alone
    have hopen : d.phase ≠ .closing := by
      intro hclosing
      rw [← hphase, hclosing] at hending
      exact absurd hending (by decide)
    rw [if_neg Bool.false_ne_true, hack]
    dsimp only
    rw [hsim.takeAll_eq_takeBytes henv hopen]
    exact hsim.takeBytes henv n 0 slice

/-- **Slices against their bytes.** -/
theorem Similar.parseAll (henv : env.service.KeepsOpen) {c c' : Connection σ}
    (h : Similar Chunk.Demux.Sound c c') (n k : Nat) (slices : List (List UInt8)) :
    (c'.parseAll env k slices).2.2 = (Connection.takeBytes env c n slices.flatten).fault? ∧
      Similar Chunk.Demux.Sound (Connection.takeBytes env c n slices.flatten).2
        (c'.parseAll env k slices).1 := by
  induction slices generalizing c c' n k with
  | nil => exact ⟨rfl, h⟩
  | cons slice rest ih =>
    obtain ⟨hfault, hsim⟩ := h.parse henv n slice
    rw [List.flatten_cons, takeBytes_append, Connection.parseAll]
    -- both fail, or both go on with the next slice
    rcases htake : Connection.takeBytes env c n slice with ⟨f | m, d⟩ <;>
      rcases hparse : c'.parse env slice with ⟨f' | m', d'⟩ <;> rw [htake, hparse] at hfault hsim
    · exact ⟨hfault, hsim⟩
    · cases hfault
    · cases hfault
    · exact ih hsim m (k + m')

/-- A call that does not fail takes its slice, unless the connection is ending. -/
theorem Similar.taken_parse (henv : env.service.KeepsOpen) {c c' d : Connection σ}
    (h : Similar Chunk.Demux.Sound c c') {slice : List UInt8} {n : Nat}
    (htaken : c'.parse env slice = (.ok n, d)) : n = slice.length ∨ d.phase.isEnding = true := by
  unfold Connection.parse at htaken
  cases hending : c'.phase.isEnding with
  | true =>
    rw [if_pos hending] at htaken
    obtain ⟨-, rfl⟩ := Prod.mk.inj htaken
    exact Or.inr hending
  | false =>
    obtain ⟨e, hack, -, hsim⟩ := h.acknowledge hending slice.length
    rw [if_neg (Bool.eq_false_iff.1 hending), hack] at htaken
    rcases hsim.taken_takeAll henv htaken with hn | hclosing
    · exact Or.inl (hn.trans (Nat.zero_add _))
    · rw [hclosing]
      exact Or.inr rfl

/-- A connection to which nothing was sent is similar to itself. -/
theorem Similar.initial (id : Nat) (terms : Terms) (s : σ) :
    Similar Chunk.Demux.Sound (initial id terms s) (initial id terms s) := by
  refine ⟨⟨Or.inl rfl, ?_, .initial, .initial⟩, .initial, 0, 0, .refl .initial, rfl⟩
  show Phase.handshaking ≠ .closed
  decide

/-- **The cut of the input is not visible** to a service that does not close the link. Let a new
connection take the same input in two ways of cutting it, up to the first fault, and let the service
write down the calls of its hooks. The fault is the same, and so are the calls. The connection is
the same with everything in it, such as the phase, the handshake, the streams and the receiving side
with its chunk size, except for the counts of what was received and for the queues. These match:
each chunk stream has the same messages in the same order, once acknowledgements are left out.

Moreover no call goes on for ever: each part that is taken of a slice has a byte at least. A call
that does not fail takes its whole slice, unless the connection is ending. -/
theorem parseAll_slicing (env : Environment σ) (henv : env.service.KeepsOpen) (id : Nat)
    (terms : Terms) (s : σ) {xs ys : List (List UInt8)} (h : xs.flatten = ys.flatten) :
    let noted : Environment (σ × List JournalLine) := { env with service := env.service.noted }
    let out := (initial id terms (s, [])).parseAll noted 0 xs
    let out' := (initial id terms (s, [])).parseAll noted 0 ys
    out'.2.2 = out.2.2 ∧ out'.1.served = out.1.served ∧
      out'.1 = out.1.masked out'.1.link.mux out'.1.intake.total out'.1.intake.pending ∧
      out.1.link.mux.Matches Packet.isAcknowledgement out'.1.link.mux ∧
      (∀ slice n c, slice ≠ [] → Connection.take noted slice out.1 = (.ok n, c) →
        0 < n ∧ n ≤ slice.length) ∧
      ∀ slice n c, out.1.parse noted slice = (.ok n, c) →
        n = slice.length ∨ c.phase.isEnding = true := by
  intro noted out out'
  have hnoted : noted.service.KeepsOpen := henv.noted
  have hinitial := Similar.initial id terms (s, ([] : List JournalLine))
  -- both are similar to the connection that takes the bytes without a slice
  obtain ⟨hfault, hsim⟩ := hinitial.parseAll hnoted 0 0 xs
  obtain ⟨hfault', hsim'⟩ := hinitial.parseAll hnoted 0 0 ys
  rw [← h] at hfault' hsim'
  have hpart : ∀ slice n c, slice ≠ [] → Connection.take noted slice out.1 = (.ok n, c) →
      0 < n ∧ n ≤ slice.length :=
    fun slice n c hslice => take_bounds hsim.sound.1 hsim.sound.2 hslice
  have htaken : ∀ slice n c, out.1.parse noted slice = (.ok n, c) →
      n = slice.length ∨ c.phase.isEnding = true :=
    fun slice n c => hsim.taken_parse hnoted
  obtain ⟨-, mux, total, pending, hmatches, hout⟩ := hsim
  obtain ⟨-, mux', total', pending', hmatches', hout'⟩ := hsim'
  have hsame : out'.1 = out.1.masked out'.1.link.mux out'.1.intake.total out'.1.intake.pending := by
    rw [hout, hout']
    rfl
  have hqueues : out.1.link.mux.Matches Packet.isAcknowledgement out'.1.link.mux := by
    rw [hout, hout']
    exact hmatches.symm.trans hmatches'
  refine ⟨hfault'.trans hfault.symm, ?_, hsame, hqueues, hpart, htaken⟩
  rw [hsame]
  rfl

/-- A whole handshake, a window of 16 bytes, a chunk size of 4096 and a call for the application
`live`, in one slice or cut inside the handshake, a header, and a payload. The service hears of the
call once, and only the second connection acknowledges. -/
theorem parseAll_slicing_connect :
    let env : Environment Unit := ⟨.silent Unit, .seeded 0, ⟨0, 0⟩⟩
    let noted : Environment (Unit × List JournalLine) := { env with service := env.service.noted }
    let hello : List UInt8 := 3 :: List.replicate 3072 0
    let terms : List UInt8 := [2, 0, 0, 0, 0, 0, 4, 5, 0, 0, 0, 0, 0, 0, 0, 16,
      2, 0, 0, 0, 0, 0, 4, 1, 0, 0, 0, 0, 0, 0, 16, 0]
    let connect : List UInt8 := [3, 0, 0, 0, 0, 0, 35, 20, 0, 0, 0, 0,
      2, 0, 7, 99, 111, 110, 110, 101, 99, 116, 0, 63, 240, 0, 0, 0, 0, 0, 0,
      3, 0, 3, 97, 112, 112, 2, 0, 4, 108, 105, 118, 101, 0, 0, 9]
    let xs := [hello ++ terms ++ connect]
    let ys := [hello.take 700, hello.drop 700 ++ terms.take 21, terms.drop 21 ++ connect.take 30,
      connect.drop 30]
    let out := (initial 1 .standard ((), [])).parseAll noted 0 xs
    let out' := (initial 1 .standard ((), [])).parseAll noted 0 ys
    env.service.KeepsOpen ∧ out'.2.2 = out.2.2 ∧ out'.1.served = out.1.served ∧
      out'.1 = out.1.masked out'.1.link.mux out'.1.intake.total out'.1.intake.pending ∧
      out.1.phase = .appConnected ∧ out.1.application = "live" ∧ out.1.demux.chunkSize = 4096 ∧
      out.1.served.2.length = 1 ∧
      (out.1.link.mux.waiting 2).countP (·.isAcknowledgement) = 0 ∧
      (out'.1.link.mux.waiting 2).countP (·.isAcknowledgement) = 2 := by
  intro env noted hello terms connect xs ys out out'
  have henv : env.service.KeepsOpen := .silent Unit
  have hflat : xs.flatten = ys.flatten := by decide +kernel
  -- the cuts go through the handshake, a header and the command
  obtain ⟨hfault, hserved, hsame, -⟩ := parseAll_slicing env henv 1 .standard () hflat
  exact ⟨henv, hfault, hserved, hsame, by decide +kernel⟩

end LiveIngest.Connection
