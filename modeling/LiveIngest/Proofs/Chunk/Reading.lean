import LiveIngest.Proofs.Chunk.Turns

/-!
# Reading slices one message at a time

A driver of the receiving side calls `Demux.parse` on a slice until the slice is used up, takes each
message as it comes out and may act on the machine before it reads on (`react`). What the driver
sees is a `Transcript`.

* `Demux.drainAll` — the transcript of slices, call by call;
* `Demux.scan` — the transcript of bytes, taken one by one;
* `drainAll_eq_scan` — for a sound machine these are the same, so that nothing is seen of the cut.
  The driver may change chunk sizes and give up messages, between two messages.

Main statement: `drainAll_slicing` — the cut of the input is not visible, every call takes a byte,
and no call leaves a complete message behind.
-/

namespace LiveIngest.Chunk

/-- How the reading of slices ended. -/
inductive Ending
  /-- Every byte was taken. -/
  | usedUp
  | fault (f : Fault)
  /-- A byte was not taken, and never will be. -/
  | stalled
  deriving DecidableEq, Repr

/-- How the reading ends when the last call ends with an event. -/
def Event.ending : Event → Ending
  | fault f => .fault f
  | stalled => .stalled
  | quiet | packet _ => .usedUp

def Ending.fault? : Ending → Option Fault
  | fault f => some f
  | usedUp | stalled => none

/-- What came out of reading slices. -/
structure Transcript where
  demux : Demux
  /-- How many bytes were taken, the one that raised a fault included. -/
  taken : Nat
  packets : List Packet
  ending : Ending
  deriving DecidableEq, Repr

namespace Transcript

/-- The transcript that has `n` more bytes and the messages `ps` in front. -/
def after (t : Transcript) (n : Nat) (ps : List Packet) : Transcript :=
  { t with taken := n + t.taken, packets := ps ++ t.packets }

@[simp] theorem demux_after (t : Transcript) (n : Nat) (ps : List Packet) :
    (t.after n ps).demux = t.demux := rfl

@[simp] theorem taken_after (t : Transcript) (n : Nat) (ps : List Packet) :
    (t.after n ps).taken = n + t.taken := rfl

@[simp] theorem packets_after (t : Transcript) (n : Nat) (ps : List Packet) :
    (t.after n ps).packets = ps ++ t.packets := rfl

@[simp] theorem ending_after (t : Transcript) (n : Nat) (ps : List Packet) :
    (t.after n ps).ending = t.ending := rfl

@[simp] theorem after_zero (t : Transcript) : t.after 0 [] = t := by
  simp [after]

theorem after_after (t : Transcript) (m n : Nat) (ps qs : List Packet) :
    (t.after n qs).after m ps = t.after (m + n) (ps ++ qs) := by
  simp only [after, Nat.add_assoc, List.append_assoc]

end Transcript

namespace Demux

/-! ### The driver -/

section Driver

variable (react : Packet → Demux → Demux)

/-- Call `parse` on a slice until it is used up. Each message that comes out is reacted to before
the next call. -/
def drain (d : Demux) (slice : List UInt8) : Transcript :=
  if _hs : slice = [] then ⟨d, 0, [], .usedUp⟩
  else
    let r := d.parse slice
    match _h : r.event with
    | .packet p =>
      ((react p r.demux).drain (slice.drop r.consumed)).after r.consumed [p]
    | event => ⟨r.demux, r.consumed, [], event.ending⟩
termination_by slice.length
decreasing_by
  -- a call that hands over a message takes a byte
  have hpos := List.length_pos_iff.2 _hs
  have hlive : (d.parse slice).event ≠ .stalled := fun hstall =>
    Event.noConfusion (_h.symm.trans hstall)
  have htaken := consumed_parse_pos _hs hlive
  rw [List.length_drop]
  omega

/-- Use up slices one after the other, up to the first that cannot be used up. -/
def drainAll (d : Demux) : List (List UInt8) → Transcript
  | [] => ⟨d, 0, [], .usedUp⟩
  | slice :: rest =>
    let t := d.drain react slice
    match t.ending with
    | .usedUp => (t.demux.drainAll rest).after t.taken t.packets
    | _ => t

/-- The transcript of bytes, taken one by one. -/
def scan (d : Demux) : List UInt8 → Transcript
  | [] => ⟨d, 0, [], .usedUp⟩
  | b :: rest =>
    match d.step b with
    | (d, .quiet) => (scan d rest).after 1 []
    | (d, .packet p) => (scan (react p d) rest).after 1 [p]
    | (d, .fault f) => ⟨d, 1, [], .fault f⟩
    | (d, .stalled) => ⟨d, 0, [], .stalled⟩

/-- The driver leaves a machine between two chunks where it is. -/
def Gentle : Prop :=
  ∀ p d, d.Idle → (react p d).Idle

end Driver

/-- What a driver does that only collects messages. -/
def collect (_ : Packet) (d : Demux) : Demux := d

theorem gentle_collect : Gentle collect :=
  fun _ _ h => h

/-! ### Slices and bytes -/

section Driver

variable {react : Packet → Demux → Demux}

theorem drain_nil (d : Demux) : d.drain react [] = ⟨d, 0, [], .usedUp⟩ := by
  unfold drain
  rw [dif_pos rfl]

/-- A message is reacted to, and the rest of the slice is drained. -/
theorem drain_of_packet {d : Demux} {slice : List UInt8} (hs : slice ≠ []) {p : Packet}
    (he : (d.parse slice).event = .packet p) :
    d.drain react slice = ((react p (d.parse slice).demux).drain react
      (slice.drop (d.parse slice).consumed)).after (d.parse slice).consumed [p] := by
  -- only the left side is opened, which drains from the start
  conv_lhs => unfold drain
  rw [dif_neg hs]
  dsimp only
  split
  · rename_i h
    rw [he] at h
    rw [Event.packet.inj h]
  · rename_i hne
    exact absurd he (hne p)

/-- A call without a message is the last one on a slice. -/
theorem drain_of_ne {d : Demux} {slice : List UInt8} (hs : slice ≠ [])
    (he : ∀ p, (d.parse slice).event ≠ .packet p) :
    d.drain react slice =
      ⟨(d.parse slice).demux, (d.parse slice).consumed, [], (d.parse slice).event.ending⟩ := by
  unfold drain
  rw [dif_neg hs]
  dsimp only
  split
  · rename_i p h
    exact absurd h (he p)
  · rfl

/-- A byte that brings nothing leaves the rest to be drained. -/
theorem Sound.drain_cons_quiet {d d' : Demux} (h : d.Sound) {b : UInt8}
    (hb : d.step b = (d', .quiet)) (rest : List UInt8) :
    d.drain react (b :: rest) = (d'.drain react rest).after 1 [] := by
  have hs := List.cons_ne_nil b rest
  have hparse := h.parse_cons_quiet hb rest
  -- a slice of one byte is used up by it
  by_cases hrest : rest = []
  · rw [hrest, parse_nil] at hparse
    rw [hrest] at hs ⊢
    rw [drain_nil, drain_of_ne hs (by rw [hparse]; exact fun _ => Event.noConfusion), hparse]
    rfl
  -- the call goes on in `rest`, and whatever ends it there ends it here
  by_cases he : ∃ p, (d'.parse rest).event = .packet p
  · obtain ⟨p, he⟩ := he
    rw [drain_of_packet hrest he, drain_of_packet hs (by rw [hparse]; exact he), hparse,
      Reading.consumed_after, Reading.demux_after, Nat.add_comm 1, List.drop_succ_cons,
      Transcript.after_after, List.nil_append, Nat.add_comm 1]
  · have hne : ∀ p, (d'.parse rest).event ≠ .packet p := fun p hp => he ⟨p, hp⟩
    rw [drain_of_ne hrest hne, drain_of_ne hs (by rw [hparse]; exact hne), hparse]
    rfl

/-- Draining a slice is taking its bytes. -/
theorem Sound.drain_eq_scan {d : Demux} (h : d.Sound) (hreact : Gentle react)
    (slice : List UInt8) : d.drain react slice = d.scan react slice := by
  induction slice generalizing d with
  | nil => exact drain_nil d
  | cons b rest ih =>
    have hs := List.cons_ne_nil b rest
    have hnext := h.step b
    have hlive := h.step_ne_stalled b
    unfold Demux.scan
    rcases hstep : d.step b with ⟨d', ev⟩
    rw [hstep] at hnext hlive
    -- a byte that brings something ends the call
    have hparse : ev ≠ .quiet → d.parse (b :: rest) = .of 1 (d', ev) := by
      intro hev
      rw [h.parse_cons_of_ne (by rw [hstep]; exact hev), hstep]
    cases ev with
    | quiet => rw [h.drain_cons_quiet hstep, ih hnext]
    | packet p =>
      have hcall := hparse Event.noConfusion
      -- the driver finds the machine between two chunks and leaves it there
      have hidle := hreact p d' (h.idle_of_packet hstep)
      rw [drain_of_packet hs (by rw [hcall]; rfl), hcall]
      exact congrArg (·.after 1 [p]) (ih hidle.1)
    | fault f =>
      have hcall := hparse Event.noConfusion
      rw [drain_of_ne hs (by rw [hcall]; exact fun _ => Event.noConfusion), hcall]
      rfl
    | stalled => exact absurd rfl hlive

/-- A transcript leaves a sound machine sound. -/
theorem Sound.scan {d : Demux} (h : d.Sound) (hreact : Gentle react) (bytes : List UInt8) :
    (d.scan react bytes).demux.Sound ∧ (d.scan react bytes).ending ≠ .stalled := by
  induction bytes generalizing d with
  | nil => exact ⟨h, Ending.noConfusion⟩
  | cons b rest ih =>
    -- by induction on the bytes, each of which keeps the invariant
    have hnext := h.step b
    have hlive := h.step_ne_stalled b
    unfold Demux.scan
    rcases hstep : d.step b with ⟨d', ev⟩
    rw [hstep] at hnext hlive
    cases ev with
    | quiet => exact ih hnext
    | packet p => exact ih (hreact p d' (h.idle_of_packet hstep)).1
    | fault f => exact ⟨hnext, Ending.noConfusion⟩
    | stalled => exact absurd rfl hlive

/-- Bytes in front of others: the others are read only if all of the first were taken. -/
theorem scan_append (react : Packet → Demux → Demux) (d : Demux) (xs ys : List UInt8) :
    d.scan react (xs ++ ys) =
      match (d.scan react xs).ending with
      | .usedUp =>
        ((d.scan react xs).demux.scan react ys).after (d.scan react xs).taken
          (d.scan react xs).packets
      | _ => d.scan react xs := by
  induction xs generalizing d with
  | nil => simp [scan]
  | cons b rest ih =>
    rw [List.cons_append, scan, scan]
    rcases d.step b with ⟨d', ev⟩
    -- a fault is the end also of what is behind
    cases ev with
    | quiet =>
      dsimp only
      rw [ih]
      cases h : (d'.scan react rest).ending <;> simp [h, Transcript.after_after]
    | packet p =>
      dsimp only
      rw [ih]
      cases h : ((react p d').scan react rest).ending <;> simp [h, Transcript.after_after]
    | fault f => rfl
    | stalled => rfl

/-- **The cut of the input is not visible** to a driver, whatever it does between messages. -/
theorem Sound.drainAll_eq_scan {d : Demux} (h : d.Sound) (hreact : Gentle react)
    (slices : List (List UInt8)) : d.drainAll react slices = d.scan react slices.flatten := by
  induction slices generalizing d with
  | nil => rfl
  | cons slice rest ih =>
    obtain ⟨hsound, hlive⟩ := h.scan hreact slice
    rw [List.flatten_cons, scan_append, drainAll, h.drain_eq_scan hreact]
    -- a sound machine never stalls, so the slice is used up or ends with a fault
    cases hending : (d.scan react slice).ending with
    | usedUp =>
      dsimp only
      rw [ih hsound]
    | fault f => rfl
    | stalled => exact absurd hending hlive

end Driver

/-! ### Feeding -/

/-- Feeding a slice is draining it. -/
theorem feedSlice_eq_drain (d : Demux) (slice : List UInt8) :
    (d.feedSlice slice).demux = (d.drain collect slice).demux ∧
      (d.feedSlice slice).packets = (d.drain collect slice).packets ∧
      (d.feedSlice slice).fault = (d.drain collect slice).ending.fault? := by
  fun_induction d.feedSlice slice with
  | case1 d =>
    rw [drain_nil]
    exact ⟨rfl, rfl, rfl⟩
  | case2 d slice hs r p he later ih =>
    obtain ⟨hdemux, hpackets, hfault⟩ := ih
    rw [drain_of_packet hs he]
    exact ⟨hdemux, congrArg (p :: ·) hpackets, hfault⟩
  -- the last call on the slice hands over nothing
  | case3 d slice hs r f he | case4 d slice hs r he | case5 d slice hs r he =>
    have hne : ∀ p, (d.parse slice).event ≠ .packet p := fun p hp =>
      Event.noConfusion (he.symm.trans hp)
    rw [drain_of_ne hs hne, show (d.parse slice).event = _ from he]
    exact ⟨rfl, rfl, rfl⟩

/-- Feeding slices is scanning their bytes. -/
theorem Sound.feed_eq_scan {d : Demux} (h : d.Sound) (slices : List (List UInt8)) :
    (d.feed slices).demux = (d.scan collect slices.flatten).demux ∧
      (d.feed slices).packets = (d.scan collect slices.flatten).packets ∧
      (d.feed slices).fault = (d.scan collect slices.flatten).ending.fault? := by
  induction slices generalizing d with
  | nil => exact ⟨rfl, rfl, rfl⟩
  | cons slice rest ih =>
    obtain ⟨hdemux, hpackets, hfault⟩ := feedSlice_eq_drain d slice
    obtain ⟨hsound, hlive⟩ := h.scan gentle_collect slice
    -- a slice that is fed is scanned
    rw [h.drain_eq_scan gentle_collect] at hdemux hpackets hfault
    rw [feed, List.flatten_cons, scan_append]
    dsimp only
    rw [hfault]
    cases hending : (d.scan collect slice).ending with
    | usedUp =>
      obtain ⟨hdemux', hpackets', hfault'⟩ := ih hsound
      dsimp only [Ending.fault?]
      rw [hdemux, hpackets, hpackets']
      exact ⟨hdemux', rfl, hfault'⟩
    | fault f =>
      dsimp only [Ending.fault?]
      exact ⟨hdemux, hpackets, by rw [hfault, hending]; rfl⟩
    | stalled => exact absurd hending hlive

/-! ### Slicing -/

/-- A machine that calls of `parse` lead to. Between calls its chunk size may change, and a message
may be given up while no payload of its chunk stream is being read. -/
inductive Reached : Demux → Prop
  | initial : Reached .initial
  | parse {d : Demux} (h : Reached d) (slice : List UInt8) : Reached (d.parse slice).demux
  | setChunkSize {d : Demux} (h : Reached d) (size : Nat) : Reached (d.setChunkSize size)
  | abort {d : Demux} (h : Reached d) {c : UInt32} (hstage : ∀ taken, d.stage ≠ .payload c taken) :
      Reached (d.abort c)

theorem Reached.sound {d : Demux} (h : d.Reached) : d.Sound := by
  induction h with
  | initial => exact Sound.initial
  | parse _ slice ih => exact (ih.parse slice).1
  | setChunkSize _ size ih => exact ih.setChunkSize size
  | abort _ hstage ih => exact ih.abort hstage

/-- **Slicing is not visible.** From every machine that is reached, two ways of cutting the same
bytes give the same transcript: the same messages, the same fault at the same byte if there is one,
and the same machine, whatever a gentle driver does to the machine between messages. `feed` answers
equally. Moreover every call on a byte takes one, and no call leaves a complete message behind. -/
theorem drainAll_slicing {react : Packet → Demux → Demux} (hreact : Gentle react) {d : Demux}
    (hd : d.Reached) {xs ys : List (List UInt8)} (h : xs.flatten = ys.flatten) :
    d.drainAll react xs = d.drainAll react ys ∧
      ((d.feed xs).packets = (d.feed ys).packets ∧ (d.feed xs).fault = (d.feed ys).fault ∧
        (d.feed xs).demux = (d.feed ys).demux) ∧
      (∀ slice, slice ≠ [] → 0 < (d.parse slice).consumed) ∧
      ∀ slice, ∀ e ∈ (d.parse slice).demux.streams, e.2.isComplete = false := by
  have hsound := hd.sound
  obtain ⟨hdemux, hpackets, hfault⟩ := hsound.feed_eq_scan xs
  obtain ⟨hdemux', hpackets', hfault'⟩ := hsound.feed_eq_scan ys
  rw [h] at hdemux hpackets hfault
  refine ⟨?_, ⟨hpackets.trans hpackets'.symm, hfault.trans hfault'.symm,
    hdemux.trans hdemux'.symm⟩, fun slice hs => ?_, fun slice => (hsound.parse slice).1.incomplete⟩
  · rw [hsound.drainAll_eq_scan hreact, hsound.drainAll_eq_scan hreact, h]
  · exact consumed_parse_pos hs (hsound.parse slice).2.1

/-- A message of two bytes on chunk stream 3, another one behind a header of format 3, and a header
that builds on nothing, read after two bytes: cut inside the message header and inside the payload,
or not at all. -/
theorem drainAll_slicing_two_messages :
    let d := (initial.parse [0x03, 0]).demux
    let xs := [[0, 10, 0, 0, 2, 8, 1, 0, 0, 0, 0xaf, 1, 0xc3, 0xaf, 2, 0x44, 0, 0, 0, 0, 0, 1, 8]]
    let ys := [[0, 10, 0, 0], [2, 8, 1, 0, 0, 0, 0xaf], [1, 0xc3], [0xaf, 2, 0x44, 0],
      [0, 0, 0, 0, 1, 8]]
    d.Reached ∧ xs.flatten = ys.flatten ∧ d.drainAll collect xs = d.drainAll collect ys ∧
      (d.feed xs).packets = (d.feed ys).packets ∧
      (d.feed ys).packets = [.ofPayload 10 8 1 3 [0xaf, 1], .ofPayload 10 8 1 3 [0xaf, 2]] ∧
      (d.feed ys).fault = some (.orphanHeader 1 4) := by
  intro d xs ys
  have hd : d.Reached := .parse .initial _
  have hflat : xs.flatten = ys.flatten := by decide
  obtain ⟨hdrain, hfeed, -⟩ := drainAll_slicing gentle_collect hd hflat
  exact ⟨hd, hflat, hdrain, hfeed.1, by decide +kernel, by decide +kernel⟩

end Demux

end LiveIngest.Chunk
