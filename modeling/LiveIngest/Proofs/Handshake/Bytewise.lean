import LiveIngest.Handshake.Machine

/-!
# The handshake byte by byte

What the handshake does, told one byte at a time: `Machine.step`. Reading a slice does what its
first byte does, and then what reading the others does from there (`parse_cons_ok`), so that the cut
of the input does not matter.

A machine is **sound** if it is in the middle of a packet only while bytes of the packet miss. This
is the invariant of every machine that was read with.
-/

namespace LiveIngest.Handshake.Machine

/-- Take one byte at a wall clock time. Returns the machine and what to send. -/
def step (crypto : Crypto) (wall : Nat) (m : Machine) (b : UInt8) :
    Except Fault (Machine × List UInt8) :=
  match m.stage with
  | .c0 =>
    if b = version then .ok ({ m with stage := .c1 packetSize [] }, [])
    else .error (.unsupportedVersion b version)
  | .c1 missing seen =>
    if missing ≤ 1 then
      let (format, bytes) := reply crypto wall (b :: seen).reverse
      .ok (⟨.c2 packetSize, format⟩, bytes)
    else .ok ({ m with stage := .c1 (missing - 1) (b :: seen) }, [])
  | .c2 missing =>
    .ok ({ m with stage := if missing ≤ 1 then .done else .c2 (missing - 1) }, [])
  | .done => .ok (m, [])

/-- In the middle of a packet, bytes of it miss. -/
def Sound (m : Machine) : Prop :=
  match m.stage with
  | .c1 missing _ | .c2 missing => 0 < missing
  | .c0 | .done => True

theorem Sound.initial : Sound .initial := trivial

variable {crypto : Crypto} {wall : Nat}

/-! ### Reading nothing -/

/-- A handshake that is done takes nothing more. -/
theorem parse_of_isDone {m : Machine} (h : m.isDone = true) (slice : List UInt8) :
    m.parse crypto wall slice = ⟨m, 0, [], none⟩ := by
  obtain ⟨stage, format⟩ := m
  cases stage with
  | done => rfl
  | _ => exact absurd h Bool.false_ne_true

/-- Nothing comes of no bytes. -/
theorem parse_nil {m : Machine} (h : m.Sound) :
    m.parse crypto wall [] = ⟨m, 0, [], none⟩ := by
  obtain ⟨stage, format⟩ := m
  cases stage with
  | c0 => rfl
  -- in a packet that misses bytes, no byte brings nothing
  | c1 missing seen =>
    have hpos : 0 < missing := h
    show parseC1 crypto wall ⟨.c1 missing seen, format⟩ missing seen [] = _
    unfold parseC1
    rw [List.take_nil]
    dsimp only [List.length_nil]
    rw [if_pos hpos]
    rfl
  | c2 missing =>
    have hpos : 0 < missing := h
    show parseC2 ⟨.c2 missing, format⟩ missing [] = _
    unfold parseC2
    dsimp only
    rw [List.length_nil, Nat.min_zero, if_pos hpos]
    rfl
  | done => rfl

/-! ### Reading a byte -/

/-- A fault of the first byte is the fault of the slice, and nothing was read. -/
theorem parse_cons_error {m : Machine} {b : UInt8} {f : Fault}
    (hb : m.step crypto wall b = .error f) (rest : List UInt8) :
    m.parse crypto wall (b :: rest) = ⟨m, 0, [], some f⟩ := by
  obtain ⟨stage, format⟩ := m
  -- only the first byte can be refused
  cases stage with
  | c0 =>
    unfold step at hb
    dsimp only at hb
    by_cases hversion : b = version
    · rw [if_pos hversion] at hb
      cases hb
    · rw [if_neg hversion] at hb
      rw [← Except.error.inj hb]
      show parseC0 crypto wall _ (b :: rest) = _
      unfold parseC0
      dsimp only
      rw [if_neg hversion]
  | c1 missing seen =>
    unfold step at hb
    dsimp only at hb
    split at hb
    · cases hb
    · cases hb
  | c2 missing => cases hb
  | done => cases hb

/-- A byte of C1 that is not the last one joins those seen. -/
theorem parseC1_cons (m : Machine) {k : Nat} (seen : List UInt8) (b : UInt8) (rest : List UInt8) :
    parseC1 crypto wall m (k + 1) seen (b :: rest) =
      (parseC1 crypto wall { m with stage := .c1 k (b :: seen) } k (b :: seen) rest).after
        1 [] := by
  unfold parseC1
  simp only [List.take_succ_cons, List.reverse_cons, List.append_assoc, List.singleton_append,
    List.length_cons, List.drop_succ_cons, Nat.add_lt_add_iff_right, Nat.add_sub_add_right]
  split
  · simp only [Reading.after, List.nil_append, Nat.add_comm 1]
  · simp only [Reading.after, List.nil_append, Nat.add_assoc, Nat.add_comm 1]

theorem parseC2_cons (m : Machine) {k : Nat} (b : UInt8) (rest : List UInt8) :
    parseC2 m (k + 1) (b :: rest) = (parseC2 m k rest).after 1 [] := by
  unfold parseC2
  simp only [Reading.after, List.length_cons, Nat.add_min_add_right, Nat.add_lt_add_iff_right,
    Nat.add_sub_add_right, Nat.add_comm 1, List.append_nil]

/-- **Reading goes on behind the first byte**, in whatever packet that byte was. -/
theorem parse_cons_ok {m m' : Machine} (h : m.Sound) (hdone : m.isDone = false) {b : UInt8}
    {bytes : List UInt8} (hb : m.step crypto wall b = .ok (m', bytes)) (rest : List UInt8) :
    m.parse crypto wall (b :: rest) = (m'.parse crypto wall rest).after 1 bytes := by
  obtain ⟨stage, format⟩ := m
  cases stage with
  | c0 =>
    unfold step at hb
    dsimp only at hb
    by_cases hversion : b = version
    · -- C1 follows, of which nothing was seen
      rw [if_pos hversion] at hb
      obtain ⟨rfl, rfl⟩ := Prod.mk.inj (Except.ok.inj hb)
      show parseC0 crypto wall _ (b :: rest) = _
      unfold parseC0
      dsimp only
      rw [if_pos hversion]
      rfl
    · rw [if_neg hversion] at hb
      cases hb
  | c1 missing seen =>
    obtain ⟨k, rfl⟩ := Nat.exists_eq_succ_of_ne_zero (Nat.ne_of_gt h)
    unfold step at hb
    dsimp only at hb
    by_cases hlast : k + 1 ≤ 1
    · -- the last byte of C1: the answer goes out, and the others are of C2
      obtain rfl : k = 0 := by omega
      rw [if_pos hlast] at hb
      obtain ⟨rfl, rfl⟩ := Prod.mk.inj (Except.ok.inj hb)
      rfl
    · rw [if_neg hlast] at hb
      obtain ⟨rfl, rfl⟩ := Prod.mk.inj (Except.ok.inj hb)
      exact parseC1_cons _ seen b rest
  | c2 missing =>
    obtain ⟨k, rfl⟩ := Nat.exists_eq_succ_of_ne_zero (Nat.ne_of_gt h)
    obtain ⟨rfl, rfl⟩ := Prod.mk.inj (Except.ok.inj hb)
    show parseC2 _ (k + 1) (b :: rest) = _
    rw [parseC2_cons]
    by_cases hlast : k + 1 ≤ 1
    · -- the last byte of C2: nothing is taken of the others
      obtain rfl : k = 0 := by omega
      rw [if_pos hlast, parse_of_isDone rfl]
      unfold parseC2
      rw [Nat.zero_min]
      rfl
    · rw [if_neg hlast]
      rfl
  | done => exact absurd hdone Bool.false_ne_true.symm

/-- Only the first byte of all can be at fault. -/
theorem fault_parse {m : Machine} (h : m.stage ≠ .c0) (slice : List UInt8) :
    (m.parse crypto wall slice).fault = none := by
  obtain ⟨stage, format⟩ := m
  cases stage with
  | c0 => exact absurd rfl h
  | c1 missing seen =>
    show (parseC1 crypto wall _ missing seen slice).fault = none
    unfold parseC1
    dsimp only
    split
    · rfl
    · rfl
  | c2 missing => rfl
  | done => rfl

/-! ### The invariant -/

/-- **A byte leads to a sound machine**, and never back to the beginning. -/
theorem sound_of_step {m m' : Machine} {b : UInt8} {bytes : List UInt8}
    (hb : m.step crypto wall b = .ok (m', bytes)) : m'.Sound ∧ m'.stage ≠ .c0 := by
  have hpacket : 0 < packetSize := by decide
  obtain ⟨stage, format⟩ := m
  cases stage with
  | c0 =>
    unfold step at hb
    dsimp only at hb
    split at hb
    · obtain ⟨rfl, -⟩ := Prod.mk.inj (Except.ok.inj hb)
      exact ⟨hpacket, Stage.noConfusion⟩
    · cases hb
  | c1 missing seen =>
    unfold step at hb
    dsimp only at hb
    split at hb
    · obtain ⟨rfl, -⟩ := Prod.mk.inj (Except.ok.inj hb)
      exact ⟨hpacket, Stage.noConfusion⟩
    · -- some of the packet is still missing
      rename_i hmore
      obtain ⟨rfl, -⟩ := Prod.mk.inj (Except.ok.inj hb)
      exact ⟨Nat.sub_pos_of_lt (Nat.not_le.1 hmore), Stage.noConfusion⟩
  | c2 missing =>
    obtain ⟨rfl, -⟩ := Prod.mk.inj (Except.ok.inj hb)
    by_cases hlast : missing ≤ 1
    · rw [if_pos hlast]
      exact ⟨trivial, Stage.noConfusion⟩
    · rw [if_neg hlast]
      exact ⟨Nat.sub_pos_of_lt (Nat.not_le.1 hlast), Stage.noConfusion⟩
  | done =>
    obtain ⟨rfl, -⟩ := Prod.mk.inj (Except.ok.inj hb)
    exact ⟨trivial, Stage.noConfusion⟩

/-- **Reading keeps the invariant**, and takes a byte if it finds no fault. -/
theorem Sound.parse {m : Machine} (h : m.Sound) (slice : List UInt8) :
    (m.parse crypto wall slice).machine.Sound ∧
      (m.parse crypto wall slice).consumed ≤ slice.length ∧
      (slice ≠ [] → m.isDone = false → (m.parse crypto wall slice).fault = none →
        0 < (m.parse crypto wall slice).consumed) := by
  induction slice generalizing m with
  | nil =>
    rw [parse_nil h]
    exact ⟨h, Nat.le_refl 0, fun hs => absurd rfl hs⟩
  | cons b rest ih =>
    by_cases hdone : m.isDone = true
    · rw [parse_of_isDone hdone]
      exact ⟨h, Nat.zero_le _, fun _ hnot => absurd (hdone.symm.trans hnot) (by decide)⟩
    -- by induction on the slice: the first byte is at fault, or reading goes on behind it
    have hnot := Bool.eq_false_iff.2 hdone
    cases hb : m.step crypto wall b with
    | error f =>
      rw [parse_cons_error hb]
      exact ⟨h, Nat.zero_le _, fun _ _ hf => absurd hf (Option.some_ne_none f)⟩
    | ok out =>
      obtain ⟨m', bytes⟩ := out
      obtain ⟨hsound, hle, -⟩ := ih (sound_of_step hb).1
      rw [parse_cons_ok h hnot hb]
      refine ⟨hsound, ?_, fun _ _ _ => Nat.lt_of_lt_of_le Nat.one_pos (Nat.le_add_right _ _)⟩
      show 1 + (m'.parse crypto wall rest).consumed ≤ rest.length + 1
      rw [Nat.add_comm 1]
      exact Nat.succ_le_succ hle

/-! ### What is left of the handshake -/

/-- How many bytes the handshake still misses. -/
def left (m : Machine) : Nat :=
  match m.stage with
  | .c0 => 1 + 2 * packetSize
  | .c1 missing _ => missing + packetSize
  | .c2 missing => missing
  | .done => 0

/-- Nothing is left to read exactly if the handshake is done. -/
theorem Sound.left_eq_zero_iff {m : Machine} (h : m.Sound) : m.left = 0 ↔ m.isDone = true := by
  have hpacket : 0 < packetSize := by decide
  obtain ⟨stage, format⟩ := m
  cases stage with
  | c0 =>
    have hleft : left ⟨.c0, format⟩ ≠ 0 := Nat.ne_of_gt (Nat.add_pos_left Nat.one_pos _)
    exact ⟨fun hzero => absurd hzero hleft, fun hdone => absurd hdone Bool.false_ne_true⟩
  | c1 missing seen =>
    have hleft : left ⟨.c1 missing seen, format⟩ ≠ 0 := Nat.ne_of_gt (Nat.add_pos_right _ hpacket)
    exact ⟨fun hzero => absurd hzero hleft, fun hdone => absurd hdone Bool.false_ne_true⟩
  | c2 missing =>
    have hleft : left ⟨.c2 missing, format⟩ ≠ 0 := Nat.ne_of_gt h
    exact ⟨fun hzero => absurd hzero hleft, fun hdone => absurd hdone Bool.false_ne_true⟩
  | done => exact ⟨fun _ => rfl, fun _ => rfl⟩

/-- **Every byte counts**, until the handshake is done. -/
theorem Sound.left_of_step {m m' : Machine} (h : m.Sound) (hdone : m.isDone = false) {b : UInt8}
    {bytes : List UInt8} (hb : m.step crypto wall b = .ok (m', bytes)) : m'.left = m.left - 1 := by
  obtain ⟨stage, format⟩ := m
  -- each stage counts what it still misses and the packets behind it
  cases stage with
  | c0 =>
    unfold step at hb
    dsimp only at hb
    split at hb
    · obtain ⟨rfl, -⟩ := Prod.mk.inj (Except.ok.inj hb)
      show packetSize + packetSize = 1 + 2 * packetSize - 1
      omega
    · cases hb
  | c1 missing seen =>
    have hpos : 0 < missing := h
    unfold step at hb
    dsimp only at hb
    split at hb
    · obtain ⟨rfl, -⟩ := Prod.mk.inj (Except.ok.inj hb)
      show packetSize = missing + packetSize - 1
      omega
    · obtain ⟨rfl, -⟩ := Prod.mk.inj (Except.ok.inj hb)
      show missing - 1 + packetSize = missing + packetSize - 1
      omega
  | c2 missing =>
    obtain ⟨rfl, -⟩ := Prod.mk.inj (Except.ok.inj hb)
    by_cases hlast : missing ≤ 1
    · rw [if_pos hlast]
      show 0 = missing - 1
      omega
    · rw [if_neg hlast]
      rfl
  | done => exact absurd hdone Bool.false_ne_true.symm

/-- Only a first byte that is not the version is at fault. -/
theorem step_eq_error {m : Machine} {b : UInt8} {f : Fault}
    (hb : m.step crypto wall b = .error f) : m.stage = .c0 ∧ b ≠ version := by
  obtain ⟨stage, format⟩ := m
  -- behind the first byte all bytes are taken
  cases stage with
  | c0 =>
    refine ⟨rfl, fun hversion => ?_⟩
    unfold step at hb
    dsimp only at hb
    rw [if_pos hversion] at hb
    cases hb
  | c1 missing seen =>
    unfold step at hb
    dsimp only at hb
    split at hb <;> cases hb
  | c2 missing => cases hb
  | done => cases hb

/-- The first byte that is taken is the version. -/
theorem version_of_step {m : Machine} (hstage : m.stage = .c0) {b : UInt8}
    {out : Machine × List UInt8} (hb : m.step crypto wall b = .ok out) : b = version := by
  unfold step at hb
  rw [hstage] at hb
  dsimp only at hb
  split at hb
  · assumption
  · cases hb

end LiveIngest.Handshake.Machine
