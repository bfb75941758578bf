import LiveIngest.Proofs.Chunk.Progress

/-!
# Headers that build on nothing

Which headers a machine reads can be told from its stage and its chunk size alone: `Demux.header?`
is the header that a byte completes, and `Demux.headers` are those that bytes complete, for a driver
that reacts to messages.

A header of format 0 opens its chunk stream. Headers are **orphaned** if one of another format names
a chunk stream that was not opened before it. The invariant `Framed hs d` ties the machine to the
headers `hs` that it has read: its chunk streams are those that were opened, and none of the headers
is orphaned.

Main statement: `Framed.step` — a byte is at fault exactly if it completes an orphaned header, and
every other byte keeps the invariant.
-/

namespace LiveIngest.Chunk

/-! ### Headers -/

/-- One of the headers opens the chunk stream. -/
def Opened (hs : List BasicHeader) (c : UInt32) : Prop :=
  ∃ h ∈ hs, h.chunkStream = c ∧ h.format = 0

/-- A header that opens nothing names a chunk stream that no header before it opened. -/
def Orphaned (hs : List BasicHeader) : Prop :=
  ∃ before h after, hs = before ++ h :: after ∧ h.format ≠ 0 ∧ ¬ Opened before h.chunkStream

theorem not_orphaned_nil : ¬ Orphaned [] := by
  rintro ⟨before, h, after, heq, -⟩
  exact List.append_ne_nil_of_right_ne_nil before (List.cons_ne_nil h after) heq.symm

/-- One more header opens a chunk stream if it has the format 0. -/
theorem opened_concat {hs : List BasicHeader} {h : BasicHeader} {c : UInt32} :
    Opened (hs ++ [h]) c ↔ (h.chunkStream = c ∧ h.format = 0) ∨ Opened hs c := by
  constructor
  · rintro ⟨g, hg, hopens⟩
    rcases List.mem_append.1 hg with hold | hnew
    · exact Or.inr ⟨g, hold, hopens⟩
    · rw [List.mem_singleton.1 hnew] at hopens
      exact Or.inl hopens
  · rintro (hopens | ⟨g, hg, hopens⟩)
    · exact ⟨h, List.mem_append_right hs (List.mem_singleton_self h), hopens⟩
    · exact ⟨g, List.mem_append_left [h] hg, hopens⟩

/-- Further headers do not make up for an orphaned one. -/
theorem Orphaned.append {hs : List BasicHeader} (h : Orphaned hs) (more : List BasicHeader) :
    Orphaned (hs ++ more) := by
  obtain ⟨before, g, after, rfl, hrest⟩ := h
  exact ⟨before, g, after ++ more, by rw [List.append_assoc, List.cons_append], hrest⟩

/-- One more header is an orphan if it builds on a chunk stream that was not opened. -/
theorem orphaned_concat {hs : List BasicHeader} {h : BasicHeader} (hhs : ¬ Orphaned hs) :
    Orphaned (hs ++ [h]) ↔ h.format ≠ 0 ∧ ¬ Opened hs h.chunkStream := by
  constructor
  · rintro ⟨before, g, after, heq, hg⟩
    -- the orphaned header is the last one, since those before it are none
    rcases List.eq_nil_or_concat after with rfl | ⟨front, last, rfl⟩
    · obtain ⟨rfl, hlast⟩ := List.append_inj' heq rfl
      obtain rfl := List.singleton_inj.1 hlast
      exact hg
    · have hsplit : hs ++ [h] = (before ++ g :: front) ++ [last] := by
        rw [heq, List.concat_eq_append, List.append_assoc, List.cons_append]
      exact absurd ⟨before, g, front, (List.append_inj' hsplit rfl).1, hg⟩ hhs
  · exact fun hg => ⟨hs, h, [], rfl, hg⟩

namespace Demux

/-- The basic header that stands for a whole header: no message header follows it. -/
def bareHeader? (seen : List UInt8) : Option BasicHeader :=
  if seen.length < basicNeed seen ∨ messageHeaderLength (BasicHeader.decode seen).format ≠ 0
  then none
  else some (.decode seen)

/-- The header that a byte completes, with an extended timestamp if it has one. -/
def header? (d : Demux) (b : UInt8) : Option BasicHeader :=
  match d.stage with
  | .basicHeader seen => bareHeader? (seen ++ [b])
  | .messageHeader basic seen =>
    if (seen ++ [b]).length < messageHeaderLength basic.format ∨
      (MessageHeader.decode basic.format (seen ++ [b])).isExtended
    then none
    else some basic
  | .extendedTimestamp chunkStream h seen =>
    if (seen ++ [b]).length < 4 then none else some ⟨h.format, chunkStream⟩
  | .payload _ taken => if d.chunkSize ≤ taken then bareHeader? [b] else none
  | .broken _ _ => none

section Driver

variable (react : Packet → Demux → Demux)

/-- Take a byte, and react to the message that it may complete. -/
def follow (d : Demux) (b : UInt8) : Demux :=
  match d.step b with
  | (d, .packet p) => react p d
  | (d, _) => d

/-- Behind a packet, the reader goes on as it is told. -/
theorem follow_of_packet {d d' : Demux} {b : UInt8} {p : Packet}
    (h : d.step b = (d', .packet p)) : d.follow react b = react p d' := by
  unfold follow
  rw [h]

theorem follow_of_quiet {d d' : Demux} {b : UInt8} (h : d.step b = (d', .quiet)) :
    d.follow react b = d' := by
  unfold follow
  rw [h]

/-- The headers that bytes complete. -/
def headers (d : Demux) : List UInt8 → List BasicHeader
  | [] => []
  | b :: rest => (d.header? b).toList ++ (d.follow react b).headers rest

/-- The headers of a longer input are those of its parts. -/
theorem headers_append (d : Demux) (xs ys : List UInt8) :
    d.headers react (xs ++ ys) =
      d.headers react xs ++ (xs.foldl (follow react) d).headers react ys := by
  induction xs generalizing d with
  | nil => rfl
  | cons b rest ih =>
    rw [List.cons_append, headers, headers, ih, List.append_assoc, List.foldl_cons]

theorem headers_singleton (d : Demux) (b : UInt8) :
    d.headers react [b] = (d.header? b).toList :=
  List.append_nil _

end Driver

/-! ### What a byte completes -/

/-- What a byte does to a machine that has not lost framing, told with the header that the byte
completes. -/
inductive Completes (d : Demux) : Option BasicHeader → Demux × Event → Prop
  | goOn {stage : Stage} (h : ∀ phase again, stage ≠ .broken phase again) :
      Completes d none ({ d with stage }, .quiet)
  | payload {c : UInt32} {a : Assembly} (h : d.streams.get? c = some a) (a' : Assembly)
      (taken : Nat) : Completes d none (d.settle c a' taken)
  | header {h : BasicHeader} (hopen : h.format = 0 ∨ (d.streams.get? h.chunkStream).isSome)
      (a : Assembly) : Completes d (some h) (d.settle h.chunkStream a 0)
  | orphan {h : BasicHeader} (hformat : h.format ≠ 0)
      (hnone : d.streams.get? h.chunkStream = none) (phase : Phase) (again f : Fault) :
      Completes d (some h) ({ d with stage := .broken phase again }, .fault f)

/-- With its message header, a basic header is complete. -/
theorem Completes.onMessageHeader (d : Demux) (c : UInt32) (h : MessageHeader)
    (timestamp : UInt32) (phase : Phase) (again : Fault) :
    d.Completes (some ⟨h.format, c⟩) (d.onMessageHeader c h timestamp phase again) := by
  unfold Demux.onMessageHeader
  cases hget : d.streams.get? c with
  | some a => exact .header (h := ⟨h.format, c⟩) (Or.inr (by simp [hget])) _
  | none =>
    dsimp only
    split
    · rename_i hformat
      exact .header (h := ⟨h.format, c⟩) (Or.inl hformat) _
    · rename_i hformat
      exact .orphan (h := ⟨h.format, c⟩) hformat hget phase again _

/-- With its fields, it is so unless an extended timestamp follows. -/
theorem Completes.onFields (d : Demux) (basic : BasicHeader) {h : MessageHeader}
    (hformat : h.format = basic.format) :
    d.Completes (if h.isExtended then none else some basic) (d.onFields basic h) := by
  unfold Demux.onFields
  split
  · exact .goOn fun _ _ he => Stage.noConfusion he
  · have hbasic : basic = ⟨h.format, basic.chunkStream⟩ := by rw [hformat]
    have hdone := Completes.onMessageHeader d basic.chunkStream h h.timestamp .messageHeader
      (.orphanHeader basic.format basic.chunkStream)
    rwa [← hbasic] at hdone

/-- A header without a message header is complete; any other goes on. -/
theorem Completes.onBasicHeader (d : Demux) (basic : BasicHeader) :
    d.Completes (if messageHeaderLength basic.format ≠ 0 then none else some basic)
      (d.onBasicHeader basic) := by
  unfold Demux.onBasicHeader
  by_cases hlength : messageHeaderLength basic.format = 0
  · rw [if_pos hlength, if_neg (not_not_intro hlength)]
    -- format 0 has a message header
    have hformat : basic.format ≠ 0 := by
      intro hzero
      rw [hzero] at hlength
      exact absurd hlength (by decide)
    cases hget : d.streams.get? basic.chunkStream with
    | some a => exact .header (Or.inr (by simp [hget])) _
    | none => exact .orphan hformat hget _ _ _
  · rw [if_neg hlength, if_pos hlength]
    exact .goOn fun _ _ he => Stage.noConfusion he

/-- Without a message header, it is so at once. -/
theorem Completes.stepBasicHeader (d : Demux) (seen : List UInt8) (b : UInt8) :
    d.Completes (bareHeader? (seen ++ [b])) (d.stepBasicHeader seen b) := by
  unfold Demux.stepBasicHeader stepField bareHeader?
  dsimp only
  by_cases hless : (seen ++ [b]).length < basicNeed (seen ++ [b])
  · rw [if_pos hless, if_pos (Or.inl hless)]
    exact .goOn fun _ _ he => Stage.noConfusion he
  · rw [if_neg hless]
    simp only [hless, false_or]
    exact .onBasicHeader d _

/-- **What a byte completes**, whatever the byte is. -/
theorem Sound.completes_step {d : Demux} (h : d.Sound)
    (hstage : ∀ phase again, d.stage ≠ .broken phase again) (b : UInt8) :
    d.Completes (d.header? b) (d.step b) := by
  unfold Demux.step Demux.header?
  cases hd : d.stage with
  | basicHeader seen => exact .stepBasicHeader d seen b
  | messageHeader basic seen =>
    unfold stepField
    dsimp only
    by_cases hless : (seen ++ [b]).length < messageHeaderLength basic.format
    · rw [if_pos hless, if_pos (Or.inl hless)]
      exact .goOn fun _ _ he => Stage.noConfusion he
    · rw [if_neg hless]
      simp only [hless, false_or]
      exact .onFields d basic rfl
  | extendedTimestamp chunkStream fields seen =>
    unfold stepField
    dsimp only
    by_cases hless : (seen ++ [b]).length < 4
    · rw [if_pos hless, if_pos hless]
      exact .goOn fun _ _ he => Stage.noConfusion he
    · rw [if_neg hless, if_neg hless]
      exact .onMessageHeader d chunkStream fields _ _ _
  | payload c taken =>
    -- the invariant gives an assembly that misses bytes
    obtain ⟨a, hget, -, hmissing⟩ := h.underWay c taken hd
    dsimp only
    by_cases hfull : d.chunkSize ≤ taken
    · rw [if_pos hfull, if_pos hfull]
      exact .stepBasicHeader d [] b
    · rw [if_neg hfull, if_neg hfull, hget]
      dsimp only
      rw [if_neg hmissing]
      exact .payload hget _ _
  | broken phase again => exact absurd hd (hstage phase again)

/-! ### The invariant -/

/-- The machine has read the headers `hs`: its chunk streams are those that were opened, and none of
the headers is orphaned. -/
structure Framed (hs : List BasicHeader) (d : Demux) : Prop where
  sound : d.Sound
  unbroken : ∀ phase again, d.stage ≠ .broken phase again
  opened : ∀ c, (d.streams.get? c).isSome ↔ Opened hs c
  notOrphaned : ¬ Orphaned hs

theorem Framed.initial : Framed [] .initial where
  sound := .initial
  unbroken := fun _ _ he => Stage.noConfusion he
  opened := by
    intro c
    have hnone : ¬ Opened [] c := fun ⟨_, hmem, _⟩ => List.not_mem_nil hmem
    exact ⟨fun h => absurd h Bool.false_ne_true, fun h => absurd h hnone⟩
  notOrphaned := not_orphaned_nil

/-- A machine that keeps its chunk streams and its framing keeps what it has read. -/
theorem Framed.congr {hs : List BasicHeader} {d d' : Demux} (h : Framed hs d) (hsound : d'.Sound)
    (hstage : d'.stage = d.stage)
    (hstreams : ∀ c, (d'.streams.get? c).isSome = (d.streams.get? c).isSome) : Framed hs d' where
  sound := hsound
  unbroken := by
    rw [hstage]
    exact h.unbroken
  opened := by
    intro c
    rw [hstreams]
    exact h.opened c
  notOrphaned := h.notOrphaned

theorem Framed.setChunkSize {hs : List BasicHeader} {d : Demux} (h : Framed hs d) (size : Nat) :
    Framed hs (d.setChunkSize size) :=
  h.congr (h.sound.setChunkSize size) rfl fun _ => rfl

/-- A message is given up between two chunks. -/
theorem Framed.abort {hs : List BasicHeader} {d : Demux} (h : Framed hs d) (hidle : d.Idle)
    (c : UInt32) : Framed hs (d.abort c) := by
  have hsound := (hidle.abort c).1
  unfold Demux.abort at hsound ⊢
  cases hget : d.streams.get? c with
  | none => exact h
  | some a =>
    rw [hget] at hsound
    -- a message is cleared where it stands, so the chunk streams that are known stay the same
    refine h.congr hsound rfl fun c' => ?_
    show (Keyed.get? c' (d.streams.put c a.clear)).isSome = _
    rw [Keyed.get?_put]
    split
    · rename_i hsame
      rw [hsame, hget]
      rfl
    · rfl

/-- Settling a chunk stream opens it, and no other one. -/
theorem isSome_settle (d : Demux) (c : UInt32) (a : Assembly) (taken : Nat) (c' : UInt32) :
    ((d.settle c a taken).1.streams.get? c').isSome ↔ c = c' ∨ (d.streams.get? c').isSome := by
  have hput : ∀ a' : Assembly,
      (Keyed.get? c' (d.streams.put c a')).isSome ↔ c = c' ∨ (d.streams.get? c').isSome := by
    intro a'
    rw [Keyed.get?_put]
    by_cases hsame : c' = c
    · rw [if_pos hsame]
      exact ⟨fun _ => Or.inl hsame.symm, fun _ => rfl⟩
    · rw [if_neg hsame]
      exact ⟨Or.inr, fun h => h.resolve_left (Ne.symm hsame)⟩
  unfold settle
  split
  · exact hput _
  · exact hput _

/-- Putting back a chunk stream is not at fault, and framing is not lost. -/
theorem unbroken_settle (d : Demux) (c : UInt32) (a : Assembly) (taken : Nat) :
    (∀ phase again, (d.settle c a taken).1.stage ≠ .broken phase again) ∧
      ∀ f, (d.settle c a taken).2 ≠ .fault f := by
  unfold settle
  split
  · exact ⟨fun _ _ => Stage.noConfusion, fun _ => Event.noConfusion⟩
  · refine ⟨fun phase again => ?_, fun _ => Event.noConfusion⟩
    dsimp only
    split <;> exact Stage.noConfusion

/-- **A byte is at fault exactly if it completes an orphaned header.** Every other byte leads to a
machine that has read the header, if the byte completes one. -/
theorem Framed.step {hs : List BasicHeader} {d : Demux} (h : Framed hs d) (b : UInt8) :
    ((∃ f, (d.step b).2 = .fault f) ∧ Orphaned (hs ++ (d.header? b).toList)) ∨
      ((∀ f, (d.step b).2 ≠ .fault f) ∧ Framed (hs ++ (d.header? b).toList) (d.step b).1) := by
  have hsound := h.sound.step b
  have hdone := h.sound.completes_step h.unbroken b
  revert hsound hdone
  generalize d.step b = out, d.header? b = completed
  intro hsound hdone
  cases hdone with
  | goOn hstage =>
    refine Or.inr ⟨fun _ => Event.noConfusion, ?_⟩
    rw [Option.toList_none, List.append_nil]
    exact ⟨hsound, hstage, h.opened, h.notOrphaned⟩
  | @payload c a hget a' taken =>
    obtain ⟨hunbroken, hevent⟩ := unbroken_settle d c a' taken
    refine Or.inr ⟨hevent, ?_⟩
    rw [Option.toList_none, List.append_nil]
    refine ⟨hsound, hunbroken, fun c' => ?_, h.notOrphaned⟩
    -- the chunk stream was there before
    rw [isSome_settle, ← h.opened]
    refine ⟨?_, Or.inr⟩
    rintro (rfl | hthere)
    · rw [hget]
      rfl
    · exact hthere
  | @header g hopen a =>
    obtain ⟨hunbroken, hevent⟩ := unbroken_settle d g.chunkStream a 0
    refine Or.inr ⟨hevent, hsound, hunbroken, fun c' => ?_, ?_⟩
    · rw [Option.toList_some, opened_concat, isSome_settle, h.opened]
      refine ⟨?_, Or.imp_left And.left⟩
      rintro (rfl | hthere)
      · refine hopen.imp (fun hzero => ⟨rfl, hzero⟩) fun hthere => ?_
        exact (h.opened _).1 hthere
      · exact Or.inr hthere
    · rw [Option.toList_some, orphaned_concat h.notOrphaned, ← h.opened]
      rintro ⟨hformat, hnot⟩
      exact hopen.elim hformat hnot
  | orphan hformat hnone phase again f =>
    refine Or.inl ⟨⟨f, rfl⟩, ?_⟩
    rw [Option.toList_some, orphaned_concat h.notOrphaned, ← h.opened, hnone]
    exact ⟨hformat, Bool.false_ne_true⟩

end Demux

end LiveIngest.Chunk
