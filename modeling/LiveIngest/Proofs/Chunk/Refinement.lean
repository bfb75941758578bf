import LiveIngest.Proofs.Chunk.Reading
import LiveIngest.Proofs.Chunk.Reference

/-!
# The byte machine reads chunks

The receiving machine takes bytes; the reference takes chunks. Between two chunks the two hold the
same: `Demux.records` reads the records off the machine's assemblies, and `Resting.reads_frame` says
that the bytes of a chunk do to the machine what the chunk does to the records, bringing nothing
before their last byte.

A chunk is followed through the machine part by part. `Reads` is reading bytes of which only the
last may bring something; `reads_field` collects the bytes of a header; `settle_reads` takes a
payload.

Main statement: `drainAll_frames` — a machine that is fed any chunks that may follow each other, cut
in any way, hands over the messages of the reference.
-/

namespace LiveIngest.Chunk

/-! ### Assemblies and records -/

namespace Assembly

/-- What an assembly knows, without the way it is kept. -/
def record (a : Assembly) : Record where
  timestamp := a.timestamp
  delta := a.delta
  length := a.length
  type := a.type
  streamId := a.streamId
  pending := if a.inProgress then some a.received.reverse else none

/-- The bytes received and the bytes missing make up the message under way. -/
def Balanced (a : Assembly) : Prop :=
  a.inProgress = true → a.received.length + a.missing = a.length

theorem balanced_start (a : Assembly) : a.start.Balanced :=
  fun _ => Nat.zero_add _

theorem balanced_clear (a : Assembly) : a.clear.Balanced :=
  fun h => absurd h (by simp)

theorem balanced_applyHeader (a : Assembly) (h : MessageHeader) (timestamp : UInt32) :
    (a.applyHeader h timestamp).Balanced := by
  unfold applyHeader
  split <;> exact balanced_start _

theorem balanced_continueOrRepeat {a : Assembly} (h : a.Balanced) :
    a.continueOrRepeat.Balanced := by
  unfold continueOrRepeat
  split
  · exact h
  · exact balanced_start _

@[simp] theorem chunkStream_applyHeader (a : Assembly) (h : MessageHeader) (timestamp : UInt32) :
    (a.applyHeader h timestamp).chunkStream = a.chunkStream := by
  unfold applyHeader
  split <;> rfl

@[simp] theorem chunkStream_continueOrRepeat (a : Assembly) :
    a.continueOrRepeat.chunkStream = a.chunkStream := by
  unfold continueOrRepeat
  split <;> rfl

/-- Adding bytes that are all missed. -/
theorem append_of_le {a : Assembly} {bytes : List UInt8} (h : bytes.length ≤ a.missing) :
    (a.append bytes).1 =
      { a with received := bytes.reverse ++ a.received, missing := a.missing - bytes.length } := by
  unfold append
  rw [List.take_of_length_le h]

theorem balanced_append {a : Assembly} (ha : a.Balanced) {bytes : List UInt8}
    (h : bytes.length ≤ a.missing) : (a.append bytes).1.Balanced := by
  intro hprogress
  have hsum := ha hprogress
  rw [append_of_le h]
  simp only [List.length_append, List.length_reverse]
  omega

/-- The record of a message under way misses what its assembly misses. -/
theorem missing_record (a : Assembly) (hprogress : a.inProgress = true) (ha : a.Balanced) :
    a.record.missing = a.missing := by
  have hsum := ha hprogress
  simp only [Record.missing, Record.soFar, record, hprogress, if_true, Option.getD_some,
    List.length_reverse]
  omega

theorem record_append {a : Assembly} (hprogress : a.inProgress = true) {bytes : List UInt8}
    (h : bytes.length ≤ a.missing) :
    (a.append bytes).1.record = { a.record with pending := some (a.record.soFar ++ bytes) } := by
  rw [append_of_le h]
  simp only [record, Record.soFar, hprogress, if_true, Option.getD_some, List.reverse_append,
    List.reverse_reverse]

/-- The assembly after the headers of a chunk; `a` is what the chunk stream had. -/
def open? (c : UInt32) (a : Option Assembly) (h : Heading) : Option Assembly :=
  match h.time?, a with
  | some time, some a => some (a.applyHeader h.header time.value)
  | some time, none =>
    if h.format = 0 then some ((fresh c).applyHeader h.header time.value) else none
  | none, some a => some a.continueOrRepeat
  | none, none => none

theorem record_continueOrRepeat (a : Assembly) :
    some a.continueOrRepeat.record = Record.open? (some a.record) .bare := by
  unfold continueOrRepeat
  -- the message under way goes on, or one that repeats every field starts
  by_cases h : a.inProgress = true
  · rw [if_pos h]
    simp only [Record.open?, Option.map_some, record, h, if_true]
  · rw [if_neg h]
    simp only [Record.open?, Option.map_some, record, h]
    rfl

/-- **What the headers of a chunk do to an assembly, they do to its record.** -/
theorem map_record_open? (c : UInt32) (a : Option Assembly) (h : Heading) :
    (open? c a h).map record = Record.open? (a.map record) h := by
  cases h with
  | full time length type streamId => cases a <;> rfl
  | sameStream time length type => cases a <;> rfl
  | sameKind time => cases a <;> rfl
  | bare =>
    cases a with
    | none => rfl
    | some a => exact record_continueOrRepeat a

/-- An opened assembly has a message under way and keeps what holds of the chunk stream. -/
theorem open?_spec {c : UInt32} {a : Option Assembly} {h : Heading} {b : Assembly}
    (hopen : open? c a h = some b)
    (ha : ∀ x, a = some x → x.chunkStream = c ∧ x.Balanced) :
    b.inProgress = true ∧ b.chunkStream = c ∧ b.Balanced := by
  unfold open? at hopen
  -- a heading with fields opens a message anew; one without goes on with what is there
  split at hopen
  · rename_i time x _
    obtain rfl := Option.some.inj hopen
    exact ⟨x.inProgress_applyHeader _ _, (x.chunkStream_applyHeader _ _).trans (ha x rfl).1,
      x.balanced_applyHeader _ _⟩
  · split at hopen
    · obtain rfl := Option.some.inj hopen
      exact ⟨inProgress_applyHeader _ _ _, chunkStream_applyHeader _ _ _,
        balanced_applyHeader _ _ _⟩
    · exact absurd hopen (by simp)
  · rename_i x _
    obtain rfl := Option.some.inj hopen
    exact ⟨x.inProgress_continueOrRepeat, x.chunkStream_continueOrRepeat.trans (ha x rfl).1,
      balanced_continueOrRepeat (ha x rfl).2⟩
  · exact absurd hopen (by simp)

end Assembly

/-! ### Reading parts of a chunk -/

namespace Demux

/-- Reading bytes of which only the last may bring something. -/
inductive Reads : Demux → List UInt8 → Demux × Event → Prop
  | last {d : Demux} {b : UInt8} {out : Demux × Event} (h : d.step b = out) : Reads d [b] out
  | quiet {d d' : Demux} {b : UInt8} {rest : List UInt8} {out : Demux × Event}
      (h : d.step b = (d', .quiet)) (hrest : Reads d' rest out) : Reads d (b :: rest) out

theorem Reads.append {d d' : Demux} {xs ys : List UInt8} {out : Demux × Event}
    (hx : Reads d xs (d', .quiet)) (hy : Reads d' ys out) : Reads d (xs ++ ys) out := by
  -- the induction needs an outcome that is a variable
  generalize hmid : (d', Event.quiet) = mid at hx
  induction hx with
  | last h =>
    subst hmid
    exact .quiet h hy
  | quiet h _ ih => exact .quiet h (ih hmid)

/-- Scanning bytes that bring nothing. -/
theorem Reads.scan_quiet {react : Packet → Demux → Demux} {d d' : Demux} {xs : List UInt8}
    (h : Reads d xs (d', .quiet)) (ys : List UInt8) :
    d.scan react (xs ++ ys) = (d'.scan react ys).after xs.length [] := by
  -- the induction keeps the outcome of the last byte
  generalize hout : (d', Event.quiet) = out at h
  induction h with
  | last h =>
    subst hout
    rw [List.singleton_append, scan, h]
    rfl
  | quiet h _ ih =>
    rw [List.cons_append, scan, h]
    dsimp only
    rw [ih hout, Transcript.after_after, List.length_cons, Nat.add_comm 1]
    rfl

/-- Scanning bytes that bring a message. -/
theorem Reads.scan_packet {react : Packet → Demux → Demux} {d d' : Demux} {xs : List UInt8}
    {p : Packet} (h : Reads d xs (d', .packet p)) (ys : List UInt8) :
    d.scan react (xs ++ ys) = ((react p d').scan react ys).after xs.length [p] := by
  -- as before, with the outcome of the last byte kept
  generalize hout : (d', Event.packet p) = out at h
  induction h with
  | last h =>
    subst hout
    rw [List.singleton_append, scan, h]
    rfl
  | quiet h _ ih =>
    rw [List.cons_append, scan, h]
    dsimp only
    rw [ih hout, Transcript.after_after, List.length_cons, Nat.add_comm 1]
    rfl

/-- **Collecting a field.** A stage that keeps the bytes it has seen until there are as many as
needed, and is done with them then, reads the bytes of its field. -/
theorem reads_field {d : Demux} (stage : List UInt8 → Stage) (need : List UInt8 → Nat)
    (done : List UInt8 → Demux × Event)
    (hstep : ∀ seen b, step { d with stage := stage seen } b =
      if (seen ++ [b]).length < need (seen ++ [b])
      then ({ d with stage := stage (seen ++ [b]) }, .quiet) else done (seen ++ [b]))
    {bytes : List UInt8} (hbytes : bytes ≠ [])
    (hneed : ∀ p, p ≠ [] → p <+: bytes → need p = bytes.length) :
    Reads { d with stage := stage [] } bytes (done bytes) := by
  -- by induction on the bytes still to come, for any bytes seen before
  suffices ∀ rest seen, seen ++ rest = bytes → rest ≠ [] →
      Reads { d with stage := stage seen } rest (done bytes) from this bytes [] rfl hbytes
  intro rest
  induction rest with
  | nil => exact fun _ _ h => absurd rfl h
  | cons b rest ih =>
    intro seen hsplit _
    have hmore : (seen ++ [b]) ++ rest = bytes := by rw [← hsplit, List.append_assoc]; rfl
    have hlength : (seen ++ [b]).length + rest.length = bytes.length := by
      rw [← List.length_append, hmore]
    have hb := hstep seen b
    -- what was seen is a prefix of the field, so it tells the size of the field
    rw [hneed (seen ++ [b]) (by simp) ⟨rest, hmore⟩] at hb
    rcases rest with _ | ⟨b', rest⟩
    · -- the last byte of the field
      rw [List.append_nil] at hmore
      rw [if_neg (by rw [hmore]; exact Nat.lt_irrefl _), hmore] at hb
      exact .last hb
    · rw [if_pos (by rw [← hlength, List.length_cons]; omega)] at hb
      exact .quiet hb (ih (seen ++ [b]) hmore (List.cons_ne_nil _ _))

/-- Reading a basic header. -/
theorem reads_basicHeader {d : Demux} (hrest : d.stage = .basicHeader []) {s : Spelling}
    {format : UInt8} (hformat : format < 4) {c : UInt32} (hc : s.Covers c) :
    Reads d (s.bytes format c) (d.onBasicHeader ⟨format, c⟩) := by
  -- the bytes are collected, and decoding them gives the header back
  have hfield : Reads { d with stage := .basicHeader [] } (s.bytes format c)
      (d.onBasicHeader (.decode (s.bytes format c))) := by
    refine reads_field (d := d) .basicHeader basicNeed
      (fun seen => d.onBasicHeader (.decode seen)) (fun _ _ => rfl) (s.bytes_ne_nil format c) ?_
    -- all prefixes of the header open with its first byte
    rintro p hp ⟨rest, hsplit⟩
    obtain ⟨b, p, rfl⟩ := List.exists_cons_of_ne_nil hp
    rw [← basicLength_bytes hformat hc, ← hsplit]
    rfl
  rw [BasicHeader.decode_bytes hformat hc, ← hrest] at hfield
  exact hfield

/-- Reading a message header, as far as the extended timestamp. -/
theorem reads_fixed (d : Demux) {h : Heading} (hfits : h.Fits) {time : TimeField}
    (htime : h.time? = some time) (c : UInt32) :
    Reads { d with stage := .messageHeader ⟨h.format, c⟩ [] } h.fixed
      (d.onFields ⟨h.format, c⟩ h.header) := by
  have hne : h.fixed ≠ [] := by
    refine List.ne_nil_of_length_pos ?_
    rw [h.length_fixed]
    exact Heading.messageHeaderLength_pos htime
  have hfield := reads_field (d := d) (.messageHeader ⟨h.format, c⟩)
    (fun _ => messageHeaderLength h.format)
    (fun seen => d.onFields ⟨h.format, c⟩ (.decode h.format seen))
    (fun _ _ => rfl) hne (fun _ _ _ => h.length_fixed.symm)
  rwa [Heading.decode_fixed hfits] at hfield

/-- Reading an extended timestamp. -/
theorem reads_extension (d : Demux) (c : UInt32) (header : MessageHeader) (v : UInt32) :
    Reads { d with stage := .extendedTimestamp c header [] } (Bytes.bigEndian 4 v.toNat)
      (d.onMessageHeader c header v .extendedTimestamp .extendedWithoutHeader) := by
  have hne : Bytes.bigEndian 4 v.toNat ≠ [] := List.cons_ne_nil _ _
  have hfield := reads_field (d := d) (.extendedTimestamp c header) (fun _ => 4)
    (fun seen => d.onMessageHeader c header (.ofNat (Bytes.ofBigEndian seen))
      .extendedTimestamp .extendedWithoutHeader)
    (fun _ _ => rfl) hne (fun _ _ _ => rfl)
  rwa [Bytes.ofNat_ofBigEndian_bigEndian] at hfield

/-- Reading a message header, with its extended timestamp. -/
theorem reads_messageHeader (d : Demux) {h : Heading} (hfits : h.Fits) {time : TimeField}
    (htime : h.time? = some time) (c : UInt32) :
    ∃ phase again, Reads { d with stage := .messageHeader ⟨h.format, c⟩ [] }
      (h.fixed ++ h.extension) (d.onMessageHeader c h.header time.value phase again) := by
  have hfixed := reads_fixed d hfits htime c
  have hstamp := Heading.timestamp_header htime
  unfold onFields at hfixed
  rw [Heading.extension_eq htime]
  by_cases hext : h.header.isExtended = true
  · -- the field announces four more bytes
    obtain ⟨v, rfl⟩ := (Heading.isExtended_header hfits htime).1 hext
    rw [if_pos hext] at hfixed
    exact ⟨.extendedTimestamp, .extendedWithoutHeader, hfixed.append (reads_extension d c _ v)⟩
  · -- the field is the time
    rw [if_neg hext] at hfixed
    cases time with
    | plain v =>
      rw [hstamp] at hfixed
      refine ⟨.messageHeader, .orphanHeader h.format c, ?_⟩
      rwa [TimeField.extension, List.append_nil]
    | extended v => exact absurd ((Heading.isExtended_header hfits htime).2 ⟨v, rfl⟩) hext

/-- A byte of a payload finds the assembly that was put back before it. -/
theorem step_payload {d : Demux} {c : UInt32} {a : Assembly} {taken : Nat}
    (hopen : ¬ d.chunkSize ≤ taken) (hmissing : a.missing ≠ 0) (b : UInt8) :
    step { d with stage := .payload c taken, streams := d.streams.put c a } b =
      d.settle c (a.append [b]).1 (taken + 1) := by
  unfold step
  dsimp only
  rw [if_neg hopen, Keyed.get?_put_self]
  dsimp only
  rw [if_neg hmissing, settle_put]

/-- **Reading a payload.** A chunk stream that misses the bytes takes them, if the chunk has
room. -/
theorem settle_reads {d : Demux} {c : UInt32} {a : Assembly} {taken : Nat} {payload : List UInt8}
    (ha : a.inProgress = true) (hfit : payload.length ≤ a.missing)
    (hroom : taken + payload.length ≤ d.chunkSize) (hpayload : payload ≠ []) :
    ∃ d', d.settle c a taken = (d', .quiet) ∧
      Reads d' payload (d.settle c (a.append payload).1 (taken + payload.length)) := by
  induction payload generalizing d a taken with
  | nil => exact absurd rfl hpayload
  | cons b rest ih =>
    rw [List.length_cons] at hfit hroom
    -- bytes are missing and the chunk has room, so the assembly is put back for more
    have hmissing : a.missing ≠ 0 := by omega
    have hnot : ¬ a.isComplete = true := by
      simp only [Assembly.isComplete, ha, Bool.true_and, decide_eq_true_eq]
      exact hmissing
    have hopen : ¬ d.chunkSize ≤ taken := by omega
    refine ⟨{ d with stage := .payload c taken, streams := d.streams.put c a }, ?_, ?_⟩
    · unfold settle
      rw [if_neg hnot, if_neg hopen]
    have hstep := step_payload (c := c) hopen hmissing b
    rcases rest with _ | ⟨b', rest⟩
    · exact .last hstep
    · -- the other bytes find what the first one left
      have hone : [b].length ≤ a.missing := Nat.pos_of_ne_zero hmissing
      have hleft : (a.append [b]).1.missing = a.missing - 1 := by
        rw [Assembly.append_of_le hone]
        rfl
      have hfit' : (b' :: rest).length ≤ (a.append [b]).1.missing := by
        rw [hleft]
        omega
      have hroom' : taken + 1 + (b' :: rest).length ≤ d.chunkSize := by omega
      have ha' : (a.append [b]).1.inProgress = true := ha
      obtain ⟨d', hsettle, hreads⟩ := ih ha' hfit' hroom' (List.cons_ne_nil _ _)
      have hall : (a.append (b :: b' :: rest)).1 = ((a.append [b]).1.append (b' :: rest)).1 := by
        rw [Assembly.append_cons hmissing]
      have hcount : taken + (b :: b' :: rest).length = taken + 1 + (b' :: rest).length := by
        simp only [List.length_cons]
        omega
      rw [hall, hcount]
      exact .quiet (hstep.trans hsettle) hreads

/-- Reading the basic header of format 3, which is all there is to read. -/
theorem reads_bare {d : Demux} (hrest : d.stage = .basicHeader []) {s : Spelling} {c : UInt32}
    (hc : s.Covers c) {a : Assembly} (hget : d.streams.get? c = some a) :
    Reads d (s.bytes 3 c) (d.settle c a.continueOrRepeat 0) := by
  have hbasic := reads_basicHeader hrest (by decide : (3 : UInt8) < 4) hc
  unfold onBasicHeader at hbasic
  rwa [if_pos (by rfl), hget] at hbasic

/-- Reading the headers of a chunk that tells its time. -/
theorem reads_timed {d : Demux} (hrest : d.stage = .basicHeader []) {s : Spelling} {c : UInt32}
    (hc : s.Covers c) {h : Heading} (hfits : h.Fits) {time : TimeField}
    (htime : h.time? = some time) :
    ∃ phase again, Reads d (s.bytes h.format c ++ (h.fixed ++ h.extension))
      (d.onMessageHeader c h.header time.value phase again) := by
  have hbasic := reads_basicHeader hrest h.format_lt hc
  have hlong : ¬ messageHeaderLength h.format = 0 :=
    Nat.ne_of_gt (Heading.messageHeaderLength_pos htime)
  unfold onBasicHeader at hbasic
  rw [if_neg hlong] at hbasic
  obtain ⟨phase, again, hmessage⟩ := reads_messageHeader d hfits htime c
  exact ⟨phase, again, hbasic.append hmessage⟩

/-- Reading the headers of a chunk. -/
theorem reads_headers {d : Demux} (hrest : d.stage = .basicHeader []) {f : Frame} (hfits : f.Fits)
    {a : Assembly}
    (hopen : Assembly.open? f.chunkStream (d.streams.get? f.chunkStream) f.heading = some a) :
    Reads d f.headers (d.settle f.chunkStream a 0) := by
  rw [Frame.headers, List.append_assoc]
  unfold Assembly.open? at hopen
  cases htime : f.heading.time? with
  | none =>
    -- only format 3 carries no time
    have hbare : f.heading = .bare := by
      cases hh : f.heading with
      | bare => rfl
      | _ => exact absurd htime (by rw [hh]; exact nofun)
    cases hget : d.streams.get? f.chunkStream with
    | none => exact absurd hopen (by rw [htime, hget]; exact nofun)
    | some x =>
      rw [htime, hget] at hopen
      obtain rfl := Option.some.inj hopen
      rw [hbare, Heading.fixed, Heading.extension, List.append_nil, List.append_nil]
      exact reads_bare hrest hfits.1 hget
  | some time =>
    obtain ⟨phase, again, hmessage⟩ := reads_timed hrest hfits.1 hfits.2 htime
    rw [htime] at hopen
    unfold onMessageHeader at hmessage
    -- the header opens the chunk stream, or starts a message on it
    cases hget : d.streams.get? f.chunkStream with
    | none =>
      rw [hget] at hopen hmessage
      dsimp only at hopen hmessage
      rw [Heading.format_header] at hmessage
      split at hopen
      · rename_i hformat
        rw [if_pos hformat] at hmessage
        obtain rfl := Option.some.inj hopen
        exact hmessage
      · exact absurd hopen (by simp)
    | some x =>
      rw [hget] at hopen hmessage
      obtain rfl := Option.some.inj hopen
      exact hmessage

/-! ### Reading chunks -/

def records (d : Demux) : Records :=
  fun c => (d.streams.get? c).map Assembly.record

/-- Between two chunks. -/
structure Resting (d : Demux) : Prop where
  stage : d.stage = .basicHeader []
  chunkSize_pos : 0 < d.chunkSize
  streams : ∀ c a, d.streams.get? c = some a → a.chunkStream = c ∧ a.Balanced

theorem Resting.initial : Resting .initial where
  stage := rfl
  chunkSize_pos := by decide
  streams := fun _ _ h => absurd h (by simp [Demux.initial])

def eventOf : Option Packet → Event
  | some p => .packet p
  | none => .quiet

/-- Putting back a chunk stream between two chunks. -/
theorem Resting.put {d : Demux} (h : d.Resting) {c : UInt32} {a : Assembly}
    (hstream : a.chunkStream = c) (hbalanced : a.Balanced) :
    Resting { d with stage := .basicHeader [], streams := d.streams.put c a } where
  stage := rfl
  chunkSize_pos := h.chunkSize_pos
  streams := by
    intro c' a' hget
    rw [Keyed.get?_put] at hget
    split at hget
    · rename_i hc
      obtain rfl := Option.some.inj hget
      exact ⟨hstream.trans hc.symm, hbalanced⟩
    · exact h.streams c' a' hget

theorem records_put (d : Demux) (stage : Stage) (c : UInt32) (a : Assembly) :
    records { d with stage, streams := d.streams.put c a } =
      Function.update d.records c (some a.record) := by
  funext c'
  unfold records
  rw [Keyed.get?_put]
  by_cases hc : c' = c
  · rw [if_pos hc, hc, Function.update_self, Option.map_some]
  · rw [if_neg hc, Function.update_of_ne hc]

/-- **Putting back a chunk stream after its chunk.** The payload is what the chunk size allows of
the bytes missing, so the message is complete or the chunk is full. -/
theorem Resting.settle_payload {d : Demux} (h : d.Resting) {c : UInt32} {a : Assembly}
    (hprogress : a.inProgress = true) (hstream : a.chunkStream = c) (hbalanced : a.Balanced)
    {payload : List UInt8} (hlength : payload.length = min d.chunkSize a.record.missing) :
    ∃ d', d.settle c (a.append payload).1 payload.length =
        (d', eventOf (a.record.extend c payload).2) ∧
      d'.Resting ∧ d'.chunkSize = d.chunkSize ∧
      d'.records = Function.update d.records c (some (a.record.extend c payload).1) := by
  -- the record and the assembly miss the same bytes
  have hmissing := a.missing_record hprogress hbalanced
  rw [hmissing] at hlength
  have hfit : payload.length ≤ a.missing := hlength ▸ Nat.min_le_right _ _
  have hrecord := Assembly.record_append hprogress hfit
  have hkept := Assembly.balanced_append hbalanced hfit
  unfold Record.extend
  rw [hmissing]
  by_cases hdone : a.missing ≤ payload.length
  · -- the message is complete
    rw [if_pos hdone]
    have hcomplete : (a.append payload).1.isComplete = true := by
      rw [Assembly.append_of_le hfit]
      simp only [Assembly.isComplete, hprogress, Bool.true_and, decide_eq_true_eq]
      omega
    refine ⟨{ d with stage := .basicHeader [],
                     streams := d.streams.put c (a.append payload).1.clear }, ?_,
      h.put hstream (Assembly.balanced_clear _), rfl, ?_⟩
    · unfold settle
      rw [if_pos hcomplete, Assembly.append_of_le hfit]
      simp only [Assembly.packet, eventOf, Record.packet, Record.soFar, Assembly.record, hprogress,
        hstream, if_true, Option.getD_some, List.reverse_append, List.reverse_reverse]
    · rw [records_put, Assembly.append_of_le hfit]
      rfl
  · -- the chunk is full
    rw [if_neg hdone]
    have hcomplete : ¬ (a.append payload).1.isComplete = true := by
      rw [Assembly.append_of_le hfit]
      simp only [Assembly.isComplete, hprogress, Bool.true_and, decide_eq_true_eq]
      omega
    have hfull : d.chunkSize ≤ payload.length := by omega
    refine ⟨{ d with stage := .basicHeader [],
                     streams := d.streams.put c (a.append payload).1 }, ?_,
      h.put hstream hkept, rfl, ?_⟩
    · unfold settle
      rw [if_neg hcomplete, if_pos hfull]
      rfl
    · rw [records_put, hrecord]

/-- **The bytes of a chunk do to the machine what the chunk does to the records.** -/
theorem Resting.reads_frame {d : Demux} (h : d.Resting) {f : Frame}
    (hf : d.records.Accepts d.chunkSize f) :
    ∃ d', Reads d f.bytes (d', eventOf (d.records.read f).2) ∧ d'.Resting ∧
      d'.chunkSize = d.chunkSize ∧ d'.records = (d.records.read f).1 := by
  obtain ⟨r, hrecord, hlength, hread⟩ := hf.exists_open
  -- the record that opens belongs to an assembly that opens
  unfold records at hrecord
  rw [← Assembly.map_record_open? f.chunkStream] at hrecord
  obtain ⟨a, hopen, rfl⟩ := Option.map_eq_some_iff.1 hrecord
  obtain ⟨hprogress, hstream, hbalanced⟩ :=
    Assembly.open?_spec hopen (h.streams f.chunkStream)
  -- the headers are read up to that assembly, and the payload is put into it
  have hheaders := reads_headers h.stage hf.1 hopen
  obtain ⟨d', hsettle, hresting, hsize, hrecords⟩ :=
    h.settle_payload hprogress hstream hbalanced hlength
  rw [hread]
  refine ⟨d', ?_, hresting, hsize, hrecords⟩
  rw [← hsettle, Frame.bytes]
  have hfit : f.payload.length ≤ a.missing := by
    rw [hlength, a.missing_record hprogress hbalanced]
    exact Nat.min_le_right _ _
  by_cases hempty : f.payload = []
  · -- the last byte of the headers is the last byte of the chunk
    rw [hempty, Assembly.append_nil, List.append_nil]
    exact hheaders
  · have hroom : 0 + f.payload.length ≤ d.chunkSize := by
      rw [Nat.zero_add, hlength]
      exact Nat.min_le_left _ _
    obtain ⟨d₁, hopened, hpayload⟩ := settle_reads hprogress hfit hroom hempty (c := f.chunkStream)
    rw [Nat.zero_add] at hpayload
    rw [hopened] at hheaders
    exact hheaders.append hpayload

/-- **Scanning a chunk.** Its message, if it completes one, is reacted to before the next byte. -/
theorem Resting.scan_frame {d : Demux} (h : d.Resting) {f : Frame}
    (hf : d.records.Accepts d.chunkSize f) (react : Packet → Demux → Demux) :
    ∃ d' : Demux, d'.Resting ∧ d'.chunkSize = d.chunkSize ∧ d'.records = (d.records.read f).1 ∧
      ∀ rest, d.scan react (f.bytes ++ rest) =
        (((d.records.read f).2.elim d' (react · d')).scan react rest).after f.bytes.length
          (d.records.read f).2.toList := by
  obtain ⟨d', hreads, hresting, hsize, hrecords⟩ := h.reads_frame hf
  refine ⟨d', hresting, hsize, hrecords, fun rest => ?_⟩
  cases hp : (d.records.read f).2 with
  | none =>
    rw [hp] at hreads
    exact hreads.scan_quiet rest
  | some p =>
    rw [hp] at hreads
    exact hreads.scan_packet rest

/-- **Scanning chunks.** What comes out is what the reference delivers. -/
theorem Resting.scan_frames {d : Demux} (h : d.Resting) {frames : List Frame}
    (hframes : d.records.AcceptAll d.chunkSize frames) :
    ∃ d' : Demux, d'.Resting ∧ d'.chunkSize = d.chunkSize ∧
      d'.records = d.records.readAll frames ∧
      d.scan collect (frames.flatMap Frame.bytes) =
        ⟨d', (frames.flatMap Frame.bytes).length, d.records.deliver frames, .usedUp⟩ := by
  induction frames generalizing d with
  | nil => exact ⟨d, h, rfl, rfl, rfl⟩
  | cons f rest ih =>
    -- the first chunk leaves the machine between two chunks, with the next records
    obtain ⟨hf, hrest⟩ := hframes
    obtain ⟨d₁, hresting₁, hsize₁, hrecords₁, hscan⟩ := h.scan_frame hf collect
    rw [← hsize₁, ← hrecords₁] at hrest
    obtain ⟨d', hresting, hsize, hrecords, hlater⟩ := ih hresting₁ hrest
    refine ⟨d', hresting, hsize.trans hsize₁, ?_, ?_⟩
    · rw [hrecords, hrecords₁]
      rfl
    · -- the driver leaves the machine alone
      have hcollect : (d.records.read f).2.elim d₁ (collect · d₁) = d₁ := by
        cases (d.records.read f).2 <;> rfl
      rw [List.flatMap_cons, hscan, hcollect, hlater, hrecords₁, Records.deliver,
        List.length_append]
      rfl

theorem Resting.setChunkSize {d : Demux} (h : d.Resting) (size : Nat) :
    (d.setChunkSize size).Resting where
  stage := h.stage
  chunkSize_pos := Nat.lt_of_lt_of_le Nat.one_pos (Nat.le_max_right size 1)
  streams := h.streams

/-- **Refinement of the reference.** Under a chunk size that stays as it is, feed a fresh machine
the bytes of chunks of which each may come after those before it, cut in any way. Every byte is
taken, no fault is raised, the messages handed over are those that the reference delivers, and the
machine is left with the records of the reference. -/
theorem drainAll_frames {size : Nat} (hsize : 1 ≤ size) {frames : List Frame}
    (hframes : Records.initial.AcceptAll size frames) {slices : List (List UInt8)}
    (hslices : slices.flatten = frames.flatMap Frame.bytes) :
    let d := initial.setChunkSize size
    let t := d.drainAll collect slices
    t.packets = Records.initial.deliver frames ∧ t.ending = .usedUp ∧
      t.taken = slices.flatten.length ∧ t.demux.records = Records.initial.readAll frames ∧
      (d.feed slices).packets = Records.initial.deliver frames ∧ (d.feed slices).fault = none := by
  intro d t
  have hresting : d.Resting := Resting.initial.setChunkSize size
  have hchunk : d.chunkSize = size := Nat.max_eq_left hsize
  have hsound : d.Sound := Sound.initial.setChunkSize size
  have hrecords : d.records = Records.initial := rfl
  rw [← hchunk, ← hrecords] at hframes
  obtain ⟨d', -, -, hrecords', hscan⟩ := hresting.scan_frames hframes
  -- the cut is not visible, so it is enough to scan the bytes of the chunks
  have hall : t = ⟨d', slices.flatten.length, Records.initial.deliver frames, .usedUp⟩ := by
    rw [show t = d.drainAll collect slices from rfl, hsound.drainAll_eq_scan gentle_collect,
      hslices, hscan, hrecords]
  obtain ⟨-, hpackets, hfault⟩ := hsound.feed_eq_scan slices
  rw [hslices, hscan] at hpackets hfault
  rw [hall]
  exact ⟨rfl, rfl, rfl, hrecords', hpackets, hfault⟩

/-- Chunks of at most two payload bytes on two chunk streams: a message that goes on behind an empty
one on the other chunk stream, an id in two spellings, a repetition, and a header of format 1 in the
middle of a message, which comes after an extended timestamp that turns time back. -/
theorem drainAll_frames_interleaved :
    let frames : List Frame := [
      ⟨.short, 3, .full (.plain 10) 3 8 1, [1, 2]⟩,
      ⟨.long, 300, .full (.extended 5) 0 9 2, []⟩,
      ⟨.short, 3, .bare, [3]⟩,
      ⟨.medium, 300, .sameStream (.plain 7) 1 9, [9]⟩,
      ⟨.long, 300, .bare, [8]⟩,
      ⟨.short, 3, .sameKind (.extended 0xffffffff), [4, 5]⟩,
      ⟨.short, 3, .sameStream (.plain 1) 1 8, [7]⟩]
    Records.initial.AcceptAll 2 frames ∧
      ((initial.setChunkSize 2).drainAll collect [frames.flatMap Frame.bytes]).packets =
        [.ofPayload 5 9 2 300 [], .ofPayload 10 8 1 3 [1, 2, 3], .ofPayload 12 9 2 300 [9],
          .ofPayload 19 9 2 300 [8], .ofPayload 10 8 1 3 [7]] := by
  intro frames
  have hframes : Records.initial.AcceptAll 2 frames := by decide
  have hslices : [frames.flatMap Frame.bytes].flatten = frames.flatMap Frame.bytes :=
    List.append_nil _
  obtain ⟨hpackets, -⟩ := drainAll_frames (by decide) hframes hslices
  exact ⟨hframes, hpackets.trans (by decide)⟩

end Demux

end LiveIngest.Chunk
