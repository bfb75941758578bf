import Mathlib.Data.List.Infix
import Mathlib.Data.List.Perm.Subperm
import LiveIngest.Session
import LiveIngest.Proofs.Chunk.Receipts
import LiveIngest.Proofs.Connection.Marks

/-!
# Closing a session

The worker of a session and everyone who holds its link work side by side. Their steps come in any
order (`Session.Step`): the worker reads, takes pieces out, writes them and looks whether the link
was closed; the others send, drop what is queued for a stream, and close. The socket takes every
piece and the peer does not go away, so a session is over without a fault exactly if its worker
found the link closed.

A `Session.History` keeps an `Account` beside the steps: what was queued, dropped and taken out up to
now, and the same as it was at three moments before, when the worker last began to flush, behind the
piece that it took out last, and when the link was closed for the first time. What a connection does
to its link while it takes a slice is told in marks.

An earlier state of the account is told by `Run.Precedes`: nothing that was queued, dropped or taken
out is forgotten. `Session.Kept` is the invariant along histories. Its crux is what the worker knows
when it looks whether the link was closed: it has taken out a piece since it woke, and the last piece
was empty, so at that moment nothing was queued any more.

Main statements:

* `written_of_over` — when a session is over because its link was closed, the last piece was taken
  out after the worker had woken for the last time, and all that was queued before that piece has been
  written, but for what was dropped. Where the link was closed before it, as it is when closing has
  woken the worker, that is all that was sent before the link was closed;
* `unwritten_of_over` — a message that was dropped is not written, nor is one that was queued behind
  the last piece.
-/

namespace LiveIngest

variable {σ : Type}

/-! ### Accounts -/

namespace Chunk.Run

def mark (r : Run) : Mark → Run
  | .queued p => r.enqueue p
  | .dropped streamId => r.reset streamId
  | .raw bytes => r.pushRaw bytes
  | .closed => r

def markAll (r : Run) (marks : List Mark) : Run :=
  marks.foldl mark r

/-- What is done to the link takes nothing out. -/
theorem outputs_markAll (r : Run) (marks : List Mark) : (r.markAll marks).outputs = r.outputs := by
  induction marks generalizing r with
  | nil => rfl
  | cons m rest ih =>
    refine (ih (r.mark m)).trans ?_
    cases m <;> rfl

/-- Nor does it change what was shipped. -/
theorem Shipped.markAll {r : Run} {shipments : List Shipment} (h : r.Shipped shipments)
    (marks : List Mark) : (r.markAll marks).Shipped shipments := by
  induction marks generalizing r with
  | nil => exact h
  | cons m rest ih =>
    refine ih (r := r.mark m) ?_
    cases m with
    | queued p => exact h.enqueue p
    | dropped streamId => exact h.reset streamId
    | raw bytes => exact h.pushRaw bytes
    | closed => exact h

/-- A link and its account go on alike. -/
theorem mux_markAll {r : Run} {l : Link} (h : l.mux = r.mux) (marks : List Mark) :
    (l.markAll marks).mux = (r.markAll marks).mux := by
  induction marks generalizing r l with
  | nil => exact h
  | cons m rest ih =>
    refine ih (r := r.mark m) (l := l.mark m) ?_
    cases m with
    | queued p => exact congrArg (Mux.enqueue · p) h
    | dropped streamId => exact congrArg (fun mux => (Mux.reset mux streamId).1) h
    | raw bytes => exact congrArg (Mux.pushRaw · bytes) h
    | closed => exact h

/-- One state of a run is earlier than another: what was taken out, queued and dropped by then is the
beginning of what it is later. -/
structure Precedes (r r' : Run) : Prop where
  outputs : r.outputs <+: r'.outputs
  queued : ∀ c, r.queued c <+: r'.queued c
  dropped : ∀ c, r.dropped c <+: r'.dropped c

theorem Precedes.refl (r : Run) : r.Precedes r :=
  ⟨List.prefix_refl _, fun _ => List.prefix_refl _, fun _ => List.prefix_refl _⟩

theorem Precedes.trans {r r' r'' : Run} (h : r.Precedes r') (h' : r'.Precedes r'') :
    r.Precedes r'' where
  outputs := h.outputs.trans h'.outputs
  queued c := (h.queued c).trans (h'.queued c)
  dropped c := (h.dropped c).trans (h'.dropped c)

/-- What is queued or dropped comes behind what was before. -/
theorem precedes_mark (r : Run) (m : Mark) : r.Precedes (r.mark m) := by
  cases m with
  | queued p =>
    exact ⟨List.prefix_refl _, fun _ => List.prefix_append _ _, fun _ => List.prefix_refl _⟩
  | dropped streamId =>
    exact ⟨List.prefix_refl _, fun _ => List.prefix_append _ _, fun _ => List.prefix_append _ _⟩
  | raw bytes => exact ⟨List.prefix_refl _, fun _ => List.prefix_refl _, fun _ => List.prefix_refl _⟩
  | closed => exact .refl r

/-- So does what is taken out. -/
theorem precedes_serialize (r : Run) (now budget : Nat) : r.Precedes (r.serialize now budget) :=
  ⟨List.prefix_append _ _, fun _ => List.prefix_refl _, fun _ => List.prefix_refl _⟩

end Chunk.Run

open Chunk (Run Shipment receipt)

/-- The account of a session. -/
structure Account where
  now : Run
  /-- As it was when the worker last began to flush. -/
  begun : Run
  /-- As it was behind the piece that was taken out last. -/
  last : Run
  /-- As it was when the link was closed for the first time. -/
  closing : Option Run

namespace Account

def initial : Account := ⟨.initial, .initial, .initial, none⟩

def mark (a : Account) (m : Mark) : Account :=
  { a with
    now := a.now.mark m
    closing := if m = .closed then a.closing.or (some a.now) else a.closing }

def markAll (a : Account) (marks : List Mark) : Account :=
  marks.foldl mark a

def begin (a : Account) : Account :=
  { a with begun := a.now }

def pull (a : Account) (now budget : Nat) : Account :=
  { a with now := a.now.serialize now budget, last := a.now.serialize now budget }

/-- What is done to the link concerns the account up to now. -/
theorem now_markAll (a : Account) (marks : List Mark) :
    (a.markAll marks).now = a.now.markAll marks ∧ (a.markAll marks).begun = a.begun ∧
      (a.markAll marks).last = a.last := by
  induction marks generalizing a with
  | nil => exact ⟨rfl, rfl, rfl⟩
  | cons m rest ih => exact ih (a.mark m)

/-- Only the first closing counts. -/
theorem closing_markAll {a : Account} {r : Run} (h : a.closing = some r) (marks : List Mark) :
    (a.markAll marks).closing = some r := by
  induction marks generalizing a with
  | nil => exact h
  | cons m rest ih =>
    refine ih (a := a.mark m) ?_
    unfold mark
    dsimp only
    rw [h, Option.some_or, ite_self]

/-- The account remembers the first closing. -/
theorem closing_mark_iff (a : Account) (m : Mark) :
    (a.mark m).closing.isSome = true ↔ a.closing.isSome = true ∨ m = .closed := by
  unfold mark
  dsimp only
  split
  · rename_i hm
    cases a.closing <;> simp [hm]
  · rename_i hm
    exact (or_iff_left hm).symm

/-- A link and its account are closed alike. -/
theorem closing_markAll_iff {a : Account} {l : Link}
    (h : l.isClosed = true ↔ a.closing.isSome = true) (marks : List Mark) :
    (l.markAll marks).isClosed = true ↔ (a.markAll marks).closing.isSome = true := by
  induction marks generalizing a l with
  | nil => exact h
  | cons m rest ih =>
    refine ih (a := a.mark m) (l := l.mark m) ?_
    rw [closing_mark_iff, ← h]
    cases m with
    | closed => exact ⟨fun _ => Or.inr rfl, fun _ => decide_eq_true (LinkStatus.close_ne_live _)⟩
    | queued | dropped | raw => exact ⟨Or.inl, fun hclosed => hclosed.resolve_right nofun⟩

/-- The moments of an account are behind each other. -/
structure Ordered (a : Account) : Prop where
  begun : a.begun.Precedes a.now
  last : a.last.Precedes a.now
  /-- The link was closed before the last piece was taken out, or behind it. -/
  closing : ∀ r, a.closing = some r →
    r.Precedes a.now ∧ (r.Precedes a.last ∨ a.last.Precedes r)

theorem Ordered.initial : Ordered .initial :=
  ⟨.refl _, .refl _, fun _ h => nomatch h⟩

/-- Marks come behind all moments so far, and the first closing is behind the last piece. -/
theorem Ordered.mark {a : Account} (h : a.Ordered) (m : Mark) : (a.mark m).Ordered := by
  have hnow := a.now.precedes_mark m
  have hbefore : ∀ r, a.closing = some r →
      r.Precedes (a.now.mark m) ∧ (r.Precedes a.last ∨ a.last.Precedes r) :=
    fun r hr => ⟨(h.closing r hr).1.trans hnow, (h.closing r hr).2⟩
  refine ⟨h.begun.trans hnow, h.last.trans hnow, fun r hr => ?_⟩
  unfold Account.mark at hr
  dsimp only at hr
  split at hr
  · cases hclosing : a.closing with
    | none =>
      -- the link is closed for the first time
      rw [hclosing] at hr
      obtain rfl : a.now = r := Option.some.inj hr
      exact ⟨hnow, Or.inr h.last⟩
    | some r' =>
      rw [hclosing] at hr
      obtain rfl : r' = r := Option.some.inj hr
      exact hbefore r' hclosing
  · exact hbefore r hr

theorem Ordered.markAll {a : Account} (h : a.Ordered) (marks : List Mark) :
    (a.markAll marks).Ordered := by
  induction marks generalizing a with
  | nil => exact h
  | cons m rest ih => exact ih (h.mark m)

/-- When the worker begins to flush, nothing is older. -/
theorem Ordered.begin {a : Account} (h : a.Ordered) : a.begin.Ordered :=
  ⟨.refl _, h.last, h.closing⟩

/-- Behind a new piece, all moments are before the last piece. -/
theorem Ordered.pull {a : Account} (h : a.Ordered) (now budget : Nat) :
    (a.pull now budget).Ordered := by
  have hnow := a.now.precedes_serialize now budget
  refine ⟨h.begun.trans hnow, .refl _, fun r hr => ?_⟩
  have hbefore := (h.closing r hr).1.trans hnow
  exact ⟨hbefore, Or.inl hbefore⟩

end Account

namespace Session

/-! ### Steps -/

/-- A message is queued, also on a link that was closed since its sender looked. -/
def queue (s : Session σ) (p : Packet) : Session σ :=
  { s with connection := { s.connection with link := s.connection.link.mark (.queued p) } }

/-- A step of the worker, or of anyone who holds the link. -/
inductive Step (env : Environment σ) (sizes : BufferSizes) (s : Session σ) : Session σ → Prop
  | read (hs : s.activity = .waiting) (t : Moment) (slice : List UInt8) :
      Step env sizes s (s.arrive (env.moved t) (.bytes slice))
  | wake (hs : s.activity = .waiting) (t : Moment) :
      Step env sizes s (s.arrive (env.moved t) .nothing)
  | pull {cause : Option Fault} (hs : s.activity = .flushing cause) (t : Moment) :
      Step env sizes s (s.pull (env.moved t) sizes)
  | write {piece : List UInt8} {cause : Option Fault} (hs : s.activity = .writing piece cause)
      (t : Moment) : Step env sizes s (s.write (env.moved t) (.ok ()))
  | check (hs : s.activity = .checking) (t : Moment) : Step env sizes s (s.check (env.moved t))
  | act (a : Act) : Step env sizes s (s.act a)
  | queue (p : Packet) : Step env sizes s (s.queue p)

/-- Steps that lead to `s`, with their account. -/
inductive History (env : Environment σ) (sizes : BufferSizes) (c : Connection σ) :
    (s : Session σ) → (a : Account) → Prop
  | start : History env sizes c (.start c) .initial
  /-- The marks tell what the connection has done to its link. The worker flushes behind that. -/
  | read {s : Session σ} {a : Account} (h : History env sizes c s a)
      (hs : s.activity = .waiting) (t : Moment) (slice : List UInt8) (marks : List Mark)
      (hmarks : s.connection.link.markAll marks =
        (s.connection.parse (env.moved t) slice).2.link) :
      History env sizes c (s.arrive (env.moved t) (.bytes slice)) (a.markAll marks).begin
  | wake {s : Session σ} {a : Account} (h : History env sizes c s a)
      (hs : s.activity = .waiting) (t : Moment) :
      History env sizes c (s.arrive (env.moved t) .nothing) a.begin
  | pull {s : Session σ} {a : Account} (h : History env sizes c s a)
      {cause : Option Fault} (hs : s.activity = .flushing cause) (t : Moment) :
      History env sizes c (s.pull (env.moved t) sizes) (a.pull t.uptime (s.budget sizes))
  | write {s : Session σ} {a : Account} (h : History env sizes c s a)
      {piece : List UInt8} {cause : Option Fault} (hs : s.activity = .writing piece cause)
      (t : Moment) : History env sizes c (s.write (env.moved t) (.ok ())) a
  | check {s : Session σ} {a : Account} (h : History env sizes c s a)
      (hs : s.activity = .checking) (t : Moment) :
      History env sizes c (s.check (env.moved t)) a
  | act {s : Session σ} {a : Account} (h : History env sizes c s a) (x : Act) :
      History env sizes c (s.act x) (a.markAll (s.connection.link.markOf x).toList)
  | queue {s : Session σ} {a : Account} (h : History env sizes c s a) (p : Packet) :
      History env sizes c (s.queue p) (a.mark (.queued p))

variable {env : Environment σ} {sizes : BufferSizes} {c : Connection σ} {s s' : Session σ}
  {a : Account}

/-- Every step can be accounted for. -/
theorem History.step (h : History env sizes c s a) (hstep : Step env sizes s s') :
    ∃ a', History env sizes c s' a' := by
  cases hstep with
  | read hs t slice =>
    obtain ⟨marks, hmarks⟩ := Connection.marked_parse (env.moved t) slice s.connection
    exact ⟨_, .read h hs t slice marks hmarks⟩
  | wake hs t => exact ⟨_, .wake h hs t⟩
  | pull hs t => exact ⟨_, .pull h hs t⟩
  | write hs t => exact ⟨_, .write h hs t⟩
  | check hs t => exact ⟨_, .check h hs t⟩
  | act x => exact ⟨_, .act h x⟩
  | queue p => exact ⟨_, .queue h p⟩

/-- **Any steps can be accounted for.** -/
theorem exists_history (h : Relation.ReflTransGen (Step env sizes) (start c) s) :
    ∃ a, History env sizes c s a := by
  induction h with
  | refl => exact ⟨_, .start⟩
  | tail _ hstep ih =>
    obtain ⟨a, hhistory⟩ := ih
    exact hhistory.step hstep

/-! ### What histories keep -/

/-- The piece that is about to be written. -/
def piece (s : Session σ) : List UInt8 :=
  match s.activity with
  | .writing piece _ => piece
  | _ => []

/-- True once the connection was finished, after which its link counts no more. -/
def isOver (s : Session σ) : Bool :=
  match s.activity with
  | .over _ => true
  | _ => false

/-- True once the worker has flushed, while it looks whether the link was closed and where it has found
it so. -/
def hasFlushed (s : Session σ) : Bool :=
  match s.activity with
  | .checking | .over (.ok ()) => true
  | _ => false

/-- What a session and its account have to do with each other. -/
structure Kept (s : Session σ) (a : Account) : Prop where
  mux : s.isOver = false → s.connection.link.mux = a.now.mux
  shipped : ∃ shipments, a.now.Shipped shipments
  lastShipped : ∃ shipments, a.last.Shipped shipments
  /-- What was taken out was written, but for the piece that is about to be. -/
  output : a.last.outputs.flatten = s.output ++ s.piece
  outputs : a.now.outputs = a.last.outputs
  ordered : a.Ordered
  closed : s.isOver = false → (s.connection.link.isClosed = true ↔ a.closing.isSome = true)
  /-- A session that is over because its link was closed has found it closed. -/
  found : s.activity = .over (.ok ()) → a.closing.isSome = true
  /-- The last piece was empty because nothing was queued. -/
  settled : s.hasFlushed = true → a.last.mux.hasData = false
  /-- The last piece was taken out since the worker began to flush. -/
  flushed : s.hasFlushed = true →
    a.begun.Precedes a.last ∧ a.begun.outputs.length < a.last.outputs.length

/-- A session starts with nothing queued, on a live link. -/
theorem Kept.start (hmux : c.link.mux = .initial) (hlive : c.link.status = .live) :
    Kept (.start c) .initial where
  mux := fun _ => hmux
  shipped := ⟨[], .initial⟩
  lastShipped := ⟨[], .initial⟩
  output := rfl
  outputs := rfl
  ordered := .initial
  closed := fun _ => ⟨fun h => absurd hlive (of_decide_eq_true h), fun h => nomatch h⟩
  found := fun h => nomatch h
  settled := fun h => nomatch h
  flushed := fun h => nomatch h

/-- What is done to the link between two pieces concerns the account up to now. -/
theorem Kept.mark (h : Kept s a) {link : Link} {marks : List Mark}
    (hlink : s.connection.link.markAll marks = link) {connection : Connection σ}
    (hconnection : connection.link = link) :
    Kept { s with connection } (a.markAll marks) := by
  obtain ⟨hnow, hbegun, hlast⟩ := a.now_markAll marks
  -- marks are put on the link and on the run alike
  constructor
  · intro hover
    show connection.link.mux = _
    rw [hconnection, ← hlink, hnow]
    exact Run.mux_markAll (h.mux hover) marks
  · obtain ⟨shipments, hshipped⟩ := h.shipped
    exact ⟨shipments, hnow ▸ hshipped.markAll marks⟩
  · exact hlast ▸ h.lastShipped
  · exact hlast ▸ h.output
  · rw [hnow, hlast]
    exact (Run.outputs_markAll a.now marks).trans h.outputs
  · exact h.ordered.markAll marks
  · intro hover
    show connection.link.isClosed = true ↔ _
    rw [hconnection, ← hlink]
    exact Account.closing_markAll_iff (h.closed hover) marks
  · intro hover
    obtain ⟨r, hr⟩ := Option.isSome_iff_exists.1 (h.found hover)
    rw [Account.closing_markAll hr]
    rfl
  · exact fun hflushed => hlast ▸ h.settled hflushed
  · intro hflushed
    rw [hlast, hbegun]
    exact h.flushed hflushed

/-- Where nothing is taken out, the accounts stay as they are. -/
theorem Kept.congr (h : Kept s a)
    (hmux : s'.isOver = false → s.isOver = false ∧ s'.connection.link = s.connection.link)
    (houtput : s'.output ++ s'.piece = s.output ++ s.piece)
    (hfound : s'.activity = .over (.ok ()) → a.closing.isSome = true)
    (hflushed : s'.hasFlushed = true → s.hasFlushed = true) : Kept s' a where
  mux := by
    intro hover
    obtain ⟨hover', hlink⟩ := hmux hover
    rw [hlink]
    exact h.mux hover'
  shipped := h.shipped
  lastShipped := h.lastShipped
  output := h.output.trans houtput.symm
  outputs := h.outputs
  ordered := h.ordered
  closed := by
    intro hover
    obtain ⟨hover', hlink⟩ := hmux hover
    rw [hlink]
    exact h.closed hover'
  found := hfound
  settled := fun hend => h.settled (hflushed hend)
  flushed := fun hend => h.flushed (hflushed hend)

theorem isOver_eq_false {activity : Activity} (hs : s.activity = activity)
    (hactivity : ∀ o, activity ≠ .over o) : s.isOver = false := by
  unfold isOver
  split
  · rename_i o ho
    exact absurd (hs.symm.trans ho) (hactivity o)
  · rfl

theorem piece_eq_nil {activity : Activity} (hs : s.activity = activity)
    (hactivity : ∀ piece cause, activity ≠ .writing piece cause) : s.piece = [] := by
  unfold piece
  split
  · rename_i piece cause hwriting
    exact absurd (hs.symm.trans hwriting) (hactivity piece cause)
  · rfl

/-- The worker begins to take pieces out. -/
theorem Kept.flush (h : Kept s a) (hs : s.activity = .waiting) (cause : Option Fault) :
    Kept { s with activity := .flushing cause } a.begin := by
  have hkept : Kept { s with activity := .flushing cause } a := by
    refine h.congr (fun _ => ⟨isOver_eq_false hs (by exact nofun), rfl⟩) ?_ (fun hend => nomatch hend)
      fun hend => nomatch hend
    rw [piece_eq_nil hs (by exact nofun)]
    rfl
  exact { hkept with
    ordered := h.ordered.begin
    flushed := fun hend => nomatch hend }

/-- Whether a slice fails or not, the worker flushes behind it. -/
theorem arrive_bytes (env : Environment σ) (hs : s.activity = .waiting) (slice : List UInt8) :
    ∃ cause, s.arrive env (.bytes slice) =
      { s with connection := (s.connection.parse env slice).2, activity := .flushing cause } := by
  unfold arrive
  rw [hs]
  dsimp only
  rcases s.connection.parse env slice with ⟨f | n, connection⟩
  · exact ⟨some f, rfl⟩
  · exact ⟨none, rfl⟩

theorem arrive_nothing (hs : s.activity = .waiting) :
    s.arrive env .nothing = { s with activity := .flushing none } := by
  unfold arrive
  rw [hs]

theorem write_ok {piece : List UInt8} {cause : Option Fault}
    (hs : s.activity = .writing piece cause) :
    s.write env (.ok ()) =
      { s with written := piece :: s.written, activity := .flushing cause } := by
  unfold write
  rw [hs]

/-- A session is over if its worker finds the link closed. -/
theorem check_checking (hs : s.activity = .checking) :
    s.check env = if s.connection.link.isClosed then s.conclude env (.ok ())
      else { s with activity := .waiting } := by
  unfold check
  rw [hs]

/-- What becomes of a piece that was taken out. -/
theorem pull_flushing (env : Environment σ) (sizes : BufferSizes) {cause : Option Fault}
    (hs : s.activity = .flushing cause) :
    let taken := s.connection.link.mux.serialize env.now.uptime (s.budget sizes)
    let s₁ : Session σ := { s with connection := { s.connection with
      link := { s.connection.link with mux := taken.1 } } }
    (taken.2 = [] ∧ s.pull env sizes = { s₁ with activity := .checking }) ∨
      (∃ f, taken.2 = [] ∧ s.pull env sizes = s₁.conclude env (.error f)) ∨
        s.pull env sizes = { s₁ with activity := .writing taken.2 cause } := by
  intro taken s₁
  unfold pull Link.serialize
  rw [hs]
  dsimp only
  -- an empty piece ends the flush, with or without a cause
  cases hpiece : (s.connection.link.mux.serialize env.now.uptime (s.budget sizes)).2 with
  | nil =>
    cases cause with
    | none => exact Or.inl ⟨rfl, rfl⟩
    | some f => exact Or.inr (Or.inl ⟨f, rfl, rfl⟩)
  | cons b rest => exact Or.inr (Or.inr rfl)

/-- **A piece is taken out.** If it is empty, nothing is queued. -/
theorem Kept.pull (h : Kept s a) {cause : Option Fault} (hs : s.activity = .flushing cause)
    (t : Moment) : Kept (s.pull (env.moved t) sizes) (a.pull t.uptime (s.budget sizes)) := by
  have hopen : s.isOver = false := isOver_eq_false hs (by exact nofun)
  have hmux : s.connection.link.mux = a.now.mux := h.mux hopen
  have hordered := h.ordered.pull t.uptime (s.budget sizes)
  obtain ⟨shipments, hshipped⟩ := h.shipped
  obtain ⟨shipment, hnext⟩ := hshipped.serialize t.uptime (s.budget sizes)
  -- what was taken out up to now, and the piece
  have houtput : (a.now.serialize t.uptime (s.budget sizes)).outputs.flatten =
      s.output ++ (a.now.mux.serialize t.uptime (s.budget sizes)).2 := by
    have hpiece : s.piece = [] := piece_eq_nil hs (by exact nofun)
    calc (a.now.serialize t.uptime (s.budget sizes)).outputs.flatten
        = a.now.outputs.flatten ++ (a.now.mux.serialize t.uptime (s.budget sizes)).2 := by
          rw [Run.serialize, List.flatten_append, List.flatten_singleton]
      _ = s.output ++ (a.now.mux.serialize t.uptime (s.budget sizes)).2 := by
          rw [h.outputs, h.output, hpiece, List.append_nil]
  rw [← hmux] at houtput
  -- a chunk of full size would have fitted the piece
  have hbudget : s.connection.link.mux.chunkSize + Chunk.maxHeaderSize ≤ s.budget sizes :=
    Nat.le_max_right _ _
  have hempty : (s.connection.link.mux.serialize t.uptime (s.budget sizes)).2 = [] →
      (a.now.serialize t.uptime (s.budget sizes)).mux.hasData = false := by
    intro hpiece
    rw [hmux] at hbudget hpiece
    exact Chunk.Mux.hasData_of_serialize_eq_nil hbudget hpiece
  have hnow : (s.connection.link.mux.serialize t.uptime (s.budget sizes)).1 =
      (a.now.serialize t.uptime (s.budget sizes)).mux := by
    rw [hmux]
    rfl
  -- the worker takes out one more piece than when it began to flush
  have hmore : a.begun.outputs.length <
      (a.now.serialize t.uptime (s.budget sizes)).outputs.length := by
    have hle := h.ordered.begun.outputs.length_le
    rw [Run.serialize, List.length_append, List.length_singleton]
    exact Nat.lt_succ_of_le hle
  rcases pull_flushing (env.moved t) sizes hs with ⟨hpiece, hpull⟩ | ⟨f, hpiece, hpull⟩ | hpull
  · rw [hpull]
    have hwritten := houtput.trans (congrArg (s.output ++ ·) hpiece)
    exact ⟨fun _ => hnow, ⟨_, hnext⟩, ⟨_, hnext⟩, hwritten, rfl, hordered, fun _ => h.closed hopen,
      fun hend => Activity.noConfusion hend, fun _ => hempty hpiece, fun _ => ⟨hordered.begun, hmore⟩⟩
  · rw [hpull]
    have hwritten := houtput.trans (congrArg (s.output ++ ·) hpiece)
    -- a fault ends the session, whatever its link is
    have hfault : Activity.over (.error f) ≠ .over (.ok ()) := by simp
    exact ⟨fun hover => Bool.noConfusion hover, ⟨_, hnext⟩, ⟨_, hnext⟩, hwritten, rfl, hordered,
      fun hover => Bool.noConfusion hover, fun hend => absurd hend hfault,
      fun hend => Bool.noConfusion hend, fun hend => Bool.noConfusion hend⟩
  · rw [hpull]
    exact ⟨fun _ => hnow, ⟨_, hnext⟩, ⟨_, hnext⟩, houtput, rfl, hordered, fun _ => h.closed hopen,
      fun hend => Activity.noConfusion hend, fun hend => Bool.noConfusion hend,
      fun hend => Bool.noConfusion hend⟩

/-- **What histories keep.** -/
theorem History.kept (hmux : c.link.mux = .initial) (hlive : c.link.status = .live)
    (h : History env sizes c s a) : Kept s a := by
  induction h with
  | start => exact .start hmux hlive
  | read h hs t slice marks hmarks ih =>
    obtain ⟨cause, harrive⟩ := arrive_bytes (env.moved t) hs slice
    rw [harrive]
    exact (ih.mark hmarks rfl).flush hs cause
  | wake h hs t ih =>
    rw [arrive_nothing hs]
    exact ih.flush hs none
  | pull h hs t ih => exact ih.pull hs t
  | write h hs t ih =>
    rw [write_ok hs]
    refine ih.congr (fun _ => ⟨isOver_eq_false hs (by exact nofun), rfl⟩) ?_ (fun hend => nomatch hend)
      fun hend => nomatch hend
    -- the piece joins the output
    unfold piece output
    rw [hs]
    simp
  | @check s a h hs t ih =>
    have hpiece := piece_eq_nil hs (by exact nofun)
    have hopen := isOver_eq_false hs (by exact nofun)
    have hflushed : s.hasFlushed = true := by
      unfold hasFlushed
      rw [hs]
    rw [check_checking hs]
    split
    · rename_i hclosed
      refine ih.congr (fun hover => (nomatch hover)) ?_ (fun _ => (ih.closed hopen).1 hclosed)
        fun _ => hflushed
      rw [hpiece]
      rfl
    · refine ih.congr (fun _ => ⟨hopen, rfl⟩) ?_ (fun hend => nomatch hend)
        fun hend => nomatch hend
      rw [hpiece]
      rfl
  | act h x ih => exact ih.mark (Link.act_eq_markAll _ x).symm rfl
  | @queue s a h p ih =>
    have hlink : s.connection.link.markAll [.queued p] = s.connection.link.mark (.queued p) := rfl
    exact ih.mark hlink rfl

/-- **Closing a session loses nothing that the worker has seen.** Take any steps of the worker and
of those who hold the link, in any order, that end with the session over because its link was
closed. They can be accounted for, and by any account of them:

* the last piece was taken out after the worker had begun to flush for the last time;
* the output is raw bytes and parcels. On each chunk stream the messages whose parcels are complete
  have come with their whole payload. They are those that were queued before the last piece was taken
  out, in that order, but for those that were dropped by then;
* in particular they are all that was queued when the worker began to flush for the last time and,
  where the link was closed before the last piece was taken out, all that was queued when it was
  closed, but for those that were dropped. -/
theorem written_of_over {id : Nat} {terms : Terms} {served : σ}
    (h : Relation.ReflTransGen (Step env sizes) (start (.initial id terms served)) s)
    (hover : s.activity = .over (.ok ())) :
    (∃ a, History env sizes (.initial id terms served) s a) ∧
      ∀ a, History env sizes (.initial id terms served) s a →
        (a.begun.Precedes a.last ∧ a.begun.outputs.length < a.last.outputs.length) ∧
        ∃ closing, a.closing = some closing ∧ (closing.Precedes a.last ∨ a.last.Precedes closing) ∧
        ∃ shipments : List Shipment, s.output = shipments.flatMap Shipment.bytes ∧
          ∀ c, let written := (receipt shipments c).packets
            (receipt shipments c).Whole ∧ written.Sublist (a.last.queued c) ∧
              (written ++ a.last.dropped c).Perm (a.last.queued c) ∧
              (a.begun.queued c).Subperm (written ++ a.last.dropped c) ∧
              (closing.Precedes a.last →
                (closing.queued c).Subperm (written ++ a.last.dropped c)) := by
  refine ⟨exists_history h, fun a hhistory => ?_⟩
  have hkept := hhistory.kept rfl rfl
  have hflushed : s.hasFlushed = true := by
    unfold hasFlushed
    rw [hover]
  obtain ⟨hbegun, hmore⟩ := hkept.flushed hflushed
  obtain ⟨closing, hclosing⟩ := Option.isSome_iff_exists.1 (hkept.found hover)
  obtain ⟨shipments, hshipped⟩ := hkept.lastShipped
  have hdata := hkept.settled hflushed
  refine ⟨⟨hbegun, hmore⟩, closing, hclosing, (hkept.ordered.closing closing hclosing).2, shipments,
    ?_, fun c => ?_⟩
  · have houtput := hkept.output
    rw [piece_eq_nil hover (by exact nofun), List.append_nil] at houtput
    rw [← houtput, hshipped.outputs]
  · obtain ⟨hinOrder, hcomplete⟩ := hshipped.settled hdata c
    -- what was queued earlier is among what was queued by then
    have hearlier : ∀ r : Run, r.Precedes a.last →
        (r.queued c).Subperm ((receipt shipments c).packets ++ a.last.dropped c) :=
      fun r hr => (hr.queued c).sublist.subperm.trans hcomplete.symm.subperm
    exact ⟨hshipped.whole c, hinOrder, hcomplete, hearlier _ hbegun, hearlier closing⟩

/-! ### Two runs -/

/-- A message of two bytes is sent and the link is closed, which wakes the worker. The message goes
out. -/
theorem written_of_over_sent :
    let env : Environment Unit := ⟨.silent Unit, .seeded 0, ⟨0, 0⟩⟩
    let sizes : BufferSizes := ⟨64, 0⟩
    let p : Packet := .ofPayload 7 8 1 4 [0xaf, 1]
    let sent := (start (.initial 1 .standard ())).act (.send p)
    let begun := (sent.act .close).arrive env .nothing
    let flushed := ((begun.pull env sizes).write env (.ok ())).pull env sizes
    let s := flushed.check env
    Relation.ReflTransGen (Step env sizes) (start (.initial 1 .standard ())) s ∧
      s.activity = .over (.ok ()) ∧
        ∃ shipments : List Shipment, s.output = shipments.flatMap Shipment.bytes ∧
          (receipt shipments 4).Whole ∧ (receipt shipments 4).packets = [p] := by
  intro env sizes p sent begun flushed s
  have hbegun : begun.activity = .flushing none := rfl
  obtain ⟨hpiece, hwritten, hflushed, hover⟩ :
      (begun.pull env sizes).activity = .writing (begun.pull env sizes).piece none ∧
      ((begun.pull env sizes).write env (.ok ())).activity = .flushing none ∧
      flushed.activity = .checking ∧ s.activity = .over (.ok ()) := by decide +kernel
  have hsteps : Relation.ReflTransGen (Step env sizes) (start (.initial 1 .standard ())) s :=
    .head (.act (.send p)) (.head (.act .close) (.head (.wake rfl ⟨0, 0⟩)
      (.head (.pull hbegun ⟨0, 0⟩) (.head (.write hpiece ⟨0, 0⟩) (.head (.pull hwritten ⟨0, 0⟩)
        (.single (.check hflushed ⟨0, 0⟩)))))))
  -- the same steps with their account
  let closing : Run := .markAll .initial [.queued p]
  let first := closing.serialize 0 (begun.budget sizes)
  let last := first.serialize 0 (((begun.pull env sizes).write env (.ok ())).budget sizes)
  have hfirst : History env sizes (.initial 1 .standard ()) (begun.pull env sizes)
      ⟨first, closing, first, some closing⟩ :=
    (((History.start.act (.send p)).act .close).wake rfl ⟨0, 0⟩).pull hbegun ⟨0, 0⟩
  have hlast : History env sizes (.initial 1 .standard ()) flushed
      ⟨last, closing, last, some closing⟩ :=
    (hfirst.write hpiece ⟨0, 0⟩).pull hwritten ⟨0, 0⟩
  have hearlier : closing.Precedes last :=
    (closing.precedes_serialize _ _).trans (first.precedes_serialize _ _)
  obtain ⟨hclosing, hqueued, hdropped⟩ : closing.queued 4 = [p] ∧ last.queued 4 = [p] ∧
      last.dropped 4 = [] := by decide +kernel
  obtain ⟨-, haccounts⟩ := written_of_over hsteps hover
  obtain ⟨-, r, hr, -, shipments, houtput, hstreams⟩ := haccounts _ (hlast.check hflushed ⟨0, 0⟩)
  obtain rfl : closing = r := Option.some.inj hr
  obtain ⟨hwhole, hinOrder, -, -, hsent⟩ := hstreams 4
  -- what was sent before the link was closed is written, since nothing was dropped
  have hmem := (hsent hearlier).subset (hclosing ▸ List.mem_singleton_self p)
  rw [hdropped, List.append_nil] at hmem
  rw [hqueued] at hinOrder
  refine ⟨hsteps, hover, shipments, houtput, hwhole, ?_⟩
  exact hinOrder.eq_of_length_le (List.length_pos_of_mem hmem)

/-- A service that confirms a publisher, and closes the link on a command that it does not know. It
notes whether the confirmation was queued, and that it has closed the link. -/
def confirming : Service (List Bool) :=
  { Service.silent (List Bool) with
    publish := fun stream _ => do
      let sent ← Hook.sendStatus stream "status" "NetStream.Publish.Start" "publishing"
      Hook.modify (· ++ [sent.toBool])
      return sent
    command := fun _ _ => do
      Hook.modify (· ++ [false])
      Hook.perform .close
      return .ok () }

/-- Bytes that no tail of `l` starts with are no part of it. -/
theorem not_isInfix_of_tails {part l : List UInt8}
    (h : (l.tails.all fun t => !part.isPrefixOf t) = true) : ¬ part <:+: l := by
  intro hinfix
  obtain ⟨t, hstart, hend⟩ := List.infix_iff_prefix_suffix.1 hinfix
  have hnot := List.all_eq_true.1 h t ((List.mem_tails t l).2 hend)
  rw [List.isPrefixOf_iff_prefix.2 hstart] at hnot
  cases hnot

/-- **Messages that are not written.** A peer connects, creates two streams, publishes on the first
one and deletes it, and sends a command on the second one, on which the service closes the link. The
confirmation was queued before that, but what is queued for a deleted stream is dropped. And where a
message is queued and the link is closed after the worker has found nothing to send, but before it
looks whether the link was closed, the session is over with that message unwritten. -/
theorem unwritten_of_over :
    let env : Environment (List Bool) := ⟨confirming, .seeded 0, ⟨0, 0⟩⟩
    let sizes : BufferSizes := ⟨65536, 65536⟩
    let c : Connection (List Bool) := .initial 1 .standard []
    let hello : List UInt8 := 3 :: List.replicate 3072 0
    let commands : List UInt8 := [3, 0, 0, 0, 0, 0, 32, 20, 0, 0, 0, 0,
      2, 0, 7, 99, 111, 110, 110, 101, 99, 116, 0, 63, 240, 0, 0, 0, 0, 0, 0,
      3, 0, 3, 97, 112, 112, 2, 0, 1, 97, 0, 0, 9, 3, 0, 0, 0, 0, 0, 25, 20, 0, 0, 0, 0,
      2, 0, 12, 99, 114, 101, 97, 116, 101, 83, 116, 114, 101, 97, 109,
      0, 64, 0, 0, 0, 0, 0, 0, 0, 5,
      3, 0, 0, 0, 0, 0, 25, 20, 0, 0, 0, 0,
      2, 0, 12, 99, 114, 101, 97, 116, 101, 83, 116, 114, 101, 97, 109,
      0, 64, 0, 0, 0, 0, 0, 0, 0, 5,
      3, 0, 0, 0, 0, 0, 24, 20, 1, 0, 0, 0,
      2, 0, 7, 112, 117, 98, 108, 105, 115, 104, 0, 0, 0, 0, 0, 0, 0, 0, 0, 5, 2, 0, 1, 120,
      3, 0, 0, 0, 0, 0, 34, 20, 0, 0, 0, 0,
      2, 0, 12, 100, 101, 108, 101, 116, 101, 83, 116, 114, 101, 97, 109,
      0, 0, 0, 0, 0, 0, 0, 0, 0, 5,
      0, 63, 240, 0, 0, 0, 0, 0, 0, 3, 0, 0, 0, 0, 0, 17, 20, 2, 0, 0, 0,
      2, 0, 4, 115, 116, 111, 112, 0, 0, 0, 0, 0, 0, 0, 0, 0, 5]
    let read := (start c).arrive env (.bytes (hello ++ commands))
    let written := (read.pull env sizes).write env (.ok ())
    let s := (written.pull env sizes).check env
    let status := Packet.ofCommand 0 1
      (.onStatus "status" "NetStream.Publish.Start" "publishing")
    let p : Packet := .ofPayload 0 9 1 5 [0x17]
    let idle := ((start c).arrive env .nothing).pull env sizes
    let raced := ((idle.act (.send p)).act .close).check env
    (Relation.ReflTransGen (Step env sizes) (start c) s ∧ s.activity = .over (.ok ()) ∧
      s.connection.served = [true, false] ∧
        ∃ q, status = .ok q ∧ q.payload.length = 99 ∧ ¬ q.payload <:+: s.output) ∧
    Relation.ReflTransGen (Step env sizes) (start c) raced ∧ raced.activity = .over (.ok ()) ∧
      (idle.connection.link.send p).toBool = true ∧ raced.output = [] := by
  intro env sizes c hello commands read written s status p idle raced
  -- the first run is evaluated once for all that is to be seen of it
  have hrun : read.activity = .flushing none ∧
      (read.pull env sizes).activity = .writing (read.pull env sizes).piece none ∧
      written.activity = .flushing none ∧ (written.pull env sizes).activity = .checking ∧
      s.activity = .over (.ok ()) ∧ s.connection.served = [true, false] ∧
      (status.toOption.map fun q =>
        (q.payload.length, s.output.tails.all fun t => !q.payload.isPrefixOf t))
          = some (99, true) := by
    decide +kernel
  obtain ⟨hread, hpiece, hwritten, hchecking, hover, hserved, hunwritten⟩ := hrun
  have hsteps : Relation.ReflTransGen (Step env sizes) (start c) s :=
    .head (.read rfl ⟨0, 0⟩ _) (.head (.pull hread ⟨0, 0⟩) (.head (.write hpiece ⟨0, 0⟩)
      (.head (.pull hwritten ⟨0, 0⟩) (.single (.check hchecking ⟨0, 0⟩)))))
  have hstatus : ∃ q, status = .ok q ∧ q.payload.length = 99 ∧ ¬ q.payload <:+: s.output := by
    obtain ⟨q, hq, hseen⟩ := Option.map_eq_some_iff.1 hunwritten
    obtain ⟨hlen, htails⟩ := Prod.mk.inj hseen
    refine ⟨q, ?_, hlen, not_isInfix_of_tails htails⟩
    cases hmade : status with
    | ok q' => exact congrArg _ (Option.some.inj ((congrArg Except.toOption hmade).symm.trans hq))
    | error f => exact absurd ((congrArg Except.toOption hmade).symm.trans hq) (by exact nofun)
  have hidle : ((idle.act (.send p)).act .close).activity = .checking := by decide +kernel
  have hraced : Relation.ReflTransGen (Step env sizes) (start c) raced :=
    .head (.wake rfl ⟨0, 0⟩) (.head (.pull rfl ⟨0, 0⟩) (.head (.act (.send p)) (.head (.act .close)
      (.single (.check hidle ⟨0, 0⟩)))))
  exact ⟨⟨hsteps, hover, hserved, hstatus⟩, hraced, by decide +kernel, by decide +kernel,
    by decide +kernel⟩

end Session

end LiveIngest
