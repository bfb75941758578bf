import LiveIngest.Proofs.Connection.Runs

/-!
# What becomes of a link

Whatever a connection does while it takes a slice or ends, its link is changed in four ways only
(`Mark`): messages are queued, those of a message stream are dropped, raw bytes are queued, and the
link is closed. A list of marks tells what became of a link, in order (`Link.Marked`).

Main statements: `marked_parse` and `marked_finish` — what becomes of the link of a connection that
takes a slice, or is finished, can be told in marks.
-/

namespace LiveIngest

variable {σ α : Type}

/-- A change of a link. -/
inductive Mark
  | queued (p : Packet)
  | dropped (streamId : UInt32)
  | raw (bytes : List UInt8)
  | closed
  deriving DecidableEq, Repr

namespace Link

def mark (l : Link) : Mark → Link
  | .queued p => { l with mux := l.mux.enqueue p }
  | .dropped streamId => { l with mux := (l.mux.reset streamId).1 }
  | .raw bytes => l.pushRaw bytes
  | .closed => l.close

def markAll (l : Link) (marks : List Mark) : Link :=
  marks.foldl mark l

/-- Marks lead from one link to the other. -/
def Marked (l l' : Link) : Prop :=
  ∃ marks, l.markAll marks = l'

theorem Marked.refl (l : Link) : l.Marked l :=
  ⟨[], rfl⟩

theorem Marked.mark (l : Link) (m : Mark) : l.Marked (l.mark m) :=
  ⟨[m], rfl⟩

theorem Marked.trans {l l' l'' : Link} (h : l.Marked l') (h' : l'.Marked l'') : l.Marked l'' := by
  obtain ⟨marks, rfl⟩ := h
  obtain ⟨more, rfl⟩ := h'
  exact ⟨marks ++ more, List.foldl_append⟩

/-- The mark that an act leaves, if the link does not refuse it. -/
def markOf (l : Link) : Act → Option Mark
  | .send p => if l.status = .live then some (.queued p) else none
  | .reset streamId => if l.status = .live then some (.dropped streamId) else none
  | .close => some .closed

/-- An act leaves at most one mark: on a link that is not live only closing leaves one. -/
theorem act_eq_markAll (l : Link) (a : Act) : l.act a = l.markAll (l.markOf a).toList := by
  obtain ⟨id, mux, status⟩ := l
  cases status <;> cases a <;> rfl

/-- An act is made up of marks. -/
theorem Marked.act (l : Link) (a : Act) : l.Marked (l.act a) :=
  ⟨_, (l.act_eq_markAll a).symm⟩

/-- The acts of a hook, one after the other. -/
theorem Marked.acts (l : Link) (acts : List Act) : l.Marked (acts.foldl Link.act l) := by
  induction acts generalizing l with
  | nil => exact .refl l
  | cons a rest ih => exact (Marked.act l a).trans (ih _)

end Link

namespace Connection

open Handling

variable {env : Environment σ} {c d : Connection σ}

/-- A hook changes the link by its acts alone. -/
theorem marked_call (env : Environment σ) (h : Hook σ α) (c : Connection σ) :
    c.link.Marked (c.call env h).2.link :=
  .acts _ _

/-- Releasing a stream is made up of marks. -/
theorem marked_release (env : Environment σ) (c : Connection σ) (stream : UInt32) :
    c.link.Marked (c.release env stream).link := by
  unfold release
  dsimp only
  split
  · exact marked_call env _ c
  · exact .refl _

/-- What is sent is queued, or refused. -/
theorem marked_send (c : Connection σ) (p : Packet) : c.link.Marked (send p c).2.link := by
  cases hfault : c.link.status.fault? c.link.id with
  | none =>
    rw [send_of_none hfault]
    exact .mark _ (.queued p)
  | some f =>
    rw [send_of_some hfault]
    exact .refl _

/-- A move of a stream is made up of marks. -/
theorem StreamMove.marked (h : StreamMove env c d) : c.link.Marked d.link := by
  cases h with
  | send _ p _ => exact .mark _ (.queued p)
  | reset _ stream => exact .mark _ (.dropped stream)
  | create | refuse => exact marked_call env _ c.spend
  | release => exact marked_release env c _
  | command => exact marked_call env _ c
  | content => exact marked_call env _ c

/-- While a slice is taken, a link is changed by the handshake, by what is sent and by hooks. -/
theorem Step.marked (h : Step env c d) : c.link.Marked d.link := by
  cases h with
  | shake _ m reply =>
    rw [shaken_eq]
    exact .mark _ (.raw reply)
  | move h =>
    cases h with
    | stream h => exact h.marked
    | obey => exact .refl _
    | announce => exact .refl _
    | accept | reject => exact marked_call env _ c
    | welcome => exact .refl _
    | close => exact .mark _ .closed

/-- An acknowledgement may be queued. -/
theorem marked_acknowledge (n : Nat) (c : Connection σ) :
    c.link.Marked (acknowledge n c).2.link := by
  obtain ⟨total, pending, hack⟩ := acknowledge_apply n c
  rw [hack]
  cases (c.intake.count n).2 with
  | none => exact .refl _
  | some t => exact marked_send (c.masked c.link.mux total pending) _

/-- **What becomes of a link** while its connection takes a slice. -/
theorem marked_parse (env : Environment σ) (slice : List UInt8) (c : Connection σ) :
    c.link.Marked (c.parse env slice).2.link := by
  unfold Connection.parse
  split
  · exact .refl _
  · have hack := marked_acknowledge slice.length c
    -- a link that refuses the acknowledgement ends the call
    rcases hout : acknowledge slice.length c with ⟨f | _, d⟩ <;> rw [hout] at hack
    · exact hack
    · have htaken : d.link.Marked (takeAll env d 0 slice).2.link :=
        chain_induction (I := fun e => d.link.Marked e.link)
          (fun _ _ ih hstep => ih.trans hstep.marked) (.refl _) (steps_takeAll d 0 slice)
      exact hack.trans htaken

end Connection

end LiveIngest
