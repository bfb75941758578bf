import Mathlib.Logic.Relation
import LiveIngest.Connection.Basic

/-!
# Parts of what a connection does

Two ways to say what a part does, each with one lemma for each way of putting parts together, such
as `bind`, `tryCatch` and `forM`.

* A part **respects** a relation if, from related connections, it has equal outcomes and leads to
  related connections again (`Handling.Respects`).
* A part **leads** from a connection by steps if it changes the connection by a chain of them, and
  what it fails with is as wanted (`Handling.Leads`).
-/

namespace LiveIngest

namespace Handling

variable {σ α β : Type}

def Agree (R : Connection σ → Connection σ → Prop) (out out' : Except Fault α × Connection σ) :
    Prop :=
  out'.1 = out.1 ∧ R out.2 out'.2

/-- From related connections, the part has equal outcomes and leads to related connections. -/
def Respects (R : Connection σ → Connection σ → Prop) (x : Handling σ α) : Prop :=
  ∀ ⦃c c'⦄, R c c' → Agree R (x c) (x c')

variable {R : Connection σ → Connection σ → Prop}

theorem Respects.pure (a : α) : Respects R (pure a : Handling σ α) :=
  fun _ _ h => ⟨rfl, h⟩

theorem Respects.throw (f : Fault) : Respects R (throw f : Handling σ α) :=
  fun _ _ h => ⟨rfl, h⟩

/-- A part that follows another one is left out when that one fails. -/
theorem bind_apply (x : Handling σ α) (f : α → Handling σ β) (c : Connection σ) :
    (x >>= f) c = match x c with
      | (.ok a, d) => f a d
      | (.error e, d) => (.error e, d) := by
  show (match x c with | (a, d) => ExceptT.bindCont f a d) = _
  rcases x c with ⟨a | a, d⟩ <;> rfl

/-- Looking at the connection changes nothing. -/
theorem get_apply (c : Connection σ) : (get : Handling σ (Connection σ)) c = (.ok c, c) := rfl

/-- What a part did before it failed stays done when the failure is handled. -/
theorem tryCatch_apply (x : Handling σ α) (f : Fault → Handling σ α) (c : Connection σ) :
    (tryCatch x f) c = match x c with
      | (.ok a, d) => (.ok a, d)
      | (.error e, d) => f e d := by
  simp only [tryCatch, tryCatchThe, MonadExceptOf.tryCatch, ExceptT.tryCatch, ExceptT.mk, bind,
    StateT.bind]
  rcases x c with ⟨a | a, d⟩ <;> rfl

/-- One part after the other: what the first one answers is the same on both sides. -/
theorem Agree.bind {x y : Handling σ α} {f g : α → Handling σ β} {c c' : Connection σ}
    (hx : Agree R (x c) (y c'))
    (hf : ∀ a d d', R d d' → Agree R (f a d) (g a d')) : Agree R ((x >>= f) c) ((y >>= g) c') := by
  obtain ⟨hanswer, hrelated⟩ := hx
  rw [bind_apply, bind_apply]
  -- both fail with one fault, or both go on with one answer
  rcases hxc : x c with ⟨a | a, d⟩ <;> rcases hyc : y c' with ⟨a' | a', d'⟩ <;>
    rw [hxc, hyc] at hanswer hrelated
  · rw [Except.error.inj hanswer]
    exact ⟨rfl, hrelated⟩
  · exact absurd hanswer (by exact nofun)
  · exact absurd hanswer (by exact nofun)
  · rw [Except.ok.inj hanswer]
    exact hf a d d' hrelated

/-- What is respected part by part is respected. -/
theorem Respects.bind {x : Handling σ α} {f : α → Handling σ β} (hx : Respects R x)
    (hf : ∀ a, Respects R (f a)) : Respects R (x >>= f) :=
  fun _ _ h => (hx h).bind fun a _ _ h => hf a h

/-- A part that looks at the connection first. -/
theorem Respects.get_bind {f : Connection σ → Handling σ β}
    (hf : ∀ ⦃c c'⦄, R c c' → Agree R (f c c) (f c' c')) : Respects R (get >>= f) :=
  fun _ _ h => hf h

/-- A change is respected if it leads from related connections to related ones. -/
theorem Respects.modify {f : Connection σ → Connection σ} (hf : ∀ ⦃c c'⦄, R c c' → R (f c) (f c')) :
    Respects R (modify f : Handling σ PUnit) :=
  fun _ _ h => ⟨rfl, hf h⟩

/-- A fault that is caught is the same on both sides. -/
theorem Respects.tryCatch {x : Handling σ α} {f : Fault → Handling σ α} (hx : Respects R x)
    (hf : ∀ e, Respects R (f e)) : Respects R (MonadExcept.tryCatch x f) := by
  intro c c' h
  obtain ⟨hanswer, hrelated⟩ := hx h
  rw [tryCatch_apply, tryCatch_apply]
  -- a fault is handled on both sides or on neither
  rcases hxc : x c with ⟨a | a, d⟩ <;> rcases hyc : x c' with ⟨a' | a', d'⟩ <;>
    rw [hxc, hyc] at hanswer hrelated
  · rw [Except.error.inj hanswer]
    exact hf a hrelated
  · exact absurd hanswer (by exact nofun)
  · exact absurd hanswer (by exact nofun)
  · exact ⟨hanswer, hrelated⟩

/-- One after the other, by induction on the list. -/
theorem Respects.forM {f : β → Handling σ PUnit} (hf : ∀ b, Respects R (f b)) (bs : List β) :
    Respects R (bs.forM f) := by
  induction bs with
  | nil => exact Respects.pure _
  | cons b rest ih => exact (hf b).bind fun _ => ih

theorem Respects.ite {p : Prop} [Decidable p] {x y : Handling σ α} (hx : Respects R x)
    (hy : Respects R y) : Respects R (if p then x else y) := by
  split
  · exact hx
  · exact hy

/-! ### Chains of steps -/

/-- What every step keeps holds along chains of steps. -/
theorem chain_induction {G : Connection σ → Connection σ → Prop} {I : Connection σ → Prop}
    (h : ∀ c d, I c → G c d → I d) {c d : Connection σ} (hc : I c)
    (hcd : Relation.ReflTransGen G c d) : I d := by
  induction hcd with
  | refl => exact hc
  | tail _ hlast ih => exact h _ _ ih hlast

/-- From the connection the part makes a chain of steps, and the faults that it fails with are as
`F` says of where it led. -/
def Leads (G : Connection σ → Connection σ → Prop) (F : Fault → Connection σ → Prop)
    (c : Connection σ) (x : Handling σ α) : Prop :=
  Relation.ReflTransGen G c (x c).2 ∧ ∀ f, (x c).1 = .error f → F f (x c).2

section Leads

variable {G : Connection σ → Connection σ → Prop} {F : Fault → Connection σ → Prop}
  {c d : Connection σ}

/-- What a part leads to, once its outcome is known. -/
theorem Leads.steps {x : Handling σ α} (hx : Leads G F c x) {out : Except Fault α × Connection σ}
    (h : x c = out) : Relation.ReflTransGen G c out.2 := by
  rw [← h]
  exact hx.1

theorem Leads.pure (a : α) : Leads G F c (pure a : Handling σ α) :=
  ⟨.refl, fun _ h => by cases h⟩

/-- A fault is thrown where it may be. -/
theorem Leads.throw {f : Fault} (h : F f c) : Leads G F c (throw f : Handling σ α) := by
  refine ⟨.refl, fun e he => ?_⟩
  rw [← Except.error.inj he]
  exact h

/-- A part that begins with steps, and does behind them what another part does. -/
theorem Leads.behind {x y : Handling σ α} (hxy : x c = y d) (hcd : Relation.ReflTransGen G c d)
    (hy : Leads G F d y) : Leads G F c x := by
  unfold Leads
  rw [hxy]
  exact ⟨hcd.trans hy.1, hy.2⟩

theorem Leads.modify {f : Connection σ → Connection σ} (h : G c (f c)) :
    Leads G F c (modify f : Handling σ PUnit) :=
  ⟨.single h, fun _ he => by cases he⟩

theorem Leads.set (h : G c d) : Leads G F c (set d : Handling σ PUnit) :=
  ⟨.single h, fun _ he => by cases he⟩

/-- A part that looks at the connection first. -/
theorem Leads.get_bind {f : Connection σ → Handling σ α} (h : Leads G F c (f c)) :
    Leads G F c (get >>= f) :=
  .behind (by rw [bind_apply, get_apply]) .refl h

/-- A part that follows another one starts where that one led. -/
theorem Leads.bind {x : Handling σ α} {f : α → Handling σ β} (hx : Leads G F c x)
    (hf : ∀ a d, x c = (.ok a, d) → Leads G F d (f a)) : Leads G F c (x >>= f) := by
  obtain ⟨hsteps, hfault⟩ := hx
  unfold Leads
  rw [bind_apply]
  rcases hxc : x c with ⟨e | a, d⟩ <;> rw [hxc] at hsteps hfault
  · exact ⟨hsteps, fun f hf => hfault f (congrArg Except.error (Except.error.inj hf))⟩
  · exact ⟨hsteps.trans (hf a d hxc).1, (hf a d hxc).2⟩

/-- A fault that is handled need not be as wanted. -/
theorem Leads.tryCatch {F' : Fault → Connection σ → Prop} {x : Handling σ α}
    {h : Fault → Handling σ α} (hx : Leads G F' c x)
    (hh : ∀ f d, F' f d → Leads G F d (h f)) : Leads G F c (MonadExcept.tryCatch x h) := by
  obtain ⟨hsteps, hfault⟩ := hx
  unfold Leads
  rw [tryCatch_apply]
  rcases hxc : x c with ⟨e | a, d⟩ <;> rw [hxc] at hsteps hfault
  · exact ⟨hsteps.trans (hh e d (hfault e rfl)).1, (hh e d (hfault e rfl)).2⟩
  · exact ⟨hsteps, fun _ he => by cases he⟩

/-- One after the other, up to the part that fails. -/
theorem Leads.forM {f : β → Handling σ PUnit} (hf : ∀ b c, Leads G F c (f b)) (bs : List β) :
    Leads G F c (bs.forM f) := by
  induction bs generalizing c with
  | nil => exact Leads.pure _
  | cons b rest ih => exact (hf b c).bind fun _ _ _ => ih

/-- Each step may be told in steps of another kind, and each fault in another way. -/
theorem Leads.imp {G' : Connection σ → Connection σ → Prop} {F' : Fault → Connection σ → Prop}
    {x : Handling σ α} (hx : Leads G F c x) (hG : ∀ c d, G c d → G' c d)
    (hF : ∀ f d, F f d → F' f d) : Leads G' F' c x :=
  ⟨Relation.ReflTransGen.mono hG _ _ hx.1, fun f hf => hF _ _ (hx.2 f hf)⟩

end Leads

end Handling

/-! ### Sending -/

/-- Of a live link, what is queued for a stream can be dropped. -/
theorem Link.reset_of_live {l : Link} (h : l.status = .live) (stream : UInt32) :
    l.reset stream = .ok ({ l with mux := (l.mux.reset stream).1 }, (l.mux.reset stream).2) := by
  unfold reset check
  rw [h]
  rfl

/-- A link that is not live refuses to drop anything. -/
theorem Link.exists_error_reset {l : Link} (h : l.status ≠ .live) (stream : UInt32) :
    ∃ f, l.reset stream = .error f := by
  unfold reset check
  cases hstatus : l.status with
  | live => exact absurd hstatus h
  | closed | gone => exact ⟨_, rfl⟩

namespace Connection

open Handling

variable {σ : Type}

/-- Sending a message over a link without a fault. -/
theorem send_of_none {c : Connection σ} (h : c.link.status.fault? c.link.id = none) (p : Packet) :
    send p c = (.ok (), { c with link := { c.link with mux := c.link.mux.enqueue p } }) := by
  -- the link takes the message, since nothing is wrong with it
  have hsend : c.link.send p = .ok { c.link with mux := c.link.mux.enqueue p } := by
    unfold Link.send Link.check
    rw [h]
    rfl
  unfold send
  rw [bind_apply, get_apply]
  dsimp only
  rw [hsend]
  rfl

/-- What keeps a message from being sent is the fault of sending it. -/
theorem send_of_some {c : Connection σ} {f : Fault} (h : c.link.status.fault? c.link.id = some f)
    (p : Packet) : send p c = (.error f, c) := by
  have hsend : c.link.send p = .error f := by
    unfold Link.send Link.check
    rw [h]
    rfl
  unfold send
  rw [bind_apply, get_apply]
  dsimp only
  rw [hsend]
  rfl

end Connection

end LiveIngest
