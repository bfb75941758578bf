import LiveIngest.Connection.Input
import LiveIngest.Proofs.Connection.Handling
import LiveIngest.Proofs.Message.Aggregate

/-!
# What is done with a packet

A packet may be an aggregate, and the messages in it aggregates again. `Connection.Acts` tells level
by level what is done with packets: the messages of an aggregate are gone through where the
aggregate stands, and a fatal fault among them ends all levels at once. What is acted upon on the
way is noted as a list of dispatches, together with what came of each.

`Connection.onPacket` goes through the leaves of a packet instead, without levels. Both come to the
same (`Acts.eq`), so that a fault that is not fatal, an aggregate that is malformed and a message
that cannot be read are confined to where they stand.

Main statement: `acts_onPacket` — what is dispatched for a packet.
-/

namespace LiveIngest

open Handling

variable {σ : Type}

namespace Connection

/-- A message that was acted upon, and what came of it. -/
structure Dispatch where
  message : Message
  result : Except Fault Unit

/-- True when the connection cannot go on. -/
def Dispatch.isFatal (e : Dispatch) : Bool :=
  match e.result with
  | .ok () => false
  | .error f => f.isFatal

variable {env : Environment σ} {p : Packet} {rest : List Packet} {m : Message} {f : Fault}
  {c d : Connection σ} {trace : List Dispatch} {out : Outcome σ Unit}

/-! ### Level by level -/

/-- What is done with packets, one after the other: the messages that are acted upon, and the
outcome. -/
inductive Acts (env : Environment σ) :
    List Packet → Connection σ → List Dispatch → Outcome σ Unit → Prop
  | nil (c : Connection σ) : Acts env [] c [] (.ok (), c)
  /-- An aggregate is gone through before what follows it. -/
  | aggregate {p : Packet} {parts rest : List Packet} {c d : Connection σ}
      {trace trace' : List Dispatch} {out : Outcome σ Unit} (hp : p.isAggregate = true)
      (hsplit : p.split = .ok parts) (hparts : Acts env parts c trace (.ok (), d))
      (h : Acts env rest d trace' out) : Acts env (p :: rest) c (trace ++ trace') out
  /-- What is fatal inside of an aggregate is fatal outside of it. -/
  | aggregateFatal {p : Packet} {parts rest : List Packet} {c d : Connection σ}
      {trace : List Dispatch} {f : Fault} (hp : p.isAggregate = true)
      (hsplit : p.split = .ok parts) (hparts : Acts env parts c trace (.error f, d)) :
      Acts env (p :: rest) c trace (.error f, d)
  | malformed {p : Packet} {rest : List Packet} {c : Connection σ} {trace : List Dispatch}
      {out : Outcome σ Unit} {f : Fault} (hp : p.isAggregate = true)
      (hsplit : p.split = .error f) (h : Acts env rest c trace out) :
      Acts env (p :: rest) c trace out
  | shared {p : Packet} {rest : List Packet} {c : Connection σ} {trace : List Dispatch}
      {out : Outcome σ Unit} (hkind : p.kind = .sharedObject) (h : Acts env rest c trace out) :
      Acts env (p :: rest) c trace out
  | unreadable {p : Packet} {rest : List Packet} {c : Connection σ} {trace : List Dispatch}
      {out : Outcome σ Unit} {f : Fault} (hp : p.isAggregate = false)
      (hkind : p.kind ≠ .sharedObject) (hm : Message.ofPacket p = .error f)
      (h : Acts env rest c trace out) : Acts env (p :: rest) c trace out
  | message {p : Packet} {rest : List Packet} {c d : Connection σ} {trace : List Dispatch}
      {out : Outcome σ Unit} {m : Message} {result : Except Fault Unit}
      (hp : p.isAggregate = false) (hkind : p.kind ≠ .sharedObject)
      (hm : Message.ofPacket p = .ok m) (hd : dispatch env m c = (result, d))
      (hmild : Dispatch.isFatal ⟨m, result⟩ = false) (h : Acts env rest d trace out) :
      Acts env (p :: rest) c (⟨m, result⟩ :: trace) out
  /-- Nothing follows a fatal fault. -/
  | fatal {p : Packet} {rest : List Packet} {c d : Connection σ} {m : Message} {f : Fault}
      (hp : p.isAggregate = false) (hkind : p.kind ≠ .sharedObject)
      (hm : Message.ofPacket p = .ok m) (hd : dispatch env m c = (.error f, d))
      (hfatal : f.isFatal = true) : Acts env (p :: rest) c [⟨m, .error f⟩] (.error f, d)

/-- **What is done with packets comes to an end**, since there is a last level. -/
theorem exists_acts {ps inside : List Packet} (h : Packet.Flattens ps inside)
    (env : Environment σ) (c : Connection σ) : ∃ trace out, Acts env ps c trace out := by
  induction h generalizing c with
  | nil => exact ⟨_, _, .nil c⟩
  | @single p rest _ hp _ ih =>
    -- a leaf is a shared object, which nothing reads, or it is read and dispatched
    by_cases hkind : p.kind = .sharedObject
    · obtain ⟨trace, out, hrest⟩ := ih c
      exact ⟨_, _, .shared hkind hrest⟩
    cases hm : Message.ofPacket p with
    | error f =>
      obtain ⟨trace, out, hrest⟩ := ih c
      exact ⟨_, _, .unreadable hp hkind hm hrest⟩
    | ok m =>
      rcases hd : dispatch env m c with ⟨result, d⟩
      -- only a fault can be fatal
      cases hfatal : Dispatch.isFatal ⟨m, result⟩ with
      | false =>
        obtain ⟨trace, out, hrest⟩ := ih d
        exact ⟨_, _, .message hp hkind hm hd hfatal hrest⟩
      | true =>
        rcases result with f | _
        · exact ⟨_, _, .fatal hp hkind hm hd hfatal⟩
        · cases hfatal
  | @malformed p rest _ hp hnone _ ih =>
    cases hsplit : p.split with
    | error f =>
      obtain ⟨trace, out, hrest⟩ := ih c
      exact ⟨_, _, .malformed hp hsplit hrest⟩
    | ok parts =>
      obtain ⟨tags, htags, -⟩ := (Packet.split_eq_ok_iff p parts).1 hsplit
      exact absurd htags (hnone tags)
  | @aggregate p parts rest _ _ hp hparts _ _ ihparts ih =>
    -- inside first: whether anything follows depends on how that ends
    have hsplit := (Packet.split_eq_ok_iff p parts).2 hparts
    obtain ⟨trace, ⟨result, d⟩, hinner⟩ := ihparts c
    rcases result with f | _
    · exact ⟨_, _, .aggregateFatal hp hsplit hinner⟩
    · obtain ⟨trace', out, hrest⟩ := ih d
      exact ⟨_, _, .aggregate hp hsplit hinner hrest⟩

/-! ### Without levels -/

/-- What is acted upon for packets that are no aggregates. -/
def dispatches (env : Environment σ) : List Packet → Connection σ → List Dispatch
  | [], _ => []
  | p :: rest, c =>
    match Message.ofPacket p with
    | .ok m =>
      let (result, d) := dispatch env m c
      if Dispatch.isFatal ⟨m, result⟩ then [⟨m, result⟩] else ⟨m, result⟩ :: dispatches env rest d
    | .error _ => dispatches env rest c

/-- The first leaf is handled first, and a fault of it that is fatal ends them all. -/
theorem onLeaves_cons (env : Environment σ) (p : Packet) (rest : List Packet)
    (c : Connection σ) : (p :: rest).forM (onLeaf env) c =
      match onLeaf env p c with
      | (.ok _, d) => rest.forM (onLeaf env) d
      | (.error f, d) => (.error f, d) := by
  show (onLeaf env p >>= fun _ => rest.forM (onLeaf env)) c = _
  rw [bind_apply]
  rcases onLeaf env p c with ⟨_ | _, d⟩ <;> rfl

/-- A packet that cannot be read is passed over. -/
theorem passes_of_error (hm : Message.ofPacket p = .error f) :
    (p :: rest).forM (onLeaf env) c = rest.forM (onLeaf env) c ∧
      dispatches env (p :: rest) c = dispatches env rest c := by
  rw [onLeaves_cons, onLeaf, dispatches, hm]
  exact ⟨rfl, rfl⟩

/-- What is not fatal is followed by the rest. -/
theorem passes_of_mild {result : Except Fault Unit} (hm : Message.ofPacket p = .ok m)
    (hd : dispatch env m c = (result, d)) (hmild : Dispatch.isFatal ⟨m, result⟩ = false) :
    (p :: rest).forM (onLeaf env) c = rest.forM (onLeaf env) d ∧
      dispatches env (p :: rest) c = ⟨m, result⟩ :: dispatches env rest d := by
  rw [onLeaves_cons, onLeaf, dispatches, hm]
  dsimp only
  rw [tryCatch_apply, hd]
  dsimp only
  rw [hmild]
  refine ⟨?_, rfl⟩
  rcases result with f | _
  · have hf : f.isFatal = false := hmild
    dsimp only
    rw [hf]
    rfl
  · rfl

/-- A fatal fault is the last thing that is dispatched. -/
theorem ends_of_fatal (hm : Message.ofPacket p = .ok m)
    (hd : dispatch env m c = (.error f, d)) (hfatal : f.isFatal = true) :
    (p :: rest).forM (onLeaf env) c = (.error f, d) ∧
      dispatches env (p :: rest) c = [⟨m, .error f⟩] := by
  rw [onLeaves_cons, onLeaf, dispatches, hm]
  dsimp only
  rw [tryCatch_apply, hd]
  dsimp only
  rw [show Dispatch.isFatal ⟨m, .error f⟩ = true from hfatal, hfatal]
  exact ⟨rfl, rfl⟩

/-- Leaves are handled one part after the other. -/
theorem forM_onLeaf_append (env : Environment σ) (ps qs : List Packet) (c : Connection σ) :
    (ps ++ qs).forM (onLeaf env) c =
      match ps.forM (onLeaf env) c with
      | (.ok _, d) => qs.forM (onLeaf env) d
      | (.error f, d) => (.error f, d) := by
  induction ps generalizing c with
  | nil => rfl
  | cons p rest ih =>
    rw [List.cons_append, onLeaves_cons, onLeaves_cons]
    rcases onLeaf env p c with ⟨f | _, d⟩
    · rfl
    · exact ih d

/-- The dispatches of two parts, the second from where the first one left the connection. -/
theorem dispatches_append (env : Environment σ) (ps qs : List Packet) (c : Connection σ) :
    dispatches env (ps ++ qs) c =
      match ps.forM (onLeaf env) c with
      | (.ok _, d) => dispatches env ps c ++ dispatches env qs d
      | (.error _, _) => dispatches env ps c := by
  -- on the first part; what is fatal in it cuts off the second
  induction ps generalizing c with
  | nil => rfl
  | cons p rest ih =>
    rw [List.cons_append]
    cases hm : Message.ofPacket p with
    | error f =>
      rw [(passes_of_error hm).2, (passes_of_error hm).2, (passes_of_error hm).1]
      exact ih c
    | ok m =>
      rcases hd : dispatch env m c with ⟨result, d⟩
      cases hfatal : Dispatch.isFatal ⟨m, result⟩ with
      | false =>
        rw [(passes_of_mild hm hd hfatal).2, (passes_of_mild hm hd hfatal).2,
          (passes_of_mild hm hd hfatal).1, ih d]
        rcases rest.forM (onLeaf env) d with ⟨f | _, e⟩ <;> rfl
      | true =>
        rcases result with f | _
        · rw [(ends_of_fatal hm hd hfatal).2, (ends_of_fatal hm hd hfatal).2,
            (ends_of_fatal hm hd hfatal).1]
        · cases hfatal

/-- **Both come to the same**: what is done level by level, and what is done with the leaves. -/
theorem Acts.eq {ps : List Packet} (h : Acts env ps c trace out) :
    trace = dispatches env (ps.flatMap Packet.leaves) c ∧
      out = (ps.flatMap Packet.leaves).forM (onLeaf env) c := by
  -- along the derivation; inside of an aggregate the dispatches of its leaves come first
  induction h with
  | nil => exact ⟨rfl, rfl⟩
  | @aggregate p parts rest c d trace trace' out hp hsplit _ _ ihparts ih =>
    obtain ⟨htrace, hout⟩ := ihparts
    rw [List.flatMap_cons, Packet.leaves_of_split hp hsplit, dispatches_append,
      forM_onLeaf_append, ← hout, htrace, ih.1, ih.2]
    exact ⟨rfl, rfl⟩
  | @aggregateFatal p parts rest c d trace f hp hsplit _ ihparts =>
    obtain ⟨htrace, hout⟩ := ihparts
    rw [List.flatMap_cons, Packet.leaves_of_split hp hsplit, dispatches_append,
      forM_onLeaf_append, ← hout, htrace]
    exact ⟨rfl, rfl⟩
  | malformed hp hsplit _ ih =>
    rw [List.flatMap_cons, Packet.leaves_of_split_error hp hsplit, List.nil_append]
    exact ih
  | @shared p rest c trace out hkind _ ih =>
    have hp : p.isAggregate = false := by
      unfold Packet.isAggregate
      rw [hkind]
      rfl
    -- a shared object is passed over like a message that cannot be read
    have hm : ∃ f, Message.ofPacket p = .error f := by
      unfold Message.ofPacket
      rw [hkind]
      exact ⟨_, rfl⟩
    obtain ⟨f, hm⟩ := hm
    rw [List.flatMap_cons, Packet.leaves_of_not_isAggregate hp, List.singleton_append,
      (passes_of_error hm).1, (passes_of_error hm).2]
    exact ih
  | unreadable hp hkind hm _ ih =>
    rw [List.flatMap_cons, Packet.leaves_of_not_isAggregate hp, List.singleton_append,
      (passes_of_error hm).1, (passes_of_error hm).2]
    exact ih
  | message hp hkind hm hd hmild _ ih =>
    rw [List.flatMap_cons, Packet.leaves_of_not_isAggregate hp, List.singleton_append,
      (passes_of_mild hm hd hmild).1, (passes_of_mild hm hd hmild).2, ih.1, ih.2]
    exact ⟨rfl, rfl⟩
  | fatal hp hkind hm hd hfatal =>
    rw [List.flatMap_cons, Packet.leaves_of_not_isAggregate hp, List.singleton_append,
      (ends_of_fatal hm hd hfatal).1, (ends_of_fatal hm hd hfatal).2]
    exact ⟨rfl, rfl⟩

/-! ### What is dispatched -/

/-- The messages that packets can be read as. Shared objects are not read. -/
def readable (packets : List Packet) : List Message :=
  (packets.filter fun p => p.kind ≠ .sharedObject).filterMap fun p =>
    match Message.ofPacket p with
    | .ok m => some m
    | .error _ => none

/-- What cannot be read is passed over. -/
theorem readable_cons_of_error (hm : Message.ofPacket p = .error f) :
    readable (p :: rest) = readable rest := by
  unfold readable
  rw [List.filter_cons]
  split
  · rw [List.filterMap_cons, hm]
  · rfl

/-- What can be read comes in its place. -/
theorem readable_cons_of_ok (hm : Message.ofPacket p = .ok m) :
    readable (p :: rest) = m :: readable rest := by
  have hkind : p.kind ≠ .sharedObject := by
    intro hkind
    unfold Message.ofPacket at hm
    rw [hkind] at hm
    cases hm
  unfold readable
  rw [List.filter_cons_of_pos (by simpa using hkind), List.filterMap_cons, hm]

/-- **What is dispatched** for packets that are no aggregates: every message that can be read, or
those up to the first one with a fatal fault. -/
theorem dispatches_cases (env : Environment σ) (ps : List Packet) (c : Connection σ) :
    ((∀ e ∈ dispatches env ps c, e.isFatal = false) ∧
        (dispatches env ps c).map Dispatch.message = readable ps ∧
        (ps.forM (onLeaf env) c).1 = .ok ()) ∨
      ∃ before e, dispatches env ps c = before ++ [e] ∧ (∀ e' ∈ before, e'.isFatal = false) ∧
        e.isFatal = true ∧ (dispatches env ps c).map Dispatch.message <+: readable ps ∧
        (ps.forM (onLeaf env) c).1 = e.result := by
  -- on the leaves; the first one that is fatal is the last one dispatched
  induction ps generalizing c with
  | nil => exact Or.inl ⟨fun e he => absurd he List.not_mem_nil, rfl, rfl⟩
  | cons p rest ih =>
    cases hm : Message.ofPacket p with
    | error f =>
      rw [(passes_of_error hm).1, (passes_of_error hm).2, readable_cons_of_error hm]
      exact ih c
    | ok m =>
      rw [readable_cons_of_ok hm]
      rcases hd : dispatch env m c with ⟨result, d⟩
      cases hfatal : Dispatch.isFatal ⟨m, result⟩ with
      | false =>
        rw [(passes_of_mild hm hd hfatal).1, (passes_of_mild hm hd hfatal).2, List.map_cons]
        obtain ⟨hmild, hall, hout⟩ | ⟨before, e, hsplit, hmild, he, hprefix, hout⟩ := ih d
        · refine Or.inl ⟨fun e he => ?_, by rw [hall], hout⟩
          rcases List.mem_cons.1 he with rfl | he
          · exact hfatal
          · exact hmild e he
        · refine Or.inr ⟨⟨m, result⟩ :: before, e, ?_, fun e' he' => ?_, he, ?_, hout⟩
          · rw [hsplit, List.cons_append]
          · rcases List.mem_cons.1 he' with rfl | he'
            · exact hfatal
            · exact hmild e' he'
          · exact List.cons_prefix_cons.2 ⟨rfl, hprefix⟩
      | true =>
        rcases result with f | _
        · rw [(ends_of_fatal hm hd hfatal).1, (ends_of_fatal hm hd hfatal).2]
          refine Or.inr ⟨[], ⟨m, .error f⟩, rfl, fun e he => absurd he List.not_mem_nil, hfatal,
            ?_, rfl⟩
          exact List.cons_prefix_cons.2 ⟨rfl, List.nil_prefix⟩
        · cases hfatal

/-- **What is dispatched for a packet.** Whatever aggregates there are inside of it, level by level
or through its leaves, acting on a packet comes to an end, and to one and the same one. As long as
no dispatch fails fatally, the messages that are dispatched are those inside of the packet, in
depth-first order, that are no shared objects and can be read; an aggregate that is malformed holds
none, and what surrounds it is dispatched as if it was not there. A fatal fault is the last dispatch
and the outcome, and up to it nothing is missing. -/
theorem acts_onPacket (env : Environment σ) (p : Packet) (c : Connection σ) :
    ∃ inside trace,
      (∀ inside', Packet.Flattens [p] inside' ↔ inside' = inside) ∧
      (∀ trace' out, Acts env [p] c trace' out ↔ trace' = trace ∧ out = onPacket env p c) ∧
      ((∀ e ∈ trace, e.isFatal = false) ∧ trace.map Dispatch.message = readable inside ∧
          (onPacket env p c).1 = .ok () ∨
        ∃ before e, trace = before ++ [e] ∧ (∀ e' ∈ before, e'.isFatal = false) ∧
          e.isFatal = true ∧ trace.map Dispatch.message <+: readable inside ∧
          (onPacket env p c).1 = e.result) := by
  have hsingle : [p].flatMap Packet.leaves = p.leaves := List.flatMap_singleton _ _
  refine ⟨p.leaves, dispatches env p.leaves c, fun inside' => ?_, fun trace' out => ?_,
    dispatches_cases env p.leaves c⟩
  · rw [Packet.flattens_iff, hsingle]
  · have hflat : ∀ trace out, Acts env [p] c trace out →
        trace = dispatches env p.leaves c ∧ out = onPacket env p c := by
      intro trace out h
      have heq := h.eq
      rwa [hsingle] at heq
    refine ⟨hflat trace' out, ?_⟩
    rintro ⟨rfl, rfl⟩
    -- acting on the packet ends somehow, so it ends there
    obtain ⟨trace, out, hacts⟩ := exists_acts (Packet.flattens_leaves p) env c
    obtain ⟨rfl, rfl⟩ := hflat trace out hacts
    exact hacts

/-- An aggregate of four messages. The second one is an aggregate that is malformed, and the third
one an aggregate of four, among them a shared object and a message of an unknown type. -/
theorem acts_onPacket_nested :
    let env : Environment Unit := ⟨.silent Unit, .seeded 0, ⟨0, 0⟩⟩
    let inner : List UInt8 := [1, 0, 0, 4, 0, 0, 7, 0, 0, 0, 0, 0, 0, 2, 0, 0, 0, 0, 15,
      19, 0, 0, 0, 0, 0, 9, 0, 0, 0, 0, 0, 0, 0, 11, 7, 0, 0, 0, 0, 0, 10, 0, 0, 0, 0, 0, 0, 0, 11,
      3, 0, 0, 4, 0, 0, 12, 0, 0, 0, 0, 0, 0, 0, 1]
    let p : Packet := .ofPayload 1000 22 0 2 <|
      [5, 0, 0, 4, 0, 0, 100, 0, 0, 0, 0, 0, 0, 1, 0, 0, 0, 0, 15,
        22, 0, 0, 1, 0, 0, 105, 0, 0, 0, 0, 9, 0, 0, 0, 12, 22, 0, 0, 64, 0, 0, 110, 0, 0, 0, 0] ++
      inner ++ [0, 0, 0, 75, 2, 0, 0, 4, 0, 0, 120, 0, 0, 0, 0, 0, 0, 0, 6]
    let c := initial 1 .standard ()
    ∃ trace, Acts env [p] c trace (onPacket env p c) ∧ (∀ e ∈ trace, e.isFatal = false) ∧
      trace.map (fun e => (e.message.type, e.message.timestamp)) =
        [(5, 1000), (1, 1010), (3, 1015), (2, 1020)] ∧
      (onPacket env p c).2.intake.window = 256 ∧ (onPacket env p c).2.demux.chunkSize = 512 := by
  intro env inner p c
  obtain ⟨inside, trace, hinside, hacts, hend⟩ := acts_onPacket env p c
  have hleaves : inside = p.leaves := ((hinside _).1 (Packet.flattens_leaves p)).symm
  have hok : (onPacket env p c).1 = .ok () := by decide +kernel
  have hread : (readable p.leaves).map (fun m => (m.type, m.timestamp)) =
      [(5, 1000), (1, 1010), (3, 1015), (2, 1020)] := by decide +kernel
  obtain ⟨hmild, hall, -⟩ | ⟨_, e, -, -, hfatal, -, hresult⟩ := hend
  · refine ⟨trace, (hacts _ _).2 ⟨rfl, rfl⟩, hmild, ?_, by decide +kernel, by decide +kernel⟩
    rw [← hread, ← hleaves, ← hall, List.map_map]
    rfl
  · -- a fatal fault would be the outcome
    unfold Dispatch.isFatal at hfatal
    rw [← hresult, hok] at hfatal
    cases hfatal

end Connection

end LiveIngest
