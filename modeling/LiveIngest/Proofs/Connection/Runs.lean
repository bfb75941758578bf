import LiveIngest.Proofs.Connection.Moves
import LiveIngest.Proofs.Connection.Slicing

/-!
# Runs of a connection

Whoever drives a connection gives it slices, takes out what is queued and finishes it; anyone who
holds its link may queue messages or close it. A **run** is a list of such operations, each at its
own time (`Connection.run`), and `Connection.answers` are the answers to its slices.

Apart from finishing, a run is a chain of what `Happens` lists: the moves of `Move`, the parts of
the handshake, and changes of the queues and the counts. An invariant of runs is shown for these and
for finishing.

Main statements:

* `happens_operate` — what an operation other than finishing does is a chain of such changes;
* `run_of_isEnding` — behind a connection that is ending, a run changes nothing but the link, and
  takes no input;
* `Underway.happens` — a connection is not closing while its link is live.
-/

namespace LiveIngest

open Handling

variable {σ α : Type}

/-! ### Links later on -/

/-- `l'` may be `l` later on: a link keeps its id, and is never live again. -/
structure Link.Later (l l' : Link) : Prop where
  id : l'.id = l.id
  status : l.status ≠ .live → l'.status ≠ .live

/-- A link is its own later state. -/
theorem Link.Later.refl (l : Link) : l.Later l :=
  ⟨rfl, fun h => h⟩

theorem Link.Later.trans {l l' l'' : Link} (h : l.Later l') (h' : l'.Later l'') : l.Later l'' :=
  ⟨h'.id.trans h.id, fun hl => h'.status (h.status hl)⟩

theorem LinkStatus.close_ne_live (s : LinkStatus) : s.close ≠ .live := by
  cases s <;> decide

theorem Link.Later.close (l : Link) : l.Later l.close :=
  ⟨rfl, fun _ => l.status.close_ne_live⟩

/-- No act makes a link live again. -/
theorem Link.Later.act (l : Link) (a : Act) : l.Later (l.act a) := by
  by_cases ha : a = .close
  · rw [ha]
    exact .close l
  · rw [Connection.act_eq ha]
    split
    · exact ⟨rfl, fun h => h⟩
    · exact .refl l

/-- Whatever a callback does, in any order, moves the link forward only. -/
theorem Link.Later.acts (l : Link) (acts : List Act) : l.Later (acts.foldl Link.act l) := by
  induction acts generalizing l with
  | nil => exact .refl l
  | cons a rest ih => exact (Later.act l a).trans (ih _)

/-- The same surroundings at another time. -/
def Environment.moved (env : Environment σ) (t : Moment) : Environment σ :=
  { env with now := t }

namespace Connection

variable {env : Environment σ} {c d : Connection σ}

/-- A callback moves the link forward only. -/
theorem later_call (env : Environment σ) (h : Hook σ α) (c : Connection σ) :
    c.link.Later (c.call env h).2.link :=
  .acts _ _

/-- So does releasing a stream. -/
theorem later_release (env : Environment σ) (c : Connection σ) (stream : UInt32) :
    c.link.Later (c.release env stream).link := by
  unfold release
  dsimp only
  split
  · exact later_call env _ c
  · exact .refl _

/-! ### Steps -/

/-- What a connection does in one step while it takes input. -/
inductive Step (env : Environment σ) (c : Connection σ) : Connection σ → Prop
  | move {d : Connection σ} (h : Move env c d) : Step env c d
  /-- A part of the handshake is taken. -/
  | shake (hopen : c.handshake.isDone = false) (m : Handshake.Machine) (reply : List UInt8) :
      Step env c (c.shaken m reply)

/-- The handshake is taken in one step. -/
theorem leads_takeHandshake (hopen : c.handshake.isDone = false) (slice : List UInt8) :
    Leads (Step env) (fun _ _ => True) c (takeHandshake env slice) := by
  unfold Leads
  rw [takeHandshake_apply]
  cases (c.handshake.parse env.crypto env.now.wall slice).fault with
  | none => exact ⟨.single (.shake hopen _ _), fun _ _ => trivial⟩
  | some f => exact ⟨.refl, fun _ _ => trivial⟩

/-- A part of messages is taken in moves, whether it fails or not. -/
theorem leads_takeChunks (slice : List UInt8) :
    Leads (Move env) (fun _ _ => True) c (takeChunks env slice) := by
  unfold takeChunks
  refine .get_bind (Leads.bind (.set (.obey _ c.intake.window c.roundTrip)) fun _ d _ => ?_)
  -- a message is dealt with, a fault ends the call, and otherwise there is nothing to do
  split
  · rename_i p _
    have hacted : Leads (Move env) (fun _ _ => True) d (onPacket env p) :=
      (leads_onPacket p).imp (fun _ _ => id) fun _ _ _ => trivial
    exact hacted.bind fun _ _ _ => .pure _
  · exact .throw trivial
  · exact .pure _
  · exact .pure _

/-- **A part of a slice is taken in steps.** -/
theorem leads_take (slice : List UInt8) :
    Leads (Step env) (fun _ _ => True) c (take env slice) := by
  unfold take
  refine .get_bind ?_
  cases hdone : c.handshake.isDone with
  | true => exact (leads_takeChunks slice).imp (fun _ _ => .move) fun _ _ => id
  | false => exact leads_takeHandshake hdone slice

/-- **A slice is taken in steps.** -/
theorem steps_takeAll (c : Connection σ) (taken : Nat) (slice : List UInt8) :
    Relation.ReflTransGen (Step env) c (takeAll env c taken slice).2 := by
  fun_induction takeAll env c taken slice with
  | case1 => exact .refl
  | case2 c taken slice hs n d htake hn =>
    have hsteps : Relation.ReflTransGen (Step env) c d := (leads_take slice).steps htake
    exact hsteps
  | case3 c taken slice hs n d htake hn ih => exact ((leads_take slice).steps htake).trans ih
  | case4 c taken slice hs f d htake => exact (leads_take slice).steps htake

/-! ### Runs -/

/-- What is done with a connection from outside. -/
inductive Operation
  | parse (slice : List UInt8)
  | finish
  /-- Someone who holds the link uses it. -/
  | act (a : Act)
  | serialize (budget : Nat)
  deriving DecidableEq, Repr

def Operation.slice? : Operation → Option (List UInt8)
  | parse slice => some slice
  | _ => none

/-- Do an operation at its time. -/
def operate (env : Environment σ) (c : Connection σ) (o : Moment × Operation) : Connection σ :=
  match o.2 with
  | .parse slice => (c.parse (env.moved o.1) slice).2
  | .finish => c.finish (env.moved o.1)
  | .act a => { c with link := c.link.act a }
  | .serialize budget => { c with link := (c.link.serialize o.1 budget).1 }

def run (env : Environment σ) (c : Connection σ) (ops : List (Moment × Operation)) :
    Connection σ :=
  ops.foldl (operate env) c

/-- The answers to the slices of a run. -/
def answers (env : Environment σ) (c : Connection σ) :
    List (Moment × Operation) → List (Except Fault Nat)
  | [] => []
  | o :: rest =>
    let later := answers env (c.operate env o) rest
    match o.2 with
    | .parse slice => (c.parse (env.moved o.1) slice).1 :: later
    | _ => later

/-- The slices of a run. -/
def slices (ops : List (Moment × Operation)) : List (List UInt8) :=
  ops.filterMap (·.2.slice?)

/-- What happens to a connection until it is finished. -/
inductive Happens (env : Environment σ) (c : Connection σ) : Connection σ → Prop
  | step {d : Connection σ} (t : Moment) (h : Step (env.moved t) c d) : Happens env c d
  /-- The link is used, and what was received is counted. -/
  | use (link : Link) (hlink : c.link.Later link) (total pending : Nat) :
      Happens env c { c with link, intake := { c.intake with total, pending } }

/-- Sending changes the link alone, whether the link takes the message or not. -/
theorem exists_link_send (c : Connection σ) (p : Packet) :
    ∃ link, c.link.Later link ∧ (send p c).2 = { c with link } := by
  cases hfault : c.link.status.fault? c.link.id with
  | none =>
    rw [send_of_none hfault]
    exact ⟨{ c.link with mux := c.link.mux.enqueue p }, ⟨rfl, fun h => h⟩, rfl⟩
  | some f =>
    rw [send_of_some hfault]
    exact ⟨c.link, .refl _, rfl⟩

/-- Counting a slice changes the counts and the link alone. -/
theorem exists_acknowledge (n : Nat) (c : Connection σ) :
    ∃ link total pending, c.link.Later link ∧ (acknowledge n c).2 =
      { c with link, intake := { c.intake with total, pending } } := by
  obtain ⟨total, pending, hack⟩ := acknowledge_apply n c
  rw [hack]
  cases (c.intake.count n).2 with
  | none => exact ⟨c.link, total, pending, .refl _, rfl⟩
  | some t =>
    obtain ⟨link, hlater, hsent⟩ := exists_link_send (c.masked c.link.mux total pending)
      (.ofControl (.acknowledgement t))
    dsimp only [Option.elim]
    rw [hsent]
    exact ⟨link, total, pending, hlater, rfl⟩

/-- Acknowledging is something that happens, or nothing at all. -/
theorem happens_acknowledge (env : Environment σ) (n : Nat) (c : Connection σ) :
    Relation.ReflTransGen (Happens env) c (acknowledge n c).2 := by
  obtain ⟨link, total, pending, hlater, hack⟩ := exists_acknowledge n c
  rw [hack]
  exact .single (.use link hlater total pending)

/-- A slice is counted and then taken. -/
theorem happens_parse (env : Environment σ) (t : Moment) (slice : List UInt8)
    (c : Connection σ) :
    Relation.ReflTransGen (Happens env) c (c.parse (env.moved t) slice).2 := by
  unfold Connection.parse
  split
  · exact .refl
  · have hack := happens_acknowledge env slice.length c
    -- where the acknowledgement is refused the slice is not taken
    rcases hout : acknowledge slice.length c with ⟨f | _, d⟩ <;> rw [hout] at hack
    · exact hack
    · have htaken : Relation.ReflTransGen (Happens env) d (takeAll (env.moved t) d 0 slice).2 :=
        Relation.ReflTransGen.mono (fun _ _ => .step t) _ _ (steps_takeAll d 0 slice)
      exact hack.trans htaken

/-- **What an operation does**, unless it finishes the connection. -/
theorem happens_operate (env : Environment σ) (c : Connection σ) {o : Moment × Operation}
    (ho : o.2 ≠ .finish) : Relation.ReflTransGen (Happens env) c (c.operate env o) := by
  unfold operate
  split
  · exact happens_parse env _ _ c
  · rename_i hfinish
    exact absurd hfinish ho
  · exact .single (.use _ (.act _ _) c.intake.total c.intake.pending)
  · rename_i budget _
    exact .single (.use (c.link.serialize o.1 budget).1 ⟨rfl, fun h => h⟩ c.intake.total
      c.intake.pending)

/-- What holds along everything that may happen to a connection holds along every operation that
does not finish it. -/
theorem operate_induction {I : Connection σ → Prop} (h : ∀ c d, I c → Happens env c d → I d)
    (hc : I c) {o : Moment × Operation} (ho : o.2 ≠ .finish) : I (c.operate env o) :=
  chain_induction h hc (happens_operate env c ho)

theorem operate_finish (env : Environment σ) (c : Connection σ) {o : Moment × Operation}
    (ho : o.2 = .finish) : c.operate env o = c.finish (env.moved o.1) := by
  unfold operate
  rw [ho]

/-- Operations run one part after the other. -/
theorem run_append (env : Environment σ) (c : Connection σ) (ops later : List (Moment × Operation)) :
    c.run env (ops ++ later) = (c.run env ops).run env later :=
  List.foldl_append

/-- What holds along every operation holds along runs. -/
theorem run_induction {I : Connection σ → Prop} (h : ∀ c o, I c → I (c.operate env o)) (hc : I c)
    (ops : List (Moment × Operation)) : I (c.run env ops) := by
  induction ops generalizing c with
  | nil => exact hc
  | cons o rest ih => exact ih (h c o hc)

/-! ### Connections that are ending -/

/-- A connection that is ending takes no bytes. -/
theorem parse_of_isEnding (h : c.phase.isEnding = true) (slice : List UInt8) :
    c.parse env slice = (.ok 0, c) := by
  unfold Connection.parse
  rw [if_pos h]

/-- What was finished is not finished again. -/
theorem finish_of_closed (h : c.phase = .closed) : c.finish env = c := by
  unfold Connection.finish
  rw [if_pos h]

/-- **Finishing closes the connection**, in whatever phase it is. -/
theorem phase_finish (env : Environment σ) (c : Connection σ) :
    (c.finish env).phase = .closed := by
  have hphase : ∀ p : Phase, p.advance .closed = .closed := by
    intro p
    cases p <;> decide
  unfold Connection.finish
  split
  · assumption
  · exact hphase _

/-- An operation on a connection that is ending changes nothing but the link, unless it finishes
the connection for the first time. -/
theorem operate_of_isEnding (env : Environment σ) (h : c.phase.isEnding = true)
    {o : Moment × Operation} (ho : o.2 = .finish → c.phase = .closed) :
    ∃ link, c.operate env o = { c with link } := by
  unfold operate
  split
  · rw [parse_of_isEnding h]
    exact ⟨c.link, rfl⟩
  · rename_i hfinish
    rw [finish_of_closed (ho hfinish)]
    exact ⟨c.link, rfl⟩
  · exact ⟨_, rfl⟩
  · exact ⟨_, rfl⟩

/-- **A run behind the end** changes nothing but the link, and takes no input. -/
theorem run_of_isEnding (env : Environment σ) (h : c.phase.isEnding = true)
    {ops : List (Moment × Operation)} (hops : ∀ o ∈ ops, o.2 = .finish → c.phase = .closed) :
    (∃ link, c.run env ops = { c with link }) ∧ ∀ answer ∈ c.answers env ops, answer = .ok 0 := by
  induction ops generalizing c with
  | nil => exact ⟨⟨c.link, rfl⟩, fun _ hmem => absurd hmem List.not_mem_nil⟩
  | cons o rest ih =>
    obtain ⟨link, hlink⟩ := operate_of_isEnding env h (hops o List.mem_cons_self)
    -- the first operation changes the link alone, so the others find the same phase
    obtain ⟨⟨last, hlast⟩, hrest⟩ := ih (c := { c with link }) h
      fun o ho => hops o (List.mem_cons_of_mem _ ho)
    refine ⟨⟨last, ?_⟩, ?_⟩
    · unfold run
      rw [List.foldl_cons, hlink]
      exact hlast
    · unfold answers
      rw [hlink]
      dsimp only
      split
      · rw [parse_of_isEnding h]
        exact List.forall_mem_cons.2 ⟨rfl, hrest⟩
      · exact hrest

/-! ### What runs keep -/

/-- A link that was closed stays so while a slice is taken. -/
theorem Step.later (h : Step env c d) : c.link.Later d.link := by
  cases h with
  | shake _ m reply =>
    rw [shaken_eq]
    exact ⟨rfl, fun h => h⟩
  | move h =>
    cases h with
    | close => exact .close c.link
    | accept | reject => exact later_call _ _ c
    | obey | announce | welcome => exact .refl _
    | stream h =>
      cases h with
      | send hlive | reset hlive => exact ⟨rfl, fun h => h⟩
      | create | refuse => exact later_call _ _ c.spend
      | command | content => exact later_call _ _ c
      | release => exact later_release _ c _

theorem Happens.later (h : Happens env c d) : c.link.Later d.link := by
  cases h with
  | use link hlink => exact hlink
  | step t h => exact h.later

theorem later_of_steps (h : Relation.ReflTransGen (Step env) c d) : c.link.Later d.link :=
  chain_induction (I := fun e => c.link.Later e.link) (fun _ _ ih hstep => ih.trans hstep.later)
    (.refl _) h

/-- Leaving moves the link forward only. -/
theorem later_leave (env : Environment σ) (c : Connection σ) :
    c.link.Later (c.leave env).link := by
  unfold leave
  split
  · exact later_call env _ c
  · exact .refl _

/-- **Finishing** releases streams, leaves the application, and ends the connection. What holds along
these parts holds behind it. -/
theorem finish_induction {I : Connection σ → Prop}
    (hrelease : ∀ c stream, I c → I (c.release env stream)) (hleave : ∀ c, I c → I (c.leave env))
    (hend : ∀ c : Connection σ, I c → I ({ c with
      served := env.service.disconnect c.link.id c.served
      demux := .initial
      link := c.link.close }.advance .closed))
    (hc : I c) : I (c.finish env) := by
  -- over any list, since the connection has other streams behind each release
  have hstreams : ∀ (streams : List UInt32) (c : Connection σ), I c →
      I (streams.foldl (release env) c) := by
    intro streams
    induction streams with
    | nil => exact fun _ hc => hc
    | cons stream rest ih => exact fun c hc => ih _ (hrelease c stream hc)
  unfold Connection.finish
  split
  · exact hc
  · exact hend _ (hleave _ (hstreams c.streams c hc))

/-- Finishing does not open it either. -/
theorem later_finish (env : Environment σ) (c : Connection σ) :
    c.link.Later (c.finish env).link :=
  finish_induction (I := fun d => c.link.Later d.link)
    (fun d stream hd => hd.trans (later_release env d stream))
    (fun d hd => hd.trans (later_leave env d)) (fun _ hd => hd.trans (.close _)) (.refl _)

/-- No operation opens a link that was closed. -/
theorem later_operate (env : Environment σ) (c : Connection σ) (o : Moment × Operation) :
    c.link.Later (c.operate env o).link := by
  by_cases ho : o.2 = .finish
  · rw [operate_finish env c ho]
    exact later_finish (env.moved o.1) c
  · exact operate_induction (I := fun d => c.link.Later d.link)
      (fun _ _ hc h => hc.trans h.later) (.refl _) ho

/-- **A link that is not live stays so**, and every link keeps its id. -/
theorem later_run (env : Environment σ) (c : Connection σ) (ops : List (Moment × Operation)) :
    c.link.Later (c.run env ops).link :=
  run_induction (I := fun d => c.link.Later d.link)
    (fun d o hc => hc.trans (later_operate env d o)) (.refl _) ops

/-- The connection was not finished, and it is closing only behind a link that is not live. -/
structure Underway (c : Connection σ) : Prop where
  notClosed : c.phase ≠ .closed
  notClosing : c.link.status = .live → c.phase ≠ .closing

/-- A connection is underway from the start. -/
theorem Underway.initial (id : Nat) (terms : Terms) (s : σ) : (initial id terms s).Underway where
  notClosed := Phase.noConfusion
  notClosing := fun _ => Phase.noConfusion

/-- While the link is live, the connection takes input. -/
theorem Underway.isEnding_eq (h : c.Underway) (hlive : c.link.status = .live) :
    c.phase.isEnding = false := by
  have hclosed := h.notClosed
  have hclosing := h.notClosing hlive
  cases hphase : c.phase with
  | closing => exact absurd hphase hclosing
  | closed => exact absurd hphase hclosed
  | _ => rfl

/-- The phase stays, and so does a link that is not live. -/
theorem Underway.congr (h : c.Underway) (hphase : d.phase = c.phase)
    (hlink : c.link.Later d.link) : d.Underway where
  notClosed := by
    rw [hphase]
    exact h.notClosed
  notClosing := by
    intro hlive
    rw [hphase]
    refine h.notClosing ?_
    by_contra hnot
    exact hlink.status hnot hlive

/-- Going on to a phase that is not an end. -/
theorem Underway.advance (h : c.Underway) {next : Phase} (hnext : next.isEnding = false) :
    (c.advance next).Underway := by
  -- the phase stays if it is further already
  have hphase : c.phase.advance next = c.phase ∨ c.phase.advance next = next := by
    unfold Phase.advance
    split
    · exact Or.inr rfl
    · exact Or.inl rfl
  rcases hphase with hsame | hmoved
  · exact h.congr hsame (.refl _)
  · have hend : ∀ p : Phase, p.isEnding = true → (c.advance next).phase ≠ p := by
      intro p hp heq
      have hnextp : next = p := hmoved.symm.trans heq
      rw [hnextp, hp] at hnext
      exact absurd hnext (by decide)
    exact ⟨hend .closed rfl, fun _ => hend .closing rfl⟩

/-- A connection that is not ending with its link stays so. -/
theorem Underway.step (h : c.Underway) (hd : Step env c d) : d.Underway := by
  have hlater := hd.later
  cases hd with
  | shake _ m reply =>
    unfold shaken
    dsimp only
    split
    · exact (h.congr (d := { c with handshake := m, link := c.link.pushRaw reply }) rfl
        ⟨rfl, fun h => h⟩).advance rfl
    · exact h.congr rfl ⟨rfl, fun h => h⟩
  | move hd =>
    cases hd with
    | stream hd => exact h.congr hd.phase hlater
    | welcome => exact h.advance rfl
    | close =>
      -- the one move that leads to closing closes the link with it
      refine ⟨?_, fun hlive => absurd hlive c.link.status.close_ne_live⟩
      have hphase : ∀ p : Phase, p.advance .closing = .closed → p = .closed := by
        intro p
        cases p <;> decide
      exact fun hclosed => h.notClosed (hphase _ hclosed)
    | _ => exact h.congr rfl hlater

/-- **Until it is finished, a connection is not closing while its link is live.** -/
theorem Underway.happens (h : c.Underway) (hd : Happens env c d) : d.Underway := by
  cases hd with
  | use link hlink => exact h.congr rfl hlink
  | step t hd => exact h.step hd

/-- Steps keep a connection underway. -/
theorem Underway.steps (h : c.Underway) (hd : Relation.ReflTransGen (Step env) c d) :
    d.Underway :=
  chain_induction (fun _ _ ih hstep => ih.step hstep) h hd

/-! ### Runs that end with a live link -/

/-- A link that is live behind an operation was so before it. -/
theorem live_of_operate {o : Moment × Operation} (h : (c.operate env o).link.status = .live) :
    c.link.status = .live := by
  by_contra hnot
  exact (later_operate env c o).status hnot h

/-- A link that is live behind a run was live all along. -/
theorem live_of_run (ops : List (Moment × Operation)) (h : (c.run env ops).link.status = .live) :
    c.link.status = .live := by
  by_contra hnot
  exact (later_run env c ops).status hnot h

/-- A connection whose link is still live was not finished. -/
theorem ne_finish_of_live (hc : c.Underway) {o : Moment × Operation}
    (hlive : (c.operate env o).link.status = .live) : o.2 ≠ .finish := by
  intro ho
  rw [operate_finish env c ho] at hlive
  unfold finish at hlive
  rw [if_neg hc.notClosed] at hlive
  exact absurd hlive (LinkStatus.close_ne_live _)

/-- An operation that leaves the link live leaves the connection underway. -/
theorem Underway.operate (hc : c.Underway) {o : Moment × Operation}
    (hlive : (c.operate env o).link.status = .live) : (c.operate env o).Underway :=
  operate_induction (fun _ _ hc h => hc.happens h) hc (ne_finish_of_live hc hlive)

/-- So does a run. -/
theorem Underway.run (hc : c.Underway) {ops : List (Moment × Operation)}
    (hlive : (c.run env ops).link.status = .live) : (c.run env ops).Underway := by
  induction ops generalizing c with
  | nil => exact hc
  | cons o rest ih => exact ih (hc.operate (live_of_run rest hlive)) hlive

/-! ### Slices on a live link -/

/-- The connection behind the count of a slice of `n` bytes. -/
def counting (c : Connection σ) (n : Nat) : Connection σ :=
  let (intake, due) := c.intake.count n
  let acknowledgement := fun total => Packet.ofControl (.acknowledgement total)
  { c with
    intake
    link := { c.link with
      mux := due.elim c.link.mux fun total => c.link.mux.enqueue (acknowledgement total) } }

/-- On a live link an acknowledgement can always be queued. -/
theorem acknowledge_of_live (hlive : c.link.status = .live) (n : Nat) :
    acknowledge n c = (.ok (), c.counting n) := by
  unfold acknowledge counting
  rw [bind_apply, get_apply]
  dsimp only
  -- nothing may be due yet
  rcases c.intake.count n with ⟨intake, _ | total⟩
  · rfl
  · let counted : Connection σ := { c with intake }
    have hfault : counted.link.status.fault? counted.link.id = none := by
      show c.link.status.fault? c.link.id = none
      rw [hlive]
      rfl
    exact send_of_none hfault (.ofControl (.acknowledgement total))

/-- A call counts its slice and takes it. -/
theorem Underway.parse_eq (h : c.Underway) (hlive : c.link.status = .live) (slice : List UInt8) :
    c.parse env slice = (c.counting slice.length).takeAll env 0 slice := by
  unfold Connection.parse
  rw [if_neg (Bool.eq_false_iff.1 (h.isEnding_eq hlive)), acknowledge_of_live hlive]

end Connection

end LiveIngest
