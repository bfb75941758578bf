import LiveIngest.Proofs.Connection.Runs
import LiveIngest.Proofs.Message.Command

/-!
# Calls

What a peer calls on stream 0 (`Command.method`), and what the handlers of the calls come to: which
hook of the service is asked, and what is queued then. A message that is sent on a live link is
queued behind the others (`Connection.queue`).

A command whose values are short comes back from the packet that it is sent in, under the same name
and with the same values (`Command.exists_ofCommand`).

Main statements: `onConnect_apply` and `onCreateStream_apply` — what is done with a call for an
application, and with one for a stream.
-/

namespace LiveIngest

open Chunk Handling

variable {σ α : Type}

/-- What a command on stream 0 calls for. -/
inductive Method
  | connect
  | createStream
  | deleteStream
  /-- It answers something itself. -/
  | answer
  | unsupported
  deriving DecidableEq, Repr

namespace Command

def method (call : Command) : Method :=
  match call.name with
  | "connect" => .connect
  | "createStream" | "initStream" => .createStream
  | "deleteStream" => .deleteStream
  | "_result" | "_error" | "onStatus" => .answer
  | _ => .unsupported

/-- The calls on stream 0 that are not answered. -/
def unanswered : List String :=
  ["deleteStream", "_result", "_error", "onStatus"]

/-- The calls that are not answered have two methods. -/
theorem mem_unanswered_iff (call : Command) :
    call.name ∈ unanswered ↔ call.method = .deleteStream ∨ call.method = .answer := by
  unfold method
  constructor
  · intro h
    rcases List.mem_cons.1 h with h | h
    · rw [h]
      exact Or.inl rfl
    · rcases List.mem_cons.1 h with h | h
      · rw [h]
        exact Or.inr rfl
      · rcases List.mem_pair.1 h with h | h <;> rw [h] <;> exact Or.inr rfl
  · intro h
    -- each name has one method
    split at h <;> rename_i hname <;> first
      | exact absurd h (by decide)
      | rw [hname]
        decide

end Command

/-! ### Commands that are read back -/

namespace Amf

/-- An object stays as it is if its fields do; it is one level deeper than they are. -/
theorem stays_ofFields {levels : Nat} {fields : List (String × Value)}
    (h : ∀ e ∈ fields, NameFits e.1 ∧ Stays levels e.2) :
    Stays (levels + 1) (.ofFields fields) := by
  -- on the fields, with those put in so far
  have hfields : ∀ found, FieldsFit (Stays levels) found →
      FieldsFit (Stays levels) (fields.foldl (fun m e => m.put e.1 e.2) found) := by
    induction fields with
    | nil => exact fun _ hfound => hfound
    | cons e rest ih =>
      intro found hfound
      obtain ⟨hname, hv⟩ := h e List.mem_cons_self
      exact ih (fun e he => h e (List.mem_cons_of_mem _ he)) _ (hfound.put hname hv)
  obtain ⟨hfits, hsame⟩ := (hfields [] ⟨Keyed.Ascending.nil, nofun, nofun⟩).stays
  refine ⟨?_, ?_⟩
  · rw [Value.ofFields, Value.Fits]
    exact hfits
  · rw [Value.ofFields, Value.settled]
    exact congrArg Value.object hsame

end Amf

namespace Packet

/-- A message on a stream from which a command is read. -/
structure Holds (p : Packet) (streamId : UInt32) (c : Command) : Prop where
  kind : p.kind = .command false
  streamId : p.streamId = streamId
  parse : Command.parse false p.payload = .ok c

/-- The command that a packet holds, where something is known of what is read from it. -/
theorem exists_holds {p : Packet} (hkind : p.kind = .command false) (f : Command → α) {a : α}
    (h : (Command.parse false p.payload).toOption.map f = some a) :
    ∃ c, p.Holds p.streamId c ∧ f c = a := by
  cases hparse : Command.parse false p.payload with
  | ok c =>
    rw [hparse] at h
    exact ⟨c, ⟨hkind, rfl, hparse⟩, Option.some.inj h⟩
  | error f =>
    rw [hparse] at h
    exact nomatch h

def isCommand (p : Packet) : Bool :=
  match p.kind with
  | .command _ => true
  | _ => false

/-- Control messages are no commands. -/
theorem isCommand_ofControl (control : Control) : (ofControl control).isCommand = false := by
  cases control <;> rfl

end Packet

namespace Command

open Amf

/-- A reply is written as it is meant, if its two values are. -/
theorem stays_reply {name : String} (hname : (utf8 name).length ≤ 65535) (transaction : Binary64)
    {object info : Value} (hobject : Amf.Stays maxDepth object) (hinfo : Amf.Stays maxDepth info) :
    (reply name transaction object info).Stays := by
  intro v hv
  rcases List.mem_cons.1 hv with rfl | hv
  · exact stays_text hname _
  · rcases List.mem_cons.1 hv with rfl | hv
    · exact stays_number _ _
    · rcases List.mem_pair.1 hv with rfl | rfl
      · exact hobject
      · exact hinfo

/-- A status whose texts are short. -/
theorem stays_error {code description : String} (hcode : (utf8 code).length ≤ 65535)
    (hdescription : (utf8 description).length ≤ 65535) (transaction : Binary64) :
    (error transaction .null (statusObject "error" code description)).Stays := by
  refine stays_reply (by decide) transaction (stays_null _) (stays_ofFields fun e he => ?_)
  simp only [List.mem_cons, List.not_mem_nil, or_false] at he
  rcases he with rfl | rfl | rfl
  · exact ⟨(by decide : NameFits "level"), stays_text (by decide) _⟩
  · exact ⟨(by decide : NameFits "code"), stays_text hcode _⟩
  · exact ⟨(by decide : NameFits "description"), stays_text hdescription _⟩

/-- **A command comes back** from the packet that it is sent in. -/
theorem exists_ofCommand {c : Command} (h : c.Stays) (timestamp streamId : UInt32) :
    ∃ p, Packet.ofCommand timestamp streamId c = .ok p ∧ p.Holds streamId c := by
  obtain ⟨body, hbody, hback⟩ := h.exists_serialize (.refl c)
  refine ⟨.ofPayload timestamp 20 streamId Priority.command.chunkStream body, ?_, rfl, rfl,
    hback.amf0⟩
  unfold Packet.ofCommand
  rw [hbody]
  rfl

end Command

/-- A live link stays so until it is closed. -/
theorem Link.live_acts_iff (l : Link) (acts : List Act) :
    (acts.foldl Link.act l).status = .live ↔ l.status = .live ∧ .close ∉ acts := by
  induction acts generalizing l with
  | nil => exact ⟨fun h => ⟨h, List.not_mem_nil⟩, fun h => h.1⟩
  | cons a rest ih =>
    rw [List.foldl_cons, ih, List.mem_cons, not_or]
    by_cases ha : a = .close
    · rw [ha]
      exact ⟨fun h => absurd h.1 (LinkStatus.close_ne_live _), fun h => absurd rfl h.2.1⟩
    · have hstatus : (l.act a).status = l.status := by
        rw [Connection.act_eq ha]
        split <;> rfl
      rw [hstatus]
      exact ⟨fun h => ⟨h.1, Ne.symm ha, h.2⟩, fun h => ⟨h.1, h.2.2⟩⟩

namespace Connection

variable {env : Environment σ} {c d : Connection σ}

/-! ### Queueing on a live link -/

def queue (c : Connection σ) (ps : List Packet) : Connection σ :=
  { c with link := { c.link with mux := ps.foldl Mux.enqueue c.link.mux } }

theorem queue_queue (c : Connection σ) (ps qs : List Packet) :
    (c.queue ps).queue qs = c.queue (ps ++ qs) := by
  unfold queue
  rw [List.foldl_append]

/-- A live link takes what is sent. -/
theorem send_of_live (hopen : c.link.status = .live) (p : Packet) :
    send p c = (.ok (), c.queue [p]) := by
  have hfault : c.link.status.fault? c.link.id = none := by
    rw [hopen]
    rfl
  exact send_of_none hfault p

/-- Sending one message behind others, on a link that was live before them. -/
theorem send_bind_queue (hopen : c.link.status = .live) (ps : List Packet) (p : Packet)
    (x : Handling σ α) : (send p >>= fun _ => x) (c.queue ps) = x (c.queue (ps ++ [p])) := by
  have hstill : (c.queue ps).link.status = .live := hopen
  rw [bind_apply, send_of_live hstill, queue_queue]

/-- A link that is not live refuses what is sent, and nothing is changed. -/
theorem exists_error_send (hclosed : c.link.status ≠ .live) (p : Packet) :
    ∃ f, send p c = (.error f, c) := by
  obtain ⟨f, hfault⟩ : ∃ f, c.link.status.fault? c.link.id = some f := by
    cases hstatus : c.link.status with
    | live => exact absurd hstatus hclosed
    | closed | gone => exact ⟨_, rfl⟩
  exact ⟨f, send_of_some hfault p⟩

/-! ### Handlers -/

/-- The application that a peer asks for. -/
def applicationOf (call : Command) : String :=
  ((call.object.property? "app").bind Amf.Value.text?).getD ""

/-- A number among those that a peer announces. -/
def announcedNumber (call : Command) (name : String) : Binary64 :=
  ((call.object.property? name).bind Amf.Value.number?).getD .zero

/-- The connection with the codecs that a peer announces. -/
def announced (c : Connection σ) (call : Command) : Connection σ :=
  { c with
    audioCodecs := announcedNumber call "audioCodecs"
    videoCodecs := announcedNumber call "videoCodecs" }

/-- **A call for an application**, where none is bound. The service is asked once the codecs are
known. -/
theorem onConnect_apply (env : Environment σ) (hfree : c.isBound = false) (call : Command) :
    onConnect env call c =
      let asked := (c.announced call).askApplication env (applicationOf call)
      if asked.1 = true then
        welcome env call (announcedNumber call "objectEncoding")
          { asked.2 with isBound := true, application := applicationOf call }
      else
        (refuse env 0 call "NetConnection.Connect.Rejected" "Connection rejected" >>= fun _ =>
          modify fun c => { c with link := c.link.close }.advance .closing) asked.2 := by
  unfold onConnect askApplication announced
  rw [bind_apply, get_apply]
  dsimp only
  rw [if_neg (Bool.eq_false_iff.1 hfree), modify_bind_apply, asking_apply, modify_bind_apply]
  rfl

/-- **A call for a stream**, where an application is bound. The id is spent before the service is
asked. -/
theorem onCreateStream_apply (env : Environment σ) (hbound : c.isBound = true) (call : Command) :
    onCreateStream env call c =
      let asked := c.askStream env
      if asked.1 = true then
        sendCommand env 0 (.result call.transaction .null (.number (.ofUInt32 c.spend.lastStream)))
          { asked.2 with
            streams := asked.2.streams.erase c.spend.lastStream ++ [c.spend.lastStream] }
      else refuse env 0 call "NetConnection.Call.Failed" "Stream creation refused" asked.2 := by
  unfold onCreateStream
  rw [bind_apply, get_apply]
  dsimp only
  rw [if_pos hbound, bind_apply]
  -- the id is spent in the state that the service is asked in
  show (calling env (env.service.createStream c.spend.lastStream c.audioCodecs c.videoCodecs) >>=
    fun created => if created = true then
        modify (fun c' => { c' with
          streams := c'.streams.erase c.spend.lastStream ++ [c.spend.lastStream] }) >>= fun _ =>
            sendCommand env 0
              (.result call.transaction .null (.number (.ofUInt32 c.spend.lastStream)))
      else refuse env 0 call "NetConnection.Call.Failed" "Stream creation refused") c.spend = _
  rw [asking_apply, modify_bind_apply]
  rfl

/-- Which handler a call has. -/
theorem onCommand_zero (env : Environment σ) (call : Command) :
    onCommand env 0 call =
      match call.method with
      | .connect => onConnect env call
      | .createStream => onCreateStream env call
      | .deleteStream => onDeleteStream env call
      | .answer => pure ()
      | .unsupported => refuse env 0 call "NetConnection.Call.Failed" "Unsupported command" := by
  unfold onCommand Command.method
  rw [if_pos rfl]
  generalize call.name = name
  split
  case h_8 => simp only [*]
  all_goals rfl

end Connection

end LiveIngest
