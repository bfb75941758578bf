import LiveIngest.Proofs.Connection.Runs
import LiveIngest.Service.Noted

/-!
# A record of the calls of a service

`Service.recorded` is a service that does what another one does, and keeps a record of its calls in
order. A `Call` tells which hook was called, about which stream, and what the service answered to a
peer that asked for something; whatever else a hook is given is left out (`Call.of`).

What a move adds to the record is told by `StreamMove.exists_calls` and `calls_askApplication`.
-/

namespace LiveIngest

variable {σ α : Type}

/-- A call of a hook. -/
inductive Call
  | connect (application : String) (accepted : Bool)
  | createStream (stream : UInt32) (created : Bool)
  | deleteStream (stream : UInt32)
  /-- Any other hook of a stream. -/
  | onStream (stream : UInt32)
  | leave
  | disconnect (connection : Nat)
  deriving DecidableEq, Repr

namespace Call

/-- A peer was accepted by an application. -/
def isAcceptance : Call → Bool
  | connect _ accepted => accepted
  | _ => false

/-- A peer was rejected by an application. -/
def isRejection : Call → Bool
  | connect _ accepted => !accepted
  | _ => false

def isDisconnect : Call → Bool
  | disconnect _ => true
  | _ => false

/-- The id that a peer asked a stream for. -/
def requested? : Call → Option UInt32
  | createStream stream _ => some stream
  | _ => none

/-- The stream that a call is about. -/
def stream? : Call → Option UInt32
  | createStream stream _ | deleteStream stream | onStream stream => some stream
  | _ => none

/-- What is kept of a call and its answer. -/
def of : JournalLine → (answer : Bool) → Call
  | .connect application _, accepted => connect application accepted
  | .createStream stream _ _, created => createStream stream created
  | .deleteStream stream, _ => deleteStream stream
  | .leave _ _, _ => leave
  | .disconnect connection, _ => disconnect connection
  | .play stream _, _ | .publish stream _, _ | .seek stream _, _ | .pause stream _, _
  | .resume stream _, _ | .close stream, _ | .command stream _, _ | .media stream _, _
  | .metadata stream _, _ | .delivery stream _, _ | .frameTime stream _, _ => onStream stream

end Call

/-- The service with a record of its calls. -/
def Service.recorded (s : Service σ) : Service (σ × List Call) :=
  s.noting Call.of

/-- The surroundings with a service that keeps a record. -/
def Environment.recorded (env : Environment σ) : Environment (σ × List Call) :=
  { env with service := env.service.recorded }

namespace Connection

/-- The calls that were recorded. -/
def calls (c : Connection (σ × List Call)) : List Call :=
  c.served.2

section Calls

variable (env : Environment σ) (c : Connection (σ × List Call))

/-- A hook that is called is recorded behind the calls before it. -/
theorem calls_call (h : Hook σ α) (call : View → α → Call) :
    (c.call env.recorded (h.noting call)).2.calls =
      c.calls ++ [call (c.link.view env.now) (c.call env.recorded (h.noting call)).1] := rfl

/-- The service is asked for an application once, and its answer is recorded. -/
theorem calls_askApplication (application : String) :
    (c.askApplication env.recorded application).2.calls =
      c.calls ++ [.connect application (c.askApplication env.recorded application).1] :=
  calls_call env c (env.service.connect application) fun _ => .connect application

/-- It is asked for a stream under the id that was spent. -/
theorem calls_askStream : (c.askStream env.recorded).2.calls =
    c.calls ++ [.createStream c.spend.lastStream (c.askStream env.recorded).1] :=
  calls_call env c.spend
    (env.service.createStream c.spend.lastStream c.audioCodecs c.videoCodecs)
    fun _ => .createStream c.spend.lastStream

/-- It hears of the end of a stream if an application is bound. -/
theorem calls_release (stream : UInt32) : (c.release env.recorded stream).calls =
    c.calls ++ if c.isBound then [.deleteStream stream] else [] := by
  unfold release
  dsimp only
  split
  · rfl
  · exact (List.append_nil _).symm

/-- A command on a stream calls one hook of the stream at most. -/
theorem calls_onCommand (stream : UInt32) (command : Command) :
    (c.call env.recorded (env.recorded.service.onCommand stream command)).2.calls = c.calls ∨
      (c.call env.recorded (env.recorded.service.onCommand stream command)).2.calls =
        c.calls ++ [.onStream stream] := by
  -- for some commands, their arguments say which hook is called, or whether one is
  unfold Service.onCommand
  split
  · split
    · exact Or.inr rfl
    · exact Or.inl rfl
  · split
    · exact Or.inr rfl
    · exact Or.inr rfl
  · exact Or.inr rfl
  · split
    · exact Or.inr rfl
    · exact Or.inr rfl
  · exact Or.inr rfl
  · exact Or.inr rfl

/-- Content on a stream calls one hook of the stream. -/
theorem calls_onContent (stream : UInt32) (content : MediaTag ⊕ Metadata) :
    (c.call env.recorded (env.recorded.service.onContent stream content)).2.calls =
      c.calls ++ [.onStream stream] := by
  cases content <;> rfl

end Calls

variable {env : Environment σ} {c d : Connection (σ × List Call)}

/-- What has to do with streams asks for no application, and leaves none. -/
theorem StreamMove.exists_calls (h : StreamMove env.recorded c d) :
    ∃ made, d.calls = c.calls ++ made ∧ ∀ call ∈ made, call.stream?.isSome = true := by
  have hnone : c.calls = c.calls ++ [] := (List.append_nil _).symm
  have hone : ∀ {call : Call}, call.stream?.isSome = true →
      ∀ made ∈ [call], made.stream?.isSome = true :=
    fun hcall made hmade => List.mem_singleton.1 hmade ▸ hcall
  cases h with
  | send | reset => exact ⟨[], hnone, fun _ hmem => absurd hmem List.not_mem_nil⟩
  | create | refuse => exact ⟨_, calls_askStream env c, hone rfl⟩
  -- a release is only told where there is an application
  | @release stream hlive =>
    refine ⟨_, calls_release env c stream, ?_⟩
    split
    · exact hone rfl
    · exact fun _ hmem => absurd hmem List.not_mem_nil
  | @command stream hlive command =>
    rcases calls_onCommand env c stream command with hcalls | hcalls
    · exact ⟨[], hcalls.trans hnone, fun _ hmem => absurd hmem List.not_mem_nil⟩
    · exact ⟨_, hcalls, hone rfl⟩
  | @content stream hlive content => exact ⟨_, calls_onContent env c stream content, hone rfl⟩

end Connection

end LiveIngest
