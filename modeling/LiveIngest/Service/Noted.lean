import LiveIngest.Service.Publisher

/-!
# Writing down the calls of a service

`Service.noting` is a service that does what another one does, and writes an entry for every call of
a hook into a list that it keeps beside its state. What is written is up to whoever asks for it: the
hook with its arguments and what it answered, as far as it was asked something.

`Service.noted` writes down the calls as they are, as lines of a journal.
-/

namespace LiveIngest

/-- A line of a journal. -/
inductive JournalLine
  | connect (application : String) (connection : Nat)
  | createStream (stream : UInt32) (audioCodecs videoCodecs : Binary64)
  | deleteStream (stream : UInt32)
  | leave (connection : Nat) (isClosed : Bool)
  | disconnect (connection : Nat)
  | play (stream : UInt32) (url : String)
  | publish (stream : UInt32) (name : String)
  | seek (stream millis : UInt32)
  | pause (stream millis : UInt32)
  | resume (stream millis : UInt32)
  | close (stream : UInt32)
  | command (stream : UInt32) (command : Command)
  | media (stream : UInt32) (tag : MediaTag)
  | metadata (stream : UInt32) (values : Metadata)
  | delivery (stream : UInt32) (delivery : Delivery)
  | frameTime (stream : UInt32) (timestamp : Nat)

variable {σ α ε : Type}

/-- Write an entry into a list that is kept beside the state, and do what the hook does. -/
def Hook.noting (entry : View → α → ε) (h : Hook σ α) : Hook (σ × List ε) α :=
  fun v s =>
    let answer := h v s.1
    ⟨answer.value, (answer.state, s.2 ++ [entry v answer.value]), answer.acts⟩

/-- The service with a list of its calls. An entry is made of the call and of the answer to a peer
that asked for an application or a stream; where nothing was asked for, the answer counts as
`true`. -/
def Service.noting (entry : JournalLine → (answer : Bool) → ε) (s : Service σ) :
    Service (σ × List ε) where
  connect application :=
    (s.connect application).noting fun v => entry (.connect application v.connection)
  disconnect connection t :=
    (s.disconnect connection t.1, t.2 ++ [entry (.disconnect connection) true])
  createStream stream audioCodecs videoCodecs :=
    (s.createStream stream audioCodecs videoCodecs).noting fun _ =>
      entry (.createStream stream audioCodecs videoCodecs)
  deleteStream stream := (s.deleteStream stream).noting fun _ _ => entry (.deleteStream stream) true
  leave := s.leave.noting fun v _ => entry (.leave v.connection v.isClosed) true
  play stream url := (s.play stream url).noting fun _ _ => entry (.play stream url) true
  publish stream name := (s.publish stream name).noting fun _ _ => entry (.publish stream name) true
  seek stream millis := (s.seek stream millis).noting fun _ _ => entry (.seek stream millis) true
  pause stream millis := (s.pause stream millis).noting fun _ _ => entry (.pause stream millis) true
  resume stream millis :=
    (s.resume stream millis).noting fun _ _ => entry (.resume stream millis) true
  close stream := (s.close stream).noting fun _ _ => entry (.close stream) true
  command stream c := (s.command stream c).noting fun _ _ => entry (.command stream c) true
  media stream tag := (s.media stream tag).noting fun _ _ => entry (.media stream tag) true
  metadata stream values :=
    (s.metadata stream values).noting fun _ _ => entry (.metadata stream values) true

/-- The service with a journal of its calls. -/
def Service.noted (s : Service σ) : Service (σ × List JournalLine) :=
  s.noting fun line _ => line

end LiveIngest
