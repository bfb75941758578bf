import LiveIngest.Service.Noted

/-!
# Services that keep the link open

`Service.KeepsOpen` says of a service that its hooks do not close the link while input is taken. To
write down the calls of a service is no act on the link, so that it keeps open what the service
does (`Service.KeepsOpen.noting`).
-/

namespace LiveIngest

variable {σ α ε : Type}

/-- The hook does not close the link. -/
def Hook.KeepsOpen (h : Hook σ α) : Prop :=
  ∀ v s, Act.close ∉ (h v s).acts

/-- No hook that is called while input is taken closes the link. -/
structure Service.KeepsOpen (s : Service σ) : Prop where
  connect : ∀ application, (s.connect application).KeepsOpen
  createStream : ∀ stream audioCodecs videoCodecs,
    (s.createStream stream audioCodecs videoCodecs).KeepsOpen
  deleteStream : ∀ stream, (s.deleteStream stream).KeepsOpen
  play : ∀ stream url, (s.play stream url).KeepsOpen
  publish : ∀ stream name, (s.publish stream name).KeepsOpen
  seek : ∀ stream millis, (s.seek stream millis).KeepsOpen
  pause : ∀ stream millis, (s.pause stream millis).KeepsOpen
  resume : ∀ stream millis, (s.resume stream millis).KeepsOpen
  close : ∀ stream, (s.close stream).KeepsOpen
  command : ∀ stream c, (s.command stream c).KeepsOpen
  media : ∀ stream tag, (s.media stream tag).KeepsOpen
  metadata : ∀ stream values, (s.metadata stream values).KeepsOpen

theorem Hook.KeepsOpen.pure (a : α) : Hook.KeepsOpen (pure a : Hook σ α) :=
  fun _ _ => List.not_mem_nil

/-- What is noted does not close the link. -/
theorem Hook.KeepsOpen.noting {h : Hook σ α} (hh : h.KeepsOpen) (entry : View → α → ε) :
    (h.noting entry).KeepsOpen :=
  fun v s => hh v s.1

/-- A service that does nothing keeps links open. -/
theorem Service.KeepsOpen.silent (σ : Type) : (Service.silent σ).KeepsOpen where
  connect _ := .pure _
  createStream _ _ _ := .pure _
  deleteStream _ := .pure _
  play _ _ := .pure _
  publish _ _ := .pure _
  seek _ _ := .pure _
  pause _ _ := .pure _
  resume _ _ := .pure _
  close _ := .pure _
  command _ _ := .pure _
  media _ _ := .pure _
  metadata _ _ := .pure _

/-- Writing calls down does not close the link. -/
theorem Service.KeepsOpen.noting {s : Service σ} (h : s.KeepsOpen)
    (entry : JournalLine → (answer : Bool) → ε) : (s.noting entry).KeepsOpen where
  connect application := (h.connect application).noting _
  createStream stream audioCodecs videoCodecs :=
    (h.createStream stream audioCodecs videoCodecs).noting _
  deleteStream stream := (h.deleteStream stream).noting _
  play stream url := (h.play stream url).noting _
  publish stream name := (h.publish stream name).noting _
  seek stream millis := (h.seek stream millis).noting _
  pause stream millis := (h.pause stream millis).noting _
  resume stream millis := (h.resume stream millis).noting _
  close stream := (h.close stream).noting _
  command stream c := (h.command stream c).noting _
  media stream tag := (h.media stream tag).noting _
  metadata stream values := (h.metadata stream values).noting _

/-- So does a service with a journal, if the service itself does. -/
theorem Service.KeepsOpen.noted {s : Service σ} (h : s.KeepsOpen) : s.noted.KeepsOpen :=
  h.noting _

end LiveIngest
