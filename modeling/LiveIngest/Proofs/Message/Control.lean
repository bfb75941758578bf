import LiveIngest.Message.Control
import LiveIngest.Proofs.Bytes.Take

/-!
# Control messages on the wire

A payload says a control message if it is what would be written, in front of bytes that are ignored.
A reader is lenient in two more places (`Control.Says`): the top bit of a chunk size is reserved,
and a limit type may be left out. Nothing is ignored behind an event that is not interpreted, since
its data go to the end of the payload.

All of it comes from one statement about reading, `Control.outcome_parse`: a payload is refused for
its type, or for being shorter than the fields of its type, or else it says what is read. Events are
read in the same way (`UserEvent.outcome_fields`), by the fields behind their code.

* `Control.type_of_parse` — what is read from a payload is of the type that it was read as;
* `Control.parse_of_says` — what a payload says is read from it, if it is a message that a payload
  can say (`Control.IsPlain`);
* `Control.parse_iff_says` — both, and the payloads that are refused.
-/

namespace LiveIngest

namespace UserEvent

/-- The codes of the events that are interpreted. -/
def interpreted : List UInt16 := [0, 1, 2, 3, 4, 6, 7]

/-- How many bytes the fields of an event take, as far as its code says so. -/
def fieldBytes (code : UInt16) : Nat :=
  if code = 3 then 8 else if code ∈ interpreted then 4 else 0

/-- An event whose data go to the end of the payload. -/
def isOpen : UserEvent → Bool
  | unknown _ _ => true
  | _ => false

/-- An event that is not interpreted does not have the code of one that is. -/
def IsPlain : UserEvent → Prop
  | unknown event _ => event ∉ interpreted
  | _ => True

instance : DecidablePred IsPlain
  | unknown event _ => inferInstanceAs (Decidable (event ∉ interpreted))
  | streamBegin _ | streamEof _ | streamDry _ | setBufferLength _ _ | streamIsRecorded _
  | pingRequest _ | pingResponse _ => .isTrue trivial

/-- The fields behind the code of an event. -/
def fields (code : UInt16) : Take UserEvent :=
  match code with
  | 0 => return streamBegin (← Take.uint32)
  | 1 => return streamEof (← Take.uint32)
  | 2 => return streamDry (← Take.uint32)
  | 3 => do
    let stream ← Take.uint32
    return setBufferLength stream (← Take.uint32)
  | 4 => return streamIsRecorded (← Take.uint32)
  | 6 => return pingRequest (← Take.uint32)
  | 7 => return pingResponse (← Take.uint32)
  | _ => return unknown code (← Take.left)

theorem reader_eq_bind_fields : reader = (Take.uint16 >>= fields) :=
  rfl

/-- An event that is not interpreted keeps its bytes. -/
theorem fields_of_not_mem {code : UInt16} (h : code ∉ interpreted) :
    fields code = (do return unknown code (← Take.left)) := by
  unfold fields
  split
  all_goals first | rfl | exact absurd (by decide) h

end UserEvent

namespace Take

variable {α : Type}

/-- A field of four bytes is all that is read, and is wrapped. -/
theorem from?_uint32 (f : UInt32 → α) (v : UInt32) (rest : List UInt8) :
    (do return f (← uint32) : Take α).from? (Bytes.bigEndian 4 v.toNat ++ rest) = .ok (f v) := by
  rw [from?_bind_of_ok (uint32_bigEndian v rest)]
  rfl

/-- A number of 32 bits is read, or the body is too short for one. What follows is passed over. -/
theorem from?_uint32_cases (f : UInt32 → α) (body : List UInt8) :
    (body.length < 4 ∧ (do return f (← uint32) : Take α).from? body = .error .shortRead) ∨
    ∃ v rest, body = Bytes.bigEndian 4 v.toNat ++ rest ∧
      (do return f (← uint32) : Take α).from? body = .ok (f v) := by
  obtain ⟨hshort, hread⟩ | ⟨v, rest, rfl, hread⟩ := uint32_cases body
  · exact .inl ⟨hshort, from?_bind_of_error hread⟩
  · exact .inr ⟨v, rest, rfl, from?_uint32 f v rest⟩

end Take

namespace UserEvent

/-- What comes of reading the fields of an event from the bytes behind its code. -/
inductive Outcome (code : UInt16) (body : List UInt8) : Except Fault UserEvent → Prop
  | short (h : body.length < fieldBytes code) : Outcome code body (.error .shortRead)
  | read {e : UserEvent} (trailing : List UInt8) (hcode : e.code = code) (hplain : e.IsPlain)
      (hbody : body = e.body ++ trailing) (hopen : e.isOpen = true → trailing = [])
      (hlong : fieldBytes code ≤ body.length) : Outcome code body (.ok e)

/-- An event with one field. -/
theorem outcome_single (event : UInt32 → UserEvent) {code : UInt16}
    (hsize : fieldBytes code = 4) (hcode : ∀ v, (event v).code = code)
    (hplain : ∀ v, (event v).IsPlain) (hbody : ∀ v, (event v).body = Bytes.bigEndian 4 v.toNat)
    (hopen : ∀ v, (event v).isOpen = false) (body : List UInt8) :
    Outcome code body ((do return event (← Take.uint32) : Take UserEvent).from? body) := by
  obtain ⟨hshort, hread⟩ | ⟨v, rest, hfield, hread⟩ := Take.from?_uint32_cases event body
  · rw [hread]
    exact .short (hsize ▸ hshort)
  · rw [hread]
    refine .read rest (hcode v) (hplain v) (by rw [hfield, hbody]) ?_ ?_
    · exact fun h => absurd h (by rw [hopen]; exact Bool.false_ne_true)
    · rw [hfield, hsize, List.length_append, Bytes.length_bigEndian]
      exact Nat.le_add_right 4 _

/-- The only event with two numbers. -/
theorem outcome_setBufferLength (body : List UInt8) :
    Outcome 3 body ((fields 3).from? body) := by
  have hsize : fieldBytes 3 = 8 := rfl
  -- two numbers, and the body may be short of either
  obtain ⟨hshort, hstream⟩ | ⟨stream, rest, rfl, hstream⟩ := Take.uint32_cases body
  · have herror : (fields 3).from? body = .error .shortRead := Take.from?_bind_of_error hstream
    rw [herror]
    exact .short (by omega)
  · have hnext : (fields 3).from? (Bytes.bigEndian 4 stream.toNat ++ rest) =
        (do return setBufferLength stream (← Take.uint32) : Take UserEvent).from? rest :=
      Take.from?_bind_of_ok hstream
    rw [hnext]
    obtain ⟨hshort, hread⟩ | ⟨millis, trailing, rfl, hread⟩ :=
      Take.from?_uint32_cases (setBufferLength stream) rest
    · rw [hread]
      refine .short ?_
      rw [List.length_append, Bytes.length_bigEndian]
      omega
    · rw [hread]
      refine .read trailing rfl trivial (List.append_assoc _ _ _).symm (by exact nofun) ?_
      rw [List.length_append, List.length_append, Bytes.length_bigEndian, Bytes.length_bigEndian]
      omega

/-- **An event is read exactly off its fields**, whatever its code is. -/
theorem outcome_fields (code : UInt16) (body : List UInt8) :
    Outcome code body ((fields code).from? body) := by
  by_cases hknown : code ∈ interpreted
  · simp only [interpreted, List.mem_cons, List.not_mem_nil, or_false] at hknown
    rcases hknown with rfl | rfl | rfl | rfl | rfl | rfl | rfl
    · exact outcome_single streamBegin rfl (fun _ => rfl) (fun _ => trivial) (fun _ => rfl)
        (fun _ => rfl) body
    · exact outcome_single streamEof rfl (fun _ => rfl) (fun _ => trivial) (fun _ => rfl)
        (fun _ => rfl) body
    · exact outcome_single streamDry rfl (fun _ => rfl) (fun _ => trivial) (fun _ => rfl)
        (fun _ => rfl) body
    · exact outcome_setBufferLength body
    · exact outcome_single streamIsRecorded rfl (fun _ => rfl) (fun _ => trivial) (fun _ => rfl)
        (fun _ => rfl) body
    · exact outcome_single pingRequest rfl (fun _ => rfl) (fun _ => trivial) (fun _ => rfl)
        (fun _ => rfl) body
    · exact outcome_single pingResponse rfl (fun _ => rfl) (fun _ => trivial) (fun _ => rfl)
        (fun _ => rfl) body
  · -- the data are what is left, all of it
    rw [fields_of_not_mem hknown]
    have hsize : fieldBytes code = 0 := by
      have hthree : code ≠ 3 := fun h => hknown (by rw [h]; decide)
      rw [fieldBytes, if_neg hthree, if_neg hknown]
    exact .read [] rfl hknown (List.append_nil body).symm (fun _ => rfl)
      (hsize ▸ Nat.zero_le _)

/-- What was written behind a code is read again. -/
theorem fields_body {e : UserEvent} (hplain : e.IsPlain) {trailing : List UInt8}
    (hopen : e.isOpen = true → trailing = []) :
    (fields e.code).from? (e.body ++ trailing) = .ok e := by
  -- every event but two holds one number
  cases e with
  | unknown event data =>
    rw [hopen rfl, List.append_nil]
    exact congrArg (Take.from? · data) (fields_of_not_mem hplain)
  | setBufferLength stream millis =>
    have hstream := Take.uint32_bigEndian stream (Bytes.bigEndian 4 millis.toNat ++ trailing)
    rw [body, List.append_assoc]
    exact (Take.from?_bind_of_ok hstream).trans
      (Take.from?_uint32 (setBufferLength stream) millis trailing)
  | streamBegin v => exact Take.from?_uint32 streamBegin v trailing
  | streamEof v => exact Take.from?_uint32 streamEof v trailing
  | streamDry v => exact Take.from?_uint32 streamDry v trailing
  | streamIsRecorded v => exact Take.from?_uint32 streamIsRecorded v trailing
  | pingRequest v => exact Take.from?_uint32 pingRequest v trailing
  | pingResponse v => exact Take.from?_uint32 pingResponse v trailing

/-- An event is read as it was written, and what follows it is passed over if the event has an end.
-/
theorem reader_serialize {e : UserEvent} (hplain : e.IsPlain) {trailing : List UInt8}
    (hopen : e.isOpen = true → trailing = []) :
    reader.from? (e.serialize ++ trailing) = .ok e := by
  have hcode := Take.uint16_bigEndian e.code.toNat (e.body ++ trailing)
  rw [UInt16.ofNat_toNat] at hcode
  rw [reader_eq_bind_fields, serialize, List.append_assoc, Take.from?_bind_of_ok hcode]
  exact fields_body hplain hopen

end UserEvent

namespace Control

/-- The first bit of a chunk size is not used. -/
theorem toNat_sizeBits (v : UInt32) : (sizeBits v).toNat = v.toNat % 2 ^ 31 := by
  rw [sizeBits, UInt32.toNat_and]
  exact Nat.and_two_pow_sub_one_eq_mod v.toNat 31

theorem sizeBits_of_lt {v : UInt32} (h : v.toNat < 2 ^ 31) : sizeBits v = v := by
  rw [← UInt32.toNat_inj, toNat_sizeBits, Nat.mod_eq_of_lt h]

/-! ### Payloads and what they say -/

/-- The types of control messages. -/
def IsType (type : UInt8) : Prop :=
  1 ≤ type ∧ type ≤ 6

instance (type : UInt8) : Decidable (IsType type) :=
  inferInstanceAs (Decidable (_ ∧ _))

/-- A message that a payload can say: a chunk size has 31 bits. -/
def IsPlain : Control → Prop
  | setChunkSize size => size.toNat < 2 ^ 31
  | user event => event.IsPlain
  | _ => True

/-- A message that goes to the end of the payload. -/
def isOpen : Control → Bool
  | user event => event.isOpen
  | _ => false

/-- How many bytes the fields of a payload take. Of a user event, the first two bytes tell; a limit
type may be left out. -/
def fieldBytes (type : UInt8) (payload : List UInt8) : Nat :=
  if type = 4 then 2 + UserEvent.fieldBytes (.ofNat (Bytes.ofBigEndian (payload.take 2))) else 4

/-- **The payloads that say a message.** -/
inductive Says : List UInt8 → Control → Prop
  /-- What would be written, in front of bytes that are ignored. -/
  | written (c : Control) (trailing : List UInt8) (h : c.isOpen = true → trailing = []) :
    Says (c.serialize ++ trailing) c
  /-- A chunk size with its reserved bit. -/
  | reserved (size : UInt32) (trailing : List UInt8) :
    Says (Bytes.bigEndian 4 (2 ^ 31 + size.toNat) ++ trailing) (setChunkSize size)
  /-- A limit type that is left out counts as dynamic. -/
  | noLimit (size : UInt32) : Says (Bytes.bigEndian 4 size.toNat) (peerBandwidth size 2)

/-- What comes of reading a payload as a type. -/
inductive Outcome (type : UInt8) (payload : List UInt8) : Except Fault Control → Prop
  | notControl (h : ¬IsType type) : Outcome type payload (.error (.notControl type))
  | short (htype : IsType type) (h : payload.length < fieldBytes type payload) :
    Outcome type payload (.error .shortRead)
  | read {c : Control} (htype : IsType type) (hsame : c.type = type) (hplain : c.IsPlain)
      (hpayload : Says payload c) (hlong : fieldBytes type payload ≤ payload.length) :
    Outcome type payload (.ok c)

/-- A message with one field. -/
theorem outcome_single (message : UInt32 → Control) {type : UInt8} (htype : IsType type)
    (hsize : ∀ payload, fieldBytes type payload = 4) (hsame : ∀ v, (message v).type = type)
    (hplain : ∀ v, (message v).IsPlain)
    (hpayload : ∀ v rest, Says (Bytes.bigEndian 4 v.toNat ++ rest) (message v))
    (payload : List UInt8) :
    Outcome type payload ((do return message (← Take.uint32) : Take Control).from? payload) := by
  obtain ⟨hshort, hread⟩ | ⟨v, rest, rfl, hread⟩ := Take.from?_uint32_cases message payload
  · rw [hread]
    exact .short htype (hsize payload ▸ hshort)
  · rw [hread]
    refine .read htype (hsame v) (hplain v) (hpayload v rest) ?_
    rw [hsize, List.length_append, Bytes.length_bigEndian]
    exact Nat.le_add_right 4 _

/-- The reserved bit is there or not. -/
theorem says_setChunkSize (v : UInt32) (rest : List UInt8) :
    Says (Bytes.bigEndian 4 v.toNat ++ rest) (setChunkSize (sizeBits v)) := by
  have hbits := toNat_sizeBits v
  by_cases hlow : v.toNat < 2 ^ 31
  · have hwritten := Says.written (setChunkSize v) rest (by exact nofun)
    rw [serialize, sizeBits_of_lt hlow] at hwritten
    rwa [sizeBits_of_lt hlow]
  · have hvalue : v.toNat = 2 ^ 31 + (sizeBits v).toNat := by
      have hlt := v.toNat_lt
      omega
    rw [hvalue]
    exact .reserved (sizeBits v) rest

/-- **User control** is read exactly off a code and its event. -/
theorem outcome_user (payload : List UInt8) : Outcome 4 payload (parse 4 payload) := by
  -- the size of the fields depends on the code in front of them
  have hsize : fieldBytes 4 payload =
      2 + UserEvent.fieldBytes (.ofNat (Bytes.ofBigEndian (payload.take 2))) := rfl
  have hparse : parse 4 payload =
      ((Take.uint16 >>= UserEvent.fields).from? payload).map Control.user := by
    rw [← UserEvent.reader_eq_bind_fields]
    exact Take.from?_map UserEvent.reader Control.user payload
  rw [hparse]
  obtain ⟨hshort, hcode⟩ | ⟨code, body, rfl, hcode⟩ := Take.uint16_cases payload
  · rw [Take.from?_bind_of_error hcode]
    exact .short (by decide) (by omega)
  · have htake : (Bytes.bigEndian 2 code.toNat ++ body).take 2 = Bytes.bigEndian 2 code.toNat :=
      List.take_left' (Bytes.length_bigEndian 2 _)
    have hlength : (Bytes.bigEndian 2 code.toNat ++ body).length = 2 + body.length := by
      rw [List.length_append, Bytes.length_bigEndian]
    rw [htake, Bytes.ofBigEndian_bigEndian (show code.toNat < 256 ^ 2 from code.toNat_lt),
      UInt16.ofNat_toNat] at hsize
    rw [Take.from?_bind_of_ok hcode]
    have hfields := UserEvent.outcome_fields code body
    generalize (UserEvent.fields code).from? body = result at hfields ⊢
    cases hfields with
    | short h => exact .short (by decide) (by omega)
    | @read e trailing hsame hplain hbody hopen hlong =>
      have hwritten := Says.written (user e) trailing hopen
      rw [serialize, UserEvent.serialize, hsame, List.append_assoc, ← hbody] at hwritten
      exact .read (by decide) rfl hplain hwritten (by omega)

theorem parse_peerBandwidth (size : UInt32) (limit : UInt8) (trailing : List UInt8) :
    parse 6 (Bytes.bigEndian 4 size.toNat ++ limit :: trailing) =
      .ok (peerBandwidth size limit) := by
  have hlimit : (do return peerBandwidth size (← Take.uint8) : Take Control).from?
      (limit :: trailing) = .ok (peerBandwidth size limit) :=
    Take.from?_bind_of_ok (Take.uint8_cons limit trailing)
  exact (Take.from?_bind_of_ok (Take.uint32_bigEndian size (limit :: trailing))).trans hlimit

/-- A bandwidth without a limit type counts as dynamic. -/
theorem parse_noLimit (size : UInt32) :
    parse 6 (Bytes.bigEndian 4 size.toNat) = .ok (peerBandwidth size 2) := by
  have hsize := Take.uint32_bigEndian size []
  rw [List.append_nil] at hsize
  exact Take.from?_bind_of_ok hsize

/-- **A bandwidth** is read off four bytes and, where there is a fifth one, its limit type. -/
theorem outcome_peerBandwidth (payload : List UInt8) : Outcome 6 payload (parse 6 payload) := by
  obtain ⟨hshort, hread⟩ | ⟨size, rest, rfl, hread⟩ := Take.uint32_cases payload
  · have herror : parse 6 payload = .error .shortRead := Take.from?_bind_of_error hread
    rw [herror]
    exact .short (by decide) hshort
  · have hlong : fieldBytes 6 (Bytes.bigEndian 4 size.toNat ++ rest) ≤
        (Bytes.bigEndian 4 size.toNat ++ rest).length := by
      rw [List.length_append, Bytes.length_bigEndian]
      exact Nat.le_add_right 4 _
    -- the limit type may be missing
    cases rest with
    | nil =>
      rw [List.append_nil] at hlong ⊢
      rw [parse_noLimit]
      exact .read (by decide) rfl trivial (.noLimit size) hlong
    | cons limit trailing =>
      rw [parse_peerBandwidth]
      refine .read (by decide) rfl trivial ?_ hlong
      have hwritten := Says.written (peerBandwidth size limit) trailing (by exact nofun)
      rwa [serialize, List.append_assoc, List.singleton_append] at hwritten

/-- **What comes of any payload of any type.** -/
theorem outcome_parse (type : UInt8) (payload : List UInt8) :
    Outcome type payload (parse type payload) := by
  have hwritten (message : UInt32 → Control) (v : UInt32) (rest : List UInt8)
      (hserialize : (message v).serialize = Bytes.bigEndian 4 v.toNat)
      (hopen : (message v).isOpen = false) :
      Says (Bytes.bigEndian 4 v.toNat ++ rest) (message v) := by
    rw [← hserialize]
    exact .written (message v) rest fun h => absurd (hopen.symm.trans h) Bool.false_ne_true
  -- six types are control messages, and all but two hold one number
  by_cases htype : IsType type
  · obtain rfl | rfl | rfl | rfl | rfl | rfl :
        type = 1 ∨ type = 2 ∨ type = 3 ∨ type = 4 ∨ type = 5 ∨ type = 6 := by
      obtain ⟨hlow, hhigh⟩ := htype
      simp only [UInt8.le_iff_toNat_le, ← UInt8.toNat_inj] at hlow hhigh ⊢
      simp only [UInt8.reduceToNat] at hlow hhigh ⊢
      omega
    · refine outcome_single (fun v => setChunkSize (sizeBits v)) htype (fun _ => rfl)
        (fun _ => rfl) (fun v => ?_) says_setChunkSize payload
      rw [IsPlain, toNat_sizeBits]
      exact Nat.mod_lt _ (by decide)
    · exact outcome_single abort htype (fun _ => rfl) (fun _ => rfl) (fun _ => trivial)
        (fun v rest => hwritten abort v rest rfl rfl) payload
    · exact outcome_single acknowledgement htype (fun _ => rfl) (fun _ => rfl) (fun _ => trivial)
        (fun v rest => hwritten acknowledgement v rest rfl rfl) payload
    · exact outcome_user payload
    · exact outcome_single windowSize htype (fun _ => rfl) (fun _ => rfl) (fun _ => trivial)
        (fun v rest => hwritten windowSize v rest rfl rfl) payload
    · exact outcome_peerBandwidth payload
  · have herror : parse type payload = .error (.notControl type) := by
      unfold parse reader
      split
      all_goals first | rfl | exact absurd (by decide) htype
    rw [herror]
    exact .notControl htype

/-- What is read as a type is of that type. -/
theorem type_of_parse {type : UInt8} {payload : List UInt8} {c : Control}
    (h : parse type payload = .ok c) : c.type = type := by
  have houtcome := outcome_parse type payload
  rw [h] at houtcome
  cases houtcome with
  | read _ hsame => exact hsame

/-! ### Reading what is said -/

/-- What was written is read again, with anything behind it that its form allows. -/
theorem parse_written {c : Control} (hplain : c.IsPlain) {trailing : List UInt8}
    (hopen : c.isOpen = true → trailing = []) :
    parse c.type (c.serialize ++ trailing) = .ok c := by
  cases c with
  | setChunkSize size =>
    -- the first bit of a size is clear if it was taken from a message
    have hsize : sizeBits size = size := sizeBits_of_lt hplain
    have hread := Take.from?_uint32 (fun v => setChunkSize (sizeBits v)) size trailing
    rw [serialize, hsize]
    rwa [hsize] at hread
  | abort chunkStream => exact Take.from?_uint32 abort chunkStream trailing
  | acknowledgement total => exact Take.from?_uint32 acknowledgement total trailing
  | windowSize size => exact Take.from?_uint32 windowSize size trailing
  | user event =>
    have hread : parse 4 (event.serialize ++ trailing) = _ :=
      Take.from?_map UserEvent.reader user (event.serialize ++ trailing)
    rw [UserEvent.reader_serialize hplain hopen] at hread
    exact hread
  | peerBandwidth size limit =>
    rw [serialize, List.append_assoc, List.singleton_append]
    exact parse_peerBandwidth size limit trailing

/-- **What a payload says is read from it.** -/
theorem parse_of_says {payload : List UInt8} {c : Control} (h : Says payload c)
    (hplain : c.IsPlain) : parse c.type payload = .ok c := by
  cases h with
  | written _ trailing hopen => exact parse_written hplain hopen
  | reserved size trailing =>
    -- the reserved bit is masked away, and a plain size has none
    have hlt : size.toNat < 2 ^ 31 := hplain
    have hvalue : (UInt32.ofNat (2 ^ 31 + size.toNat)).toNat = 2 ^ 31 + size.toNat :=
      UInt32.toNat_ofNat_of_lt' (show _ < 2 ^ 32 by omega)
    have hmask : sizeBits (UInt32.ofNat (2 ^ 31 + size.toNat)) = size := by
      rw [← UInt32.toNat_inj, toNat_sizeBits, hvalue]
      omega
    have hread := Take.from?_uint32 (fun v => setChunkSize (sizeBits v))
      (UInt32.ofNat (2 ^ 31 + size.toNat)) trailing
    rw [hvalue, hmask] at hread
    exact hread
  | noLimit size => exact parse_noLimit size

theorem parse_serialize_self {c : Control} (hplain : c.IsPlain) :
    parse c.type c.serialize = .ok c := by
  have hwritten : parse c.type (c.serialize ++ []) = .ok c := parse_written hplain fun _ => rfl
  rwa [List.append_nil] at hwritten

/-- An abort names any chunk stream. -/
theorem parse_abort (chunkStream : UInt32) :
    parse 2 (abort chunkStream).serialize = .ok (abort chunkStream) :=
  parse_serialize_self (show (abort chunkStream).IsPlain from trivial)

/-- **Control messages there and back.** A message that a payload can say is read from what is
written of it. Whatever is read as a type is of that type, is read again from what is written of it,
and is what the payload says. And a payload is refused for a type that is none, or for being shorter
than the fields of its type or event, and for nothing else. -/
theorem parse_iff_says :
    (∀ c : Control, c.IsPlain → parse c.type c.serialize = .ok c) ∧
    (∀ (type : UInt8) (payload : List UInt8) (c : Control), parse type payload = .ok c →
      c.type = type ∧ parse type c.serialize = .ok c) ∧
    (∀ (type : UInt8) (payload : List UInt8) (c : Control),
      parse type payload = .ok c ↔ c.type = type ∧ c.IsPlain ∧ Says payload c) ∧
    ∀ (type : UInt8) (payload : List UInt8) (f : Fault), parse type payload = .error f ↔
      ¬IsType type ∧ f = .notControl type ∨
      IsType type ∧ payload.length < fieldBytes type payload ∧ f = .shortRead := by
  refine ⟨fun c => parse_serialize_self, fun type payload c h => ?_, fun type payload c => ?_,
    fun type payload f => ?_⟩
  · have houtcome := outcome_parse type payload
    rw [h] at houtcome
    cases houtcome with
    | read _ hsame hplain =>
      subst hsame
      exact ⟨rfl, parse_serialize_self hplain⟩
  · constructor
    · intro h
      have houtcome := outcome_parse type payload
      rw [h] at houtcome
      cases houtcome with
      | read _ hsame hplain hpayload => exact ⟨hsame, hplain, hpayload⟩
    · rintro ⟨rfl, hplain, hpayload⟩
      exact parse_of_says hpayload hplain
  · have houtcome := outcome_parse type payload
    generalize parse type payload = result at houtcome ⊢
    -- the three ways in which reading ends exclude each other
    cases houtcome with
    | notControl htype => simp [htype, eq_comm]
    | short htype hshort => simp [htype, hshort, eq_comm]
    | read htype _ _ _ hlong => simp [htype, Nat.not_lt.2 hlong]

/-- A chunk size with its reserved bit and a byte behind it, an event with opaque data, and a buffer
length that is cut off in its second field. -/
theorem parse_iff_says_lenient :
    (setChunkSize 4096).IsPlain ∧ Says [0x80, 0, 0x10, 0, 0xff] (setChunkSize 4096) ∧
    parse 1 [0x80, 0, 0x10, 0, 0xff] = .ok (setChunkSize 4096) ∧
    parse 1 [0, 0, 0x10, 0] = .ok (setChunkSize 4096) ∧
    (user (.unknown 31 [0xaa, 0xbb])).IsPlain ∧
    parse 4 [0, 31, 0xaa, 0xbb] = .ok (user (.unknown 31 [0xaa, 0xbb])) ∧
    parse 4 [0, 3, 0, 0, 0, 1, 0, 0, 0] = .error .shortRead := by
  obtain ⟨hback, hagain, hsaid, hrefused⟩ := parse_iff_says
  have hchunk : (setChunkSize 4096).IsPlain := show (4096 : UInt32).toNat < 2 ^ 31 by decide
  have hevent : (user (.unknown 31 [0xaa, 0xbb])).IsPlain :=
    show (31 : UInt16) ∉ UserEvent.interpreted by decide
  have hpayload : Says [0x80, 0, 0x10, 0, 0xff] (setChunkSize 4096) := .reserved 4096 [0xff]
  have hread := (hsaid 1 _ _).2 ⟨rfl, hchunk, hpayload⟩
  exact ⟨hchunk, hpayload, hread, (hagain 1 _ _ hread).2, hevent, hback _ hevent,
    (hrefused 4 _ _).2 (.inr ⟨by decide, by decide, rfl⟩)⟩

end Control

end LiveIngest
