import LiveIngest.Flv.Tag

/-!
# Tags in pieces

A tag is fed piece by piece, and may be cut anywhere, in its header as well as in its payload. Audio
and video are read by one rule, a `TagReader`: the header byte by byte, the payload as far as there
is room. What follows from the rule alone:

* `TagReader.feed_append` — two pieces do what one does that holds both, also to a tag that is full;
* `TagReader.feedAll_eq` — any number of pieces is like one;
* `TagReader.Reads.feed` — a piece is taken if there is room for its payload, and what every byte of
  the header and every run of payload keeps is kept;
* `TagReader.Reads.feedAll_body` — and so is a body in any pieces.
-/

namespace LiveIngest

/-- Feed pieces one after the other. Returns the tag and how many bytes were taken. -/
def feedAll {τ : Type} (feed : τ → List UInt8 → τ × Nat) (t : τ) : List (List UInt8) → τ × Nat
  | [] => (t, 0)
  | piece :: rest =>
    let (t, n) := feed t piece
    let (t, m) := feedAll feed t rest
    (t, n + m)

/-- How tags of a kind are read. -/
structure TagReader (τ : Type) where
  /-- Read a piece. Returns the tag and how many bytes of the piece it took. -/
  feed : τ → List UInt8 → τ × Nat
  /-- The header is not complete. -/
  InHeader : τ → Prop
  readByte : τ → UInt8 → τ
  /-- How much more payload the tag takes. -/
  room : τ → Nat
  addMedia : τ → List UInt8 → τ
  feed_nil (t : τ) : feed t [] = (t, 0)
  feed_header {t : τ} (h : InHeader t) (b : UInt8) (rest : List UInt8) :
    feed t (b :: rest) = ((feed (readByte t b) rest).1, (feed (readByte t b) rest).2 + 1)
  feed_payload {t : τ} (h : ¬InHeader t) (piece : List UInt8) :
    feed t piece = (addMedia t (piece.take (room t)), (piece.take (room t)).length)
  room_readByte (t : τ) (b : UInt8) : room (readByte t b) = room t
  inHeader_addMedia (t : τ) (xs : List UInt8) : InHeader (addMedia t xs) ↔ InHeader t
  room_addMedia (t : τ) (xs : List UInt8) : room (addMedia t xs) = room t - xs.length
  addMedia_addMedia (t : τ) (xs ys : List UInt8) :
    addMedia (addMedia t xs) ys = addMedia t (xs ++ ys)

/-- What fits into the room behind some bytes is what fits of them and of others. -/
theorem take_append_take {α : Type} (room : Nat) (xs ys : List α) :
    xs.take room ++ ys.take (room - (xs.take room).length) = (xs ++ ys).take room := by
  rw [List.take_append, List.length_take]
  congr 2
  omega

namespace TagReader

variable {τ : Type} (r : TagReader τ) {t : τ}

/-- **Two pieces are like one.** -/
theorem feed_append (t : τ) (xs ys : List UInt8) :
    r.feed t (xs ++ ys) =
      ((r.feed (r.feed t xs).1 ys).1, (r.feed t xs).2 + (r.feed (r.feed t xs).1 ys).2) := by
  induction xs generalizing t with
  | nil =>
    rw [r.feed_nil]
    exact Prod.ext rfl (Nat.zero_add _).symm
  | cons b rest ih =>
    by_cases hheader : r.InHeader t
    · rw [List.cons_append, r.feed_header hheader, r.feed_header hheader, ih]
      exact Prod.ext rfl (Nat.add_right_comm _ _ _)
    · -- what the first piece left of the room is left for the second one
      rw [r.feed_payload hheader, r.feed_payload hheader]
      have hstill := mt (r.inHeader_addMedia t ((b :: rest).take (r.room t))).1 hheader
      rw [r.feed_payload hstill, r.room_addMedia, r.addMedia_addMedia]
      dsimp only
      rw [← List.length_append, take_append_take]

/-- **Any pieces are like one.** -/
theorem feedAll_eq (t : τ) (pieces : List (List UInt8)) :
    feedAll r.feed t pieces = r.feed t pieces.flatten := by
  induction pieces generalizing t with
  | nil => exact (r.feed_nil t).symm
  | cons piece rest ih =>
    rw [List.flatten_cons, r.feed_append, ← ih]
    rfl

/-- What holds of a tag that was fed `bytes`, where the header has `length bytes` bytes: a relation
that every byte of the header and every run of payload keeps. -/
structure Reads (HasRead : τ → List UInt8 → Prop) (length : List UInt8 → Nat) : Prop where
  header {t bytes} (h : HasRead t bytes) (hopen : r.InHeader t) (b : UInt8) :
    HasRead (r.readByte t b) (bytes ++ [b])
  payload {t bytes} (h : HasRead t bytes) (hcomplete : ¬r.InHeader t) (xs : List UInt8) :
    HasRead (r.addMedia t xs) (bytes ++ xs)
  inHeader_iff {t bytes} (h : HasRead t bytes) : r.InHeader t ↔ bytes.length < length bytes
  length_append {bytes} (h : length bytes ≤ bytes.length) (more : List UInt8) :
    length (bytes ++ more) = length bytes

variable {r}

/-- **A piece is taken** if there is room for what of it is payload. -/
theorem Reads.feed {HasRead : τ → List UInt8 → Prop} {length : List UInt8 → Nat}
    (hreads : r.Reads HasRead length) {bytes : List UInt8} (h : HasRead t bytes)
    {piece : List UInt8}
    (hroom : bytes.length + piece.length ≤
      max bytes.length (length (bytes ++ piece)) + r.room t) :
    HasRead (r.feed t piece).1 (bytes ++ piece) ∧ (r.feed t piece).2 = piece.length := by
  induction piece generalizing t bytes with
  | nil =>
    rw [r.feed_nil, List.append_nil]
    exact ⟨h, rfl⟩
  | cons b rest ih =>
    -- by induction on the piece while the header is open, and behind that at once
    by_cases hopen : r.InHeader t
    · rw [List.append_cons, List.length_cons] at hroom
      have hleft : (bytes ++ [b]).length + rest.length ≤
          max (bytes ++ [b]).length (length (bytes ++ [b] ++ rest)) +
            r.room (r.readByte t b) := by
        rw [r.room_readByte, List.length_append, List.length_singleton]
        omega
      obtain ⟨hrest, htaken⟩ := ih (hreads.header h hopen b) hleft
      rw [r.feed_header hopen, htaken, List.append_cons]
      exact ⟨hrest, rfl⟩
    · have hcomplete : length bytes ≤ bytes.length :=
        Nat.le_of_not_lt (mt (hreads.inHeader_iff h).2 hopen)
      rw [hreads.length_append hcomplete, Nat.max_eq_left hcomplete] at hroom
      rw [r.feed_payload hopen, List.take_of_length_le (Nat.le_of_add_le_add_left hroom)]
      exact ⟨hreads.payload h hopen _, rfl⟩

/-- **A body** is taken by a tag that nothing was fed to, if there is room for its payload. -/
theorem Reads.feed_body {HasRead : τ → List UInt8 → Prop} {length : List UInt8 → Nat}
    (hreads : r.Reads HasRead length) (h : HasRead t []) {body : List UInt8}
    (hroom : body.length ≤ length body + r.room t) :
    HasRead (r.feed t body).1 body ∧ (r.feed t body).2 = body.length := by
  refine hreads.feed h ?_
  rw [List.nil_append, List.length_nil, Nat.zero_add, Nat.zero_max]
  exact hroom

/-- **A body in pieces** is taken like the body. -/
theorem Reads.feedAll_body {HasRead : τ → List UInt8 → Prop} {length : List UInt8 → Nat}
    (hreads : r.Reads HasRead length) (h : HasRead t []) {pieces : List (List UInt8)}
    (hroom : pieces.flatten.length ≤ length pieces.flatten + r.room t) :
    feedAll r.feed t pieces = ((r.feed t pieces.flatten).1, pieces.flatten.length) := by
  rw [r.feedAll_eq]
  exact Prod.ext rfl (hreads.feed_body h hroom).2

end TagReader

/-! ### Audio -/

namespace AudioTag

/-- Read one byte of the header. -/
def readByte (t : AudioTag) (b : UInt8) : AudioTag :=
  match t.stage with
  | .header => t.readHeader b
  | _ => { t with packetType := .ofCode b, stage := .payload }

/-- The header takes no room. -/
theorem room_readByte (t : AudioTag) (b : UInt8) :
    (t.readByte b).capacity - (t.readByte b).media.length = t.capacity - t.media.length := by
  unfold readByte
  split <;> rfl

theorem feed_of_header {t : AudioTag} (h : t.stage ≠ .payload) (b : UInt8) (rest : List UInt8) :
    t.feed (b :: rest) = (((t.readByte b).feed rest).1, ((t.readByte b).feed rest).2 + 1) := by
  rw [feed, readByte]
  cases hstage : t.stage with
  | payload => exact absurd hstage h
  | header | packetType => rfl

theorem feed_of_payload {t : AudioTag} (h : t.stage = .payload) (piece : List UInt8) :
    t.feed piece =
      ({ t with media := t.media ++ piece.take (t.capacity - t.media.length) },
        (piece.take (t.capacity - t.media.length)).length) := by
  cases piece with
  | nil =>
    rw [List.take_nil, List.append_nil]
    rfl
  | cons b rest => rw [feed, h]

def reader : TagReader AudioTag where
  feed := feed
  InHeader t := t.stage ≠ .payload
  readByte := readByte
  room t := t.capacity - t.media.length
  addMedia t xs := { t with media := t.media ++ xs }
  feed_nil _ := rfl
  feed_header := feed_of_header
  feed_payload h := feed_of_payload (Decidable.not_not.1 h)
  room_readByte := room_readByte
  inHeader_addMedia _ _ := Iff.rfl
  room_addMedia t xs := by rw [List.length_append, Nat.sub_add_eq]
  addMedia_addMedia t xs ys := by rw [List.append_assoc]

end AudioTag

/-! ### Video -/

namespace VideoTag

/-- Read one byte of the header: the first one, or one that joins the field it belongs to. -/
def readByte (t : VideoTag) (b : UInt8) : VideoTag :=
  match t.stage with
  | .header => t.readFirst b
  | _ => readField { t with pending := t.pending ++ [b] }

/-- The header takes no room. -/
theorem room_readByte (t : VideoTag) (b : UInt8) :
    (t.readByte b).capacity - (t.readByte b).media.length = t.capacity - t.media.length := by
  unfold readByte
  split
  · unfold readFirst
    split
    · rfl
    · dsimp only
      split <;> rfl
  · unfold readField
    split <;> rfl

theorem feed_of_header {t : VideoTag} (h : t.stage ≠ .payload) (b : UInt8) (rest : List UInt8) :
    t.feed (b :: rest) = (((t.readByte b).feed rest).1, ((t.readByte b).feed rest).2 + 1) := by
  rw [feed, readByte]
  cases hstage : t.stage with
  | payload => exact absurd hstage h
  | header | fourCc | avcFields | compositionTime => rfl

theorem feed_of_payload {t : VideoTag} (h : t.stage = .payload) (piece : List UInt8) :
    t.feed piece =
      ({ t with media := t.media ++ piece.take (t.capacity - t.media.length) },
        (piece.take (t.capacity - t.media.length)).length) := by
  cases piece with
  | nil =>
    rw [List.take_nil, List.append_nil]
    rfl
  | cons b rest => rw [feed, h]

def reader : TagReader VideoTag where
  feed := feed
  InHeader t := t.stage ≠ .payload
  readByte := readByte
  room t := t.capacity - t.media.length
  addMedia t xs := { t with media := t.media ++ xs }
  feed_nil _ := rfl
  feed_header := feed_of_header
  feed_payload h := feed_of_payload (Decidable.not_not.1 h)
  room_readByte := room_readByte
  inHeader_addMedia _ _ := Iff.rfl
  room_addMedia t xs := by rw [List.length_append, Nat.sub_add_eq]
  addMedia_addMedia t xs ys := by rw [List.append_assoc]

end VideoTag

end LiveIngest
