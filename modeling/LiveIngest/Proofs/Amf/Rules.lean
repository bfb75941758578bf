import LiveIngest.Amf.Decode
import LiveIngest.Amf.Encode
import LiveIngest.Proofs.Bytes.Take

/-!
# Readers of values, rule by rule

Two things are said of a reader of values, each with one rule for every way in which readers are put
together:

* `Reads p bytes a` — `p` reads `a` off exactly `bytes`, in front of whatever follows them and at
  whatever depth;
* `Keeps p P` — what `p` makes of any bytes at all has `P`, and afterwards the depth is what it was.

What is proved of `Decoder.next` cites these rules and does not open the monad. The depth goes up
and down in one place only, around the inside of a container (`Reads.inside`, `Keeps.inside`).
-/

namespace LiveIngest.Amf.Decoder

variable {α β : Type}

/-! ### Bytes that are read -/

/-- `p` reads `a` off the front, takes exactly `bytes` and leaves the depth as it was. -/
def Reads (p : Decode α) (bytes : List UInt8) (a : α) : Prop :=
  ∀ rest depth, p ⟨bytes ++ rest, depth⟩ = .ok a ⟨rest, depth⟩

theorem Reads.pure (a : α) : Reads (pure a) [] a :=
  fun _ _ => rfl

/-- One reading behind another takes both their bytes. -/
theorem Reads.bind {p : Decode α} {q : α → Decode β} {front back : List UInt8} {a : α} {b : β}
    (hp : Reads p front a) (hq : Reads (q a) back b) : Reads (p >>= q) (front ++ back) b := by
  intro rest depth
  show EStateM.bind p q ⟨front ++ back ++ rest, depth⟩ = _
  rw [List.append_assoc, EStateM.bind, hp]
  exact hq rest depth

/-- What was read may be wrapped. -/
theorem Reads.map {p : Decode α} {bytes : List UInt8} {a : α} (hp : Reads p bytes a) (f : α → β) :
    Reads (p >>= fun x => Pure.pure (f x)) bytes (f a) := by
  have h := hp.bind (q := fun x => Pure.pure (f x)) (Reads.pure (f a))
  rwa [List.append_nil] at h

/-- A field is read by a reader of bytes that takes exactly its own. -/
theorem Reads.field {reader : Take α} {bytes : List UInt8} {a : α}
    (h : ∀ rest, reader (bytes ++ rest) = .ok a rest) : Reads (field reader) bytes a := by
  intro rest depth
  simp only [Decoder.field, h]

/-- One byte, and what is read behind it. -/
theorem Reads.cons {q : UInt8 → Decode β} (byte : UInt8) {bytes : List UInt8} {b : β}
    (hq : Reads (q byte) bytes b) :
    Reads (Decoder.field Take.uint8 >>= q) (byte :: bytes) b := by
  have hbyte : Reads (Decoder.field Take.uint8) [byte] byte := Reads.field (Take.uint8_cons byte)
  exact hbyte.bind hq

/-- A text is read off its bytes in UTF-8. -/
theorem Reads.text (s : String) {n : Nat} (h : n = (utf8 s).length) :
    Reads (text n) (utf8 s) s := by
  intro rest depth
  subst h
  have hbytes := Reads.field (Take.bytes_append (utf8 s)) rest depth
  have hutf8 : String.fromUTF8? ⟨(utf8 s).toArray⟩ = some s := dif_pos s.isValidUTF8
  simp only [Decoder.text, Bind.bind, EStateM.bind, hbytes, hutf8]
  rfl

/-- The depth of a container is that of its members while they are read. -/
theorem inside_some_apply (child : Decode Value) (body : Decode Value → Decode α) (d : Decoder) :
    Decoder.inside (some child) body d =
      match body child { d with depth := d.depth + 1 } with
      | .ok a d' => .ok a { d' with depth := d'.depth - 1 }
      | .error f d' => .error f d' := by
  change EStateM.bind (body child) (fun a => leave >>= fun _ => pure a)
    { d with depth := d.depth + 1 } = _
  unfold EStateM.bind
  cases body child { d with depth := d.depth + 1 } <;> rfl

/-- The inside of a container, one level deeper. -/
theorem Reads.inside {child : Decode Value} {body : Decode Value → Decode α} {bytes : List UInt8}
    {a : α} (h : Reads (body child) bytes a) : Reads (inside (some child) body) bytes a := by
  intro rest depth
  have hbody := h rest (depth + 1)
  rw [inside_some_apply, hbody]
  rfl

/-! ### What a reader makes of any bytes -/

/-- Whatever `p` reads has `P`, and reading it leaves the depth as it was. -/
def Keeps (p : Decode α) (P : α → Prop) : Prop :=
  ∀ d a d', p d = .ok a d' → P a ∧ d'.depth = d.depth

theorem Keeps.pure {P : α → Prop} {a : α} (h : P a) : Keeps (pure a) P := by
  intro d b d' hok
  cases hok
  exact ⟨h, rfl⟩

theorem Keeps.throw {P : α → Prop} (f : Fault) : Keeps (throw f) P :=
  fun _ _ _ hok => nomatch hok

/-- What is read first may say what is read then. -/
theorem Keeps.bind {p : Decode α} {q : α → Decode β} {P : α → Prop} {Q : β → Prop}
    (hp : Keeps p P) (hq : ∀ a, P a → Keeps (q a) Q) : Keeps (p >>= q) Q := by
  intro d b d' hok
  change EStateM.bind p q d = _ at hok
  unfold EStateM.bind at hok
  split at hok
  -- depth is restored by both
  · rename_i a middle hfirst
    obtain ⟨ha, hdepth⟩ := hp d a middle hfirst
    obtain ⟨hb, hdepth'⟩ := hq a ha middle b d' hok
    exact ⟨hb, hdepth'.trans hdepth⟩
  · cases hok

theorem Keeps.imp {p : Decode α} {P Q : α → Prop} (hp : Keeps p P) (h : ∀ a, P a → Q a) :
    Keeps p Q :=
  fun d a d' hok => (hp d a d' hok).imp (h a) id

theorem Keeps.map {p : Decode α} {P : α → Prop} {Q : β → Prop} (hp : Keeps p P) {f : α → β}
    (h : ∀ a, P a → Q (f a)) : Keeps (p >>= fun x => Pure.pure (f x)) Q :=
  hp.bind fun a ha => Keeps.pure (h a ha)

/-- What holds of everything that a reader of bytes gives holds of the field. -/
theorem Keeps.field {reader : Take α} {P : α → Prop}
    (h : ∀ left a rest, reader left = .ok a rest → P a) : Keeps (field reader) P := by
  intro d a d' hok
  unfold Decoder.field at hok
  split at hok
  · rename_i hread
    cases hok
    exact ⟨h _ _ _ hread, rfl⟩
  · cases hok

/-- A field says nothing of what stands in it. -/
theorem Keeps.anyField (reader : Take α) : Keeps (Decoder.field reader) fun _ => True :=
  Keeps.field fun _ _ _ _ => trivial

/-- A text that was read has the announced number of bytes. -/
theorem Keeps.text (n : Nat) : Keeps (text n) fun s => (utf8 s).length = n := by
  refine (Keeps.field fun _ _ _ => Take.length_of_bytes).bind fun bytes hlen => ?_
  split
  -- what is decoded has the same bytes
  · rename_i s hutf8
    refine Keeps.pure ?_
    unfold String.fromUTF8? at hutf8
    split at hutf8
    · cases hutf8
      exact hlen
    · cases hutf8
  · exact Keeps.throw _

/-- The inside of a container. Where no further level is allowed, there is none. -/
theorem Keeps.inside {child : Option (Decode Value)} {body : Decode Value → Decode α}
    {P : α → Prop} (h : ∀ c, child = some c → Keeps (body c) P) :
    Keeps (Decoder.inside child body) P := by
  intro d a d' hok
  cases child with
  | none => cases hok
  | some c =>
    rw [inside_some_apply] at hok
    split at hok
    · rename_i b middle hbody
      obtain ⟨hb, hdepth⟩ := h c rfl _ b middle hbody
      cases hok
      -- entered and left again, the depth is what it was
      exact ⟨hb, by simp only [hdepth, Nat.add_sub_cancel]⟩
    · cases hok

end LiveIngest.Amf.Decoder
