import LiveIngest.Proofs.Amf.Encode
import LiveIngest.Proofs.Amf.RoundTrip

/-!
# How deep values nest

A writer of AMF0 knows no limit of depth, and a reader has one. As long as a reader can tell where
each container ends, this is the whole difference between the two:

* `Value.nesting` — how many containers stand around the innermost value;
* `Value.isDelimited` — a reader sees the end of each container where the writer put it: no property
  has an empty name, which is what ends properties, and the length of each strict array is a number
  of four bytes;
* `ReadsIf fits p bytes` — `p` takes exactly `bytes`, whatever follows them, if `fits` holds, and
  fails on them as nested too deep if it does not;
* `readsIf_next` — a reader takes the bytes of a delimited value exactly if it nests no deeper than
  the reader may go. By induction on the levels;
* `decodeAll_of_encodeAll` — the same for whole bodies, none of whose values is lost.

Nothing is said of the value that comes back, so that properties may stand in any order and their
names may repeat.
-/

namespace LiveIngest.Amf

open Decoder

namespace Value

mutual

/-- How many containers stand around the innermost value. -/
def nesting : Value → Nat
  | .object fields | .ecmaArray fields => nestingOfFields fields + 1
  | .strictArray items => nestingOfItems items + 1
  | _ => 0

def nestingOfItems : List Value → Nat
  | [] => 0
  | v :: rest => max v.nesting (nestingOfItems rest)

def nestingOfFields : List (String × Value) → Nat
  | [] => 0
  | (_, v) :: rest => max v.nesting (nestingOfFields rest)

end

mutual

/-- True for a value in which a reader sees where each container ends. -/
def isDelimited : Value → Bool
  | .object fields | .ecmaArray fields => areDelimitedFields fields
  | .strictArray items => decide (items.length < UInt32.size) && areDelimited items
  | _ => true

def areDelimited : List Value → Bool
  | [] => true
  | v :: rest => v.isDelimited && areDelimited rest

def areDelimitedFields : List (String × Value) → Bool
  | [] => true
  | (name, v) :: rest => decide (name ≠ "") && v.isDelimited && areDelimitedFields rest

end

/-- Items nest as deep as the deepest of them. -/
theorem nestingOfItems_le_iff {levels : Nat} (vs : List Value) :
    nestingOfItems vs ≤ levels ↔ ∀ v ∈ vs, v.nesting ≤ levels := by
  induction vs with
  | nil => simp [nestingOfItems]
  | cons v rest ih => simp [nestingOfItems, ih]

/-- Values are delimited if each of them is. -/
theorem areDelimited_iff (vs : List Value) :
    areDelimited vs = true ↔ ∀ v ∈ vs, v.isDelimited = true := by
  induction vs with
  | nil => simp [areDelimited]
  | cons v rest ih => simp [areDelimited, ih]

end Value

/-! ### Readers that go so deep and no deeper -/

namespace Decoder

variable {α β : Type} {P Q : Prop}

/-- `p` takes exactly `bytes` if `fits` holds, and fails on them as nested too deep otherwise. -/
def ReadsIf (fits : Prop) (p : Decode α) (bytes : List UInt8) : Prop :=
  ∀ rest depth,
    (fits → ∃ a, p ⟨bytes ++ rest, depth⟩ = .ok a ⟨rest, depth⟩) ∧
    (¬ fits → ∃ d, p ⟨bytes ++ rest, depth⟩ = .error .nestingTooDeep d)

/-- What is read in any case is read on a condition that holds. -/
theorem Reads.readsIf {p : Decode α} {bytes : List UInt8} {a : α} (h : Reads p bytes a)
    (hfits : P) : ReadsIf P p bytes := by
  intro rest depth
  exact ⟨fun _ => ⟨a, h rest depth⟩, fun hnot => absurd hfits hnot⟩

/-- Only the truth of the condition counts. -/
theorem ReadsIf.congr {p : Decode α} {bytes : List UInt8} (h : ReadsIf P p bytes) (hiff : P ↔ Q) :
    ReadsIf Q p bytes := by
  rwa [← propext hiff]

/-- Of two readers the first one that is refused ends the reading. -/
theorem ReadsIf.bind {p : Decode α} {q : α → Decode β} {front back : List UInt8}
    (hp : ReadsIf P p front) (hq : ∀ a, ReadsIf Q (q a) back) :
    ReadsIf (P ∧ Q) (p >>= q) (front ++ back) := by
  intro rest depth
  rw [List.append_assoc]
  change (_ → ∃ b, EStateM.bind p q _ = _) ∧ (_ → ∃ d, EStateM.bind p q _ = _)
  unfold EStateM.bind
  obtain ⟨hok, herror⟩ := hp (back ++ rest) depth
  -- a first reader that is refused ends it all, whatever the second one would do
  by_cases hfits : P
  · obtain ⟨a, ha⟩ := hok hfits
    obtain ⟨hok, herror⟩ := hq a rest depth
    simp only [ha]
    exact ⟨fun h => hok h.2, fun h => herror fun hQ => h ⟨hfits, hQ⟩⟩
  · obtain ⟨d, hd⟩ := herror hfits
    simp only [hd]
    exact ⟨fun h => absurd h.1 hfits, fun _ => ⟨d, rfl⟩⟩

/-- A field is never refused, and what follows it may depend on what stands in it. -/
theorem Reads.bind_readsIf {p : Decode α} {q : α → Decode β} {front back : List UInt8} {a : α}
    (hp : Reads p front a) (hq : ReadsIf P (q a) back) : ReadsIf P (p >>= q) (front ++ back) := by
  intro rest depth
  rw [List.append_assoc]
  change (_ → ∃ b, EStateM.bind p q _ = _) ∧ (_ → ∃ d, EStateM.bind p q _ = _)
  unfold EStateM.bind
  rw [hp]
  exact hq rest depth

/-- What becomes of the value does not bear on whether it is read. -/
theorem ReadsIf.map {p : Decode α} {bytes : List UInt8} (h : ReadsIf P p bytes) (f : α → β) :
    ReadsIf P (p >>= fun x => Pure.pure (f x)) bytes := by
  have hall := h.bind fun a => (Reads.pure (f a)).readsIf trivial
  rw [List.append_nil] at hall
  exact hall.congr (and_iff_left trivial)

/-- A byte in front is read before the condition is looked at. -/
theorem ReadsIf.cons {q : UInt8 → Decode β} (byte : UInt8) {bytes : List UInt8}
    (h : ReadsIf P (q byte) bytes) :
    ReadsIf P (Decoder.field Take.uint8 >>= q) (byte :: bytes) := by
  have hbyte : Reads (Decoder.field Take.uint8) [byte] byte := Reads.field (Take.uint8_cons byte)
  exact hbyte.bind_readsIf h

/-- A container is read as its body is. -/
theorem ReadsIf.inside {child : Decode Value} {body : Decode Value → Decode α}
    {bytes : List UInt8} (h : ReadsIf P (body child) bytes) :
    ReadsIf P (Decoder.inside (some child) body) bytes := by
  intro rest depth
  -- the body is read one level deeper
  obtain ⟨hok, herror⟩ := h rest (depth + 1)
  rw [inside_some_apply]
  refine ⟨fun hfits => ?_, fun hnot => ?_⟩
  · obtain ⟨a, ha⟩ := hok hfits
    simp only [ha]
    exact ⟨a, rfl⟩
  · obtain ⟨d, hd⟩ := herror hnot
    simp only [hd]
    exact ⟨d, rfl⟩

/-- Where no further level is allowed, a container fails before anything in it is read. -/
theorem readsIf_inside_none (body : Decode Value → Decode α) (bytes : List UInt8) (hnot : ¬ P) :
    ReadsIf P (Decoder.inside none body) bytes := by
  intro rest depth
  exact ⟨fun h => absurd h hnot, fun _ => ⟨_, rfl⟩⟩

end Decoder

/-! ### Values -/

/-- A name that was encoded fits, and its bytes are known. -/
theorem eq_of_encodeName {s : String} {label : List UInt8} (h : encodeName s = .ok label) :
    (utf8 s).length ≤ 65535 ∧ label = Bytes.bigEndian 2 (utf8 s).length ++ utf8 s := by
  unfold encodeName at h
  dsimp only at h
  split at h
  · cases h
  · rename_i hshort
    cases h
    exact ⟨Nat.not_lt.1 hshort, rfl⟩

/-- A long text that was encoded has a length of 32 bits. -/
theorem length_of_encodeLongText {s : String} {bytes : List UInt8}
    (h : encodeLongText s = .ok bytes) : (utf8 s).length < UInt32.size := by
  unfold encodeLongText at h
  dsimp only at h
  split at h
  · cases h
  · rename_i hfits
    exact Nat.lt_succ_of_le (Nat.not_lt.1 hfits)

/-- A value without members that was written has a text that is not too long. -/
theorem fits_of_encode {v : Value} {bytes : List UInt8} (hplain : v.isContainer = false)
    (h : encode v = .ok bytes) (levels : Nat) : v.Fits levels := by
  cases v with
  | number _ | boolean _ | null | undefined | date _ _ => simp [Value.Fits]
  | string s =>
    rw [Value.Fits]
    rw [encode] at h
    split at h
    · exact length_of_encodeLongText h
    -- a string that is not written as a long one is short enough
    · rename_i hshort
      exact Nat.lt_of_le_of_lt (Nat.not_lt.1 hshort) (by decide)
  | longString s =>
    rw [Value.Fits]
    rw [encode] at h
    exact length_of_encodeLongText h
  | object _ | ecmaArray _ | strictArray _ => cases hplain

/-- What is no container nests nothing. -/
theorem nesting_of_plain {v : Value} (hplain : v.isContainer = false) : v.nesting = 0 := by
  cases v with
  | object _ | ecmaArray _ | strictArray _ => cases hplain
  | _ => rfl

/-- Plain values are read at every level. -/
theorem readsIf_plain {v : Value} {bytes : List UInt8} (child : Option (Decode Value))
    (levels : Nat) (hplain : v.isContainer = false) (hencode : encode v = .ok bytes) :
    ReadsIf (v.nesting ≤ levels) (value child) bytes := by
  obtain ⟨_, hback, -, hreads⟩ :=
    readsBack_plain child hplain (fits_of_encode hplain hencode levels)
  cases hencode.symm.trans hback
  exact hreads.readsIf (nesting_of_plain hplain ▸ Nat.zero_le levels)

section Members

-- what `readsIf_next` knows of the reader of the members, one level down
variable {child : Decode Value} {levels : Nat}
  (hchild : ∀ {v bytes}, v.isDelimited = true → encode v = .ok bytes →
    ReadsIf (v.nesting ≤ levels) child bytes)

include hchild

/-- Items are read if none of them is too deep, by induction on the items. -/
theorem readsIf_items {vs : List Value} {bytes : List UInt8}
    (hdelimited : Value.areDelimited vs = true) (hencode : encodeAll vs = .ok bytes)
    (found : List Value) :
    ReadsIf (Value.nestingOfItems vs ≤ levels) (items child vs.length found) bytes := by
  induction vs generalizing bytes found with
  | nil =>
    cases hencode
    exact (Reads.pure found.reverse).readsIf (Nat.zero_le levels)
  | cons v rest ih =>
    rw [Value.areDelimited, Bool.and_eq_true] at hdelimited
    obtain ⟨hv, hrest⟩ := hdelimited
    rw [encodeAll] at hencode
    obtain ⟨front, hfront, hencode⟩ := ok_of_bind hencode
    obtain ⟨back, hback, hencode⟩ := ok_of_bind hencode
    cases hencode
    have hall := (hchild hv hfront).bind fun v => ih hrest hback (v :: found)
    -- the deepest of the items counts
    exact hall.congr max_le_iff.symm

/-- Properties and the marker that ends them. Each one takes bytes, so that the reader does not run
out of steps before that marker. -/
theorem readsIf_fields {fields : List (String × Value)} {bytes : List UInt8}
    (hdelimited : Value.areDelimitedFields fields = true)
    (hencode : encodeFields fields = .ok bytes) :
    fields.length < bytes.length ∧ ∀ steps found, fields.length < steps →
      ReadsIf (Value.nestingOfFields fields ≤ levels) (Decoder.fields child steps found) bytes := by
  induction fields generalizing bytes with
  | nil =>
    -- the end marker takes a step of its own
    cases hencode
    refine ⟨by decide, fun steps found hsteps => ?_⟩
    obtain ⟨steps, rfl⟩ : ∃ n, steps = n + 1 := ⟨steps - 1, by omega⟩
    exact (reads_propertiesEnd child steps found).readsIf (Nat.zero_le levels)
  | cons e rest ih =>
    obtain ⟨name, v⟩ := e
    simp only [Value.areDelimitedFields, Bool.and_eq_true, decide_eq_true_eq] at hdelimited
    obtain ⟨⟨hname, hv⟩, hrest⟩ := hdelimited
    rw [encodeFields] at hencode
    obtain ⟨label, hlabel, hencode⟩ := ok_of_bind hencode
    obtain ⟨front, hfront, hencode⟩ := ok_of_bind hencode
    obtain ⟨back, hback, hencode⟩ := ok_of_bind hencode
    cases hencode
    obtain ⟨hshort, rfl⟩ := eq_of_encodeName hlabel
    obtain ⟨hlen, hnext⟩ := ih hrest hback
    refine ⟨?_, fun steps found hsteps => ?_⟩
    · simp only [List.length_append, Bytes.length_bigEndian, List.length_cons]
      omega
    obtain ⟨steps, rfl⟩ : ∃ n, steps = n + 1 := ⟨steps - 1, by omega⟩
    -- a field is read and then the others, under both conditions at once
    have hall := (hchild hv hfront).bind fun v =>
      hnext steps (found.put name v) (Nat.lt_of_succ_lt_succ hsteps)
    intro rest depth
    rw [List.append_assoc, fields_name_apply ⟨hname, hshort⟩]
    exact (hall.congr max_le_iff.symm) rest depth

/-- Properties are read if none of their values is too deep. -/
theorem readsIf_properties {fields : List (String × Value)} {bytes : List UInt8}
    (hdelimited : Value.areDelimitedFields fields = true)
    (hencode : encodeFields fields = .ok bytes) :
    ReadsIf (Value.nestingOfFields fields ≤ levels) (properties (some child)) bytes := by
  obtain ⟨hlen, hfields⟩ := readsIf_fields hchild hdelimited hencode
  refine ReadsIf.inside fun rest depth => ?_
  have hsteps : fields.length < (bytes ++ rest).length + 1 := by
    rw [List.length_append]
    omega
  exact hfields _ [] hsteps rest depth

end Members

/-- One value of each kind, by what a reader makes of the insides of containers. -/
theorem readsIf_value {child : Option (Decode Value)} {levels : Nat}
    (hproperties : ∀ {fields body}, Value.areDelimitedFields fields = true →
      encodeFields fields = .ok body →
      ReadsIf (Value.nestingOfFields fields + 1 ≤ levels) (properties child) body)
    (hitems : ∀ {vs body}, Value.areDelimited vs = true → encodeAll vs = .ok body →
      ReadsIf (Value.nestingOfItems vs + 1 ≤ levels)
        (inside child fun c => items c vs.length []) body)
    {v : Value} {bytes : List UInt8} (hdelimited : v.isDelimited = true)
    (hencode : encode v = .ok bytes) : ReadsIf (v.nesting ≤ levels) (value child) bytes := by
  -- containers differ in what stands in front of their values
  cases v with
  | object fields =>
    rw [encode] at hencode
    obtain ⟨body, hbody, hencode⟩ := ok_of_bind hencode
    cases hencode
    exact ReadsIf.cons Marker.object.code ((hproperties hdelimited hbody).map Value.object)
  | ecmaArray fields =>
    rw [encode] at hencode
    obtain ⟨body, hbody, hencode⟩ := ok_of_bind hencode
    cases hencode
    refine ReadsIf.cons Marker.ecmaArray.code ?_
    exact (Reads.field (Take.uint32_bigEndian_ofNat _)).bind_readsIf
      ((hproperties hdelimited hbody).map Value.ecmaArray)
  | strictArray vs =>
    rw [encode] at hencode
    obtain ⟨body, hbody, hencode⟩ := ok_of_bind hencode
    cases hencode
    simp only [Value.isDelimited, Bool.and_eq_true, decide_eq_true_eq] at hdelimited
    have hcount : (UInt32.ofNat vs.length).toNat = vs.length :=
      UInt32.toNat_ofNat_of_lt' hdelimited.1
    refine ReadsIf.cons Marker.strictArray.code ?_
    refine (Reads.field (Take.uint32_bigEndian_ofNat _)).bind_readsIf ?_
    rw [hcount]
    exact (hitems hdelimited.2 hbody).map Value.strictArray
  | _ => exact readsIf_plain child levels rfl hencode

/-- **A delimited value is read exactly if it does not nest too deep.** -/
theorem readsIf_next (levels : Nat) {v : Value} {bytes : List UInt8}
    (hdelimited : v.isDelimited = true) (hencode : encode v = .ok bytes) :
    ReadsIf (v.nesting ≤ levels) (next levels) bytes := by
  induction levels generalizing v bytes with
  | zero =>
    -- on the last level no container is opened
    refine readsIf_value ?_ ?_ hdelimited hencode
    · intro fields body _ _
      exact readsIf_inside_none _ body (Nat.not_succ_le_zero _)
    · intro vs body _ _
      exact readsIf_inside_none _ body (Nat.not_succ_le_zero _)
  | succ levels ih =>
    refine readsIf_value ?_ ?_ hdelimited hencode
    · intro fields body hfields hbody
      exact (readsIf_properties ih hfields hbody).congr Nat.succ_le_succ_iff.symm
    · intro vs body hvs hbody
      exact (ReadsIf.inside (readsIf_items ih hvs hbody [])).congr Nat.succ_le_succ_iff.symm

/-! ### Whole bodies -/

/-- A long text takes at least the bytes of its length. -/
theorem encodeLongText_ne_nil (s : String) : encodeLongText s ≠ .ok [] := by
  unfold encodeLongText
  dsimp only
  split <;> simp

/-- A value takes bytes, its marker at least. -/
theorem encode_ne_nil (v : Value) : encode v ≠ .ok [] := by
  intro h
  cases v with
  | string s =>
    rw [encode] at h
    split at h
    · exact encodeLongText_ne_nil s h
    · cases hname : encodeName s <;> simp [hname, Except.map] at h
  | longString s =>
    rw [encode] at h
    exact encodeLongText_ne_nil s h
  | object _ | ecmaArray _ | strictArray _ =>
    rw [encode] at h
    obtain ⟨body, -, h⟩ := ok_of_bind h
    cases h
  | _ => cases h

/-- Values one after the other. The first one that nests too deep ends the reading, and otherwise as
many values come back as were written. -/
theorem untilEnd_of_encodeAll {vs : List Value} {bytes : List UInt8}
    (hdelimited : Value.areDelimited vs = true) (hencode : encodeAll vs = .ok bytes) :
    vs.length ≤ bytes.length ∧ ∀ steps found, vs.length ≤ steps →
      (Value.nestingOfItems vs ≤ maxDepth →
        ∃ ws d, untilEnd steps found ⟨bytes, 0⟩ = .ok ws d ∧
          ws.length = found.length + vs.length) ∧
      (¬ Value.nestingOfItems vs ≤ maxDepth →
        ∃ d, untilEnd steps found ⟨bytes, 0⟩ = .error .nestingTooDeep d) := by
  induction vs generalizing bytes with
  | nil =>
    cases hencode
    refine ⟨Nat.le_refl _, fun steps found _ => ⟨fun _ => ?_, fun hdeep => ?_⟩⟩
    · cases steps <;> exact ⟨found.reverse, _, rfl, List.length_reverse⟩
    · exact absurd (Nat.zero_le maxDepth) hdeep
  | cons v rest ih =>
    rw [Value.areDelimited, Bool.and_eq_true] at hdelimited
    rw [encodeAll] at hencode
    obtain ⟨front, hfront, hencode⟩ := ok_of_bind hencode
    obtain ⟨back, hback, hencode⟩ := ok_of_bind hencode
    cases hencode
    -- every value takes a byte, so that the steps suffice
    have hne : front ≠ [] := by
      rintro rfl
      exact encode_ne_nil v hfront
    have hpos : 0 < front.length := List.length_pos_of_ne_nil hne
    obtain ⟨hlen, hnext⟩ := ih hdelimited.2 hback
    refine ⟨?_, fun steps found hsteps => ?_⟩
    · rw [List.length_append, List.length_cons]
      omega
    rw [List.length_cons] at hsteps
    obtain ⟨steps, rfl⟩ : ∃ n, steps = n + 1 := ⟨steps - 1, by omega⟩
    have hmore : (front ++ back).isEmpty = false := by simp [hne]
    have hfirst : ReadsIf (v.nesting ≤ maxDepth) (next maxDepth) front :=
      readsIf_next maxDepth hdelimited.1 hfront
    obtain ⟨hok, herror⟩ := hfirst back 0
    rw [Value.nestingOfItems, max_le_iff, untilEnd_succ]
    simp only [hmore, Bool.false_eq_true, if_false, bind, EStateM.bind]
    change _ ∧ _
    -- the first value decides alone if it is too deep, and else the others decide
    by_cases hfits : v.nesting ≤ maxDepth
    · obtain ⟨w, hw⟩ := hok hfits
      have hdecode : decode ⟨front ++ back, 0⟩ = .ok w ⟨back, 0⟩ := hw
      obtain ⟨hall, htoo⟩ := hnext steps (w :: found) (Nat.le_of_succ_le_succ hsteps)
      simp only [hdecode]
      refine ⟨fun h => ?_, fun h => htoo fun hrest => h ⟨hfits, hrest⟩⟩
      obtain ⟨ws, d, hread, hcount⟩ := hall h.2
      refine ⟨ws, d, hread, ?_⟩
      rw [hcount, List.length_cons, List.length_cons]
      omega
    · obtain ⟨d, hd⟩ := herror hfits
      have hdecode : decode ⟨front ++ back, 0⟩ = .error .nestingTooDeep d := hd
      simp only [hdecode]
      exact ⟨fun h => absurd h.1 hfits, fun _ => ⟨d, rfl⟩⟩

/-- Values that nest no deeper than a reader goes, among which no value is lost. -/
theorem exists_decodeAll {vs : List Value} {bytes : List UInt8}
    (hdelimited : ∀ v ∈ vs, v.isDelimited = true) (hencode : encodeAll vs = .ok bytes)
    (hfits : ∀ v ∈ vs, v.nesting ≤ maxDepth) :
    ∃ ws, decodeAll bytes = .ok ws ∧ ws.length = vs.length := by
  obtain ⟨hlen, hread⟩ := untilEnd_of_encodeAll ((Value.areDelimited_iff vs).2 hdelimited) hencode
  obtain ⟨ws, d, hws, hcount⟩ :=
    (hread bytes.length [] hlen).1 ((Value.nestingOfItems_le_iff vs).2 hfits)
  refine ⟨ws, by rw [decodeAll, Decoder.ofList, hws], ?_⟩
  rw [hcount, List.length_nil, Nat.zero_add]

/-- One value too deep fails them all, and with that fault and no other. -/
theorem decodeAll_eq_nestingTooDeep {vs : List Value} {bytes : List UInt8}
    (hdelimited : ∀ v ∈ vs, v.isDelimited = true) (hencode : encodeAll vs = .ok bytes)
    (hdeep : ∃ v ∈ vs, maxDepth < v.nesting) : decodeAll bytes = .error .nestingTooDeep := by
  obtain ⟨v, hv, hdeep⟩ := hdeep
  have hnot : ¬ Value.nestingOfItems vs ≤ maxDepth := by
    intro hall
    exact Nat.not_lt.2 ((Value.nestingOfItems_le_iff vs).1 hall v hv) hdeep
  obtain ⟨hlen, hread⟩ := untilEnd_of_encodeAll ((Value.areDelimited_iff vs).2 hdelimited) hencode
  obtain ⟨d, hd⟩ := (hread bytes.length [] hlen).2 hnot
  rw [decodeAll, Decoder.ofList, hd]

/-- **What is written is read, down to the depth of the reader.** For all values in which a reader
sees where each container ends, with their properties in any order: the writer reports a fault, or
the reader accepts the bytes as the same number of values, unless one of them nests deeper than a
reader goes; then it refuses them as nested too deep. -/
theorem decodeAll_of_encodeAll (vs : List Value) (hdelimited : ∀ v ∈ vs, v.isDelimited = true) :
    (∃ f, encodeAll vs = .error f) ∨
    ∃ bytes, encodeAll vs = .ok bytes ∧
      ((∀ v ∈ vs, v.nesting ≤ maxDepth) →
        ∃ ws, decodeAll bytes = .ok ws ∧ ws.length = vs.length) ∧
      ((∃ v ∈ vs, maxDepth < v.nesting) → decodeAll bytes = .error .nestingTooDeep) := by
  cases hencode : encodeAll vs with
  | error f => exact Or.inl ⟨f, rfl⟩
  | ok bytes =>
    exact Or.inr ⟨bytes, rfl, exists_decodeAll hdelimited hencode,
      decodeAll_eq_nestingTooDeep hdelimited hencode⟩

/-- Nothing inside of `n` strict arrays. -/
def Value.boxed (n : Nat) : Value :=
  (fun v => .strictArray [v])^[n] .null

/-- Values at the limit, behind a map that is not written in ascending order and repeats a name; and
one level more. -/
theorem decodeAll_of_encodeAll_boxed :
    let shallow : List Value := [.object [("b", .undefined), ("a", .boxed 63), ("b", .null)],
      .boxed 64]
    let deep : List Value := [.null, .boxed 65]
    (∃ bytes ws, encodeAll shallow = .ok bytes ∧ decodeAll bytes = .ok ws ∧ ws.length = 2) ∧
    ∃ bytes, encodeAll deep = .ok bytes ∧ decodeAll bytes = .error .nestingTooDeep := by
  intro shallow deep
  -- what the theorem asks of values, and that both lists can be written, is evaluated
  have hshallow : ∀ v ∈ shallow, v.isDelimited = true := by decide +kernel
  have hdeep : ∀ v ∈ deep, v.isDelimited = true := by decide +kernel
  have hwritten : (encodeAll shallow).toBool = true ∧ (encodeAll deep).toBool = true := by
    decide +kernel
  constructor
  · obtain ⟨f, hf⟩ | ⟨bytes, hbytes, hread, -⟩ := decodeAll_of_encodeAll shallow hshallow
    · rw [hf] at hwritten
      cases hwritten.1
    · obtain ⟨ws, hws, hcount⟩ := hread (by decide +kernel)
      exact ⟨bytes, ws, hbytes, hws, hcount⟩
  · obtain ⟨f, hf⟩ | ⟨bytes, hbytes, -, htooDeep⟩ := decodeAll_of_encodeAll deep hdeep
    · rw [hf] at hwritten
      cases hwritten.2
    · exact ⟨bytes, hbytes, htooDeep (by decide +kernel)⟩

/-- The length of an array goes round in its field of four bytes: an array of 2 ^ 32 items is
written as an empty one, with the items behind it. -/
theorem encodeAll_of_length_eq_size {items : List Value} (h : items.length = UInt32.size) :
    encodeAll [.strictArray items] = encodeAll (.strictArray [] :: items) := by
  have hcount : Bytes.bigEndian 4 items.length = Bytes.bigEndian 4 0 := by
    rw [h]
    decide
  simp only [encodeAll, encode, hcount, List.length_nil]
  cases encodeAll items with
  | error f => rfl
  | ok body => simp [bind, Except.bind, pure, Except.pure]

/-- **Values that are written and not read.** One that nests too deep; one with a property that has
an empty name, which a reader takes for the end of the properties; and an array of 2 ^ 32 items,
which comes back as an empty array and its items. -/
theorem unread_of_encodeAll :
    (∃ bytes, encodeAll [.boxed 65] = .ok bytes ∧ decodeAll bytes = .error .nestingTooDeep) ∧
    (encodeAll [.object [("", .null)]] = .ok [3, 0, 0, 5, 0, 0, 9] ∧
      decodeAll [3, 0, 0, 5, 0, 0, 9] = .error (.objectEndMissing 5)) ∧
    ∃ bytes ws, encodeAll [.strictArray (List.replicate UInt32.size .null)] = .ok bytes ∧
      decodeAll bytes = .ok ws ∧ ws.length = UInt32.size + 1 := by
  refine ⟨?_, ⟨rfl, rfl⟩, ?_⟩
  · have hboxes : encodeAll [.boxed 65] =
        .ok ((List.replicate 65 [10, 0, 0, 0, 1]).flatten ++ [5]) := by decide +kernel
    exact ⟨_, hboxes, decodeAll_eq_nestingTooDeep (by decide +kernel) hboxes (by decide +kernel)⟩
  · -- read back, the count of zero leaves an empty array with its items behind it
    have hfits : ∀ v ∈ Value.strictArray [] :: List.replicate UInt32.size .null,
        v.Fits maxDepth := by
      rintro v (_ | ⟨_, hv⟩)
      · simp [maxDepth, Value.Fits]
      · rw [List.eq_of_mem_replicate hv]
        simp [Value.Fits]
    obtain ⟨bytes, hbytes, hread⟩ := exists_encodeAll hfits (Walked.refl_all _)
    refine ⟨bytes, _, ?_, hread, ?_⟩
    · rw [encodeAll_of_length_eq_size List.length_replicate, hbytes]
    · rw [List.length_map, List.length_cons, List.length_replicate]

end LiveIngest.Amf
