import LiveIngest.Proofs.Amf.Fitting
import LiveIngest.Proofs.Amf.Rules

/-!
# Values there and back

A writer and a reader of AMF0 agree on the whole format:

* `readsBack_next` — a value that fits is written, in whatever order its maps are walked, as bytes
  off which the reader takes its settled form, in front of whatever follows. By induction on the
  levels; the members of a container are the level below (`readsBack_items`,
  `readsBack_properties`);
* `keeps_next` — a value that was read off any bytes fits, and is settled already. By the same
  induction, over the rules for readers (`Keeps`);
* `decodeAll_encodeAll` — both, for whole bodies.

The order in which a map was walked is lost on the way, since a reader inserts the properties into a
map again: `Keyed.Ascending.ofList_of_perm`.
-/

namespace LiveIngest.Amf

open Decoder

/-! ### What fits is read back -/

/-- `w` is written as bytes that `child` reads as `v`. -/
def ReadsBack (child : Decode Value) (w v : Value) : Prop :=
  ∃ bytes, encode w = .ok bytes ∧ bytes ≠ [] ∧ Reads child bytes v

/-- A value opens with its marker. -/
theorem readsBack_of_cons {child : Decode Value} {w v : Value} {marker : UInt8}
    {body : List UInt8} (hencode : encode w = .ok (marker :: body))
    (hreads : Reads child (marker :: body) v) : ReadsBack child w v :=
  ⟨marker :: body, hencode, List.cons_ne_nil _ _, hreads⟩

/-- A length of at most 65535 fits its field. -/
theorem toNat_size {n : Nat} (h : n ≤ 65535) : (UInt16.ofNat n).toNat = n :=
  UInt16.toNat_ofNat_of_lt' (Nat.lt_succ_of_le h)

/-- A name of up to 65535 bytes is encoded behind its length. -/
theorem encodeName_of_le {s : String} (h : (utf8 s).length ≤ 65535) :
    encodeName s = .ok (Bytes.bigEndian 2 (utf8 s).length ++ utf8 s) :=
  if_neg (Nat.not_lt.2 h)

/-- A long text is read back as the long string it is, whoever writes it. -/
theorem readsBack_longText {w : Value} {s : String} (h : (utf8 s).length < UInt32.size)
    (hencode : encode w = encodeLongText s) (child : Option (Decode Value)) :
    ReadsBack (value child) w (.longString s) := by
  have hsize : (UInt32.ofNat (utf8 s).length).toNat = (utf8 s).length :=
    UInt32.toNat_ofNat_of_lt' h
  have htext : encodeLongText s =
      .ok (Marker.longString.code :: (Bytes.bigEndian 4 (utf8 s).length ++ utf8 s)) :=
    if_neg (Nat.not_lt.2 (Nat.le_of_lt_succ h))
  refine readsBack_of_cons (hencode.trans htext) (Reads.cons Marker.longString.code ?_)
  exact (Reads.field (Take.uint32_bigEndian_ofNat _)).bind
    ((Reads.text s hsize).map Value.longString)

/-- A value without members. -/
theorem readsBack_plain (child : Option (Decode Value)) {v : Value} {levels : Nat}
    (hplain : v.isContainer = false) (hfits : v.Fits levels) :
    ReadsBack (value child) v v.settled := by
  cases v with
  | number n =>
    refine readsBack_of_cons rfl (Reads.cons Marker.number.code ?_)
    exact (Reads.field (Take.binary64_bigEndian n)).map Value.number
  | boolean b =>
    refine readsBack_of_cons rfl (Reads.cons Marker.boolean.code ?_)
    have hbyte : Reads (Decoder.field Take.uint8) [if b then 1 else 0] (if b then 1 else 0) :=
      Reads.field (Take.uint8_cons _)
    have hback := hbyte.map fun byte => Value.boolean (byte != 0)
    cases b <;> exact hback
  | null => exact readsBack_of_cons rfl (Reads.cons Marker.null.code (Reads.pure _))
  | undefined => exact readsBack_of_cons rfl (Reads.cons Marker.undefined.code (Reads.pure _))
  | date millis zone =>
    refine readsBack_of_cons rfl (Reads.cons Marker.date.code ?_)
    refine (Reads.field (Take.binary64_bigEndian millis)).bind ?_
    have hzone := (Reads.field (Take.uint16_bigEndian zone.toUInt16.toNat)).map fun z =>
      Value.date millis (Int16.ofUInt16 z)
    rwa [UInt16.ofNat_toNat] at hzone
  | string s =>
    rw [Value.Fits] at hfits
    -- a string that does not fit is written, and read again, as a long one
    by_cases hlong : (utf8 s).length > 65535
    · rw [Value.settled, if_pos hlong]
      exact readsBack_longText hfits (by rw [encode, if_pos hlong]) child
    · have hshort : (utf8 s).length ≤ 65535 := Nat.not_lt.1 hlong
      have hencode : encode (.string s) =
          .ok (Marker.string.code :: (Bytes.bigEndian 2 (utf8 s).length ++ utf8 s)) := by
        rw [encode, if_neg hlong, encodeName_of_le hshort]
        rfl
      rw [Value.settled, if_neg hlong]
      refine readsBack_of_cons hencode (Reads.cons Marker.string.code ?_)
      exact (Reads.field (Take.uint16_bigEndian _)).bind
        ((Reads.text s (toNat_size hshort)).map Value.string)
  | longString s =>
    rw [Value.Fits] at hfits
    exact readsBack_longText hfits (by rw [encode]) child
  | object _ | ecmaArray _ | strictArray _ => cases hplain

/-- Items that are read back one by one are read back in a row. -/
theorem readsBack_items {child : Decode Value} {vs ws : List Value}
    (h : List.Forall₂ (fun v w => ReadsBack child w v) vs ws) :
    ∃ bytes, encodeAll ws = .ok bytes ∧
      ∀ found, Reads (items child ws.length found) bytes (found.reverse ++ vs) := by
  induction h with
  | nil =>
    refine ⟨[], rfl, fun found => ?_⟩
    rw [List.append_nil]
    exact Reads.pure found.reverse
  | @cons v w vs ws hv _ ih =>
    obtain ⟨front, hfront, -, hreads⟩ := hv
    obtain ⟨back, hback, hrest⟩ := ih
    refine ⟨front ++ back, by rw [encodeAll, hfront, hback]; rfl, fun found => ?_⟩
    have hnext := hrest (v :: found)
    rw [List.reverse_cons, List.append_assoc] at hnext
    exact hreads.bind hnext

/-- A name that fits is taken, and the reading goes on with the property's value. -/
theorem fields_name_apply {child : Decode Value} {name : String} (hname : NameFits name)
    (steps : Nat) (found : Keyed String Value) (rest : List UInt8) (depth : Nat) :
    fields child (steps + 1) found
        ⟨Bytes.bigEndian 2 (utf8 name).length ++ utf8 name ++ rest, depth⟩ =
      (child >>= fun v => fields child steps (found.put name v)) ⟨rest, depth⟩ := by
  have hsize := toNat_size hname.2
  -- an empty name would be the end of the fields
  have hnonempty : UInt16.ofNat (utf8 name).length ≠ 0 := by
    intro hzero
    rw [hzero] at hsize
    exact hname.1 (length_utf8_eq_zero_iff.1 hsize.symm)
  have hlength := Reads.field (Take.uint16_bigEndian (utf8 name).length) (utf8 name ++ rest) depth
  have htext := Reads.text name hsize rest depth
  rw [List.append_assoc]
  simp only [fields, bind, EStateM.bind, hlength, if_neg hnonempty, htext]

/-- One property in front of others. -/
theorem reads_property {child : Decode Value} {name : String} {v : Value}
    {front back : List UInt8} {steps : Nat} {found all : Keyed String Value}
    (hname : NameFits name) (hv : Reads child front v)
    (hrest : Reads (fields child steps (found.put name v)) back all) :
    Reads (fields child (steps + 1) found)
      (Bytes.bigEndian 2 (utf8 name).length ++ utf8 name ++ (front ++ back)) all := by
  intro rest depth
  rw [List.append_assoc, fields_name_apply hname]
  exact hv.bind hrest rest depth

/-- An empty name and the end marker end the properties. -/
theorem reads_propertiesEnd (child : Decode Value) (steps : Nat) (found : Keyed String Value) :
    Reads (fields child (steps + 1) found) propertiesEnd found :=
  (Reads.field (Take.uint16_bigEndian 0)).bind
    (Reads.cons Marker.objectEnd.code (Reads.pure found))

/-- Properties in the order in which they stand on the wire, and the marker that ends them. Each one
takes bytes, so that the reader does not run out of steps before that marker. -/
theorem readsBack_fields {child : Decode Value} {read written : List (String × Value)}
    (h : List.Forall₂
      (fun e f => NameFits e.1 ∧ e.1 = f.1 ∧ ReadsBack child f.2 e.2) read written) :
    ∃ bytes, encodeFields written = .ok bytes ∧ written.length < bytes.length ∧
      ∀ steps found, written.length < steps →
        Reads (fields child steps found) bytes (read.foldl (fun m e => m.put e.1 e.2) found) := by
  induction h with
  | nil =>
    -- the end marker takes a step of its own
    refine ⟨propertiesEnd, rfl, by decide, fun steps found hsteps => ?_⟩
    obtain ⟨steps, rfl⟩ : ∃ n, steps = n + 1 := ⟨steps - 1, by omega⟩
    exact reads_propertiesEnd child steps found
  | @cons e f read written hentry _ ih =>
    obtain ⟨name, v⟩ := e
    obtain ⟨_, w⟩ := f
    obtain ⟨hname, rfl, front, hfront, -, hreads⟩ := hentry
    obtain ⟨back, hback, hlen, hrest⟩ := ih
    have hlabel : encodeName name = _ := encodeName_of_le hname.2
    refine ⟨_, by rw [encodeFields, hlabel, hfront, hback]; rfl, ?_, fun steps found hsteps => ?_⟩
    · simp only [List.length_append, Bytes.length_bigEndian, List.length_cons]
      omega
    obtain ⟨steps, rfl⟩ : ∃ n, steps = n + 1 := ⟨steps - 1, by omega⟩
    -- the entry that is read first is put in first
    exact reads_property hname hreads
      (hrest steps (found.put name v) (Nat.lt_of_succ_lt_succ hsteps))

/-- The properties of a map, walked in any order. -/
theorem readsBack_properties {child : Decode Value} {P : Value → Prop}
    {fields order written : List (String × Value)} (hfit : FieldsFit P fields)
    (hperm : order.Perm fields) (hwalk : List.Forall₂ WalkedEntry order written)
    (hmember : ∀ v w, P v → Walked v w → ReadsBack child w v.settled) :
    ∃ bytes, encodeFields written = .ok bytes ∧
      Reads (properties (some child)) bytes (Value.settledFields fields) := by
  -- whatever the order, each entry that is written is read back
  have hentries : List.Forall₂
      (fun e f => NameFits e.1 ∧ e.1 = f.1 ∧ ReadsBack child f.2 e.2)
      (order.map fun e => (e.1, e.2.settled)) written := by
    rw [List.forall₂_map_left_iff]
    have hboth := (List.forall₂_and_left order written).2
      ⟨fun e (he : e ∈ order) => hperm.mem_iff.1 he, hwalk⟩
    refine hboth.imp fun e f ⟨he, hef⟩ => ?_
    have hname := hfit.names e he
    cases hef with
    | mk name h => exact ⟨hname, rfl, hmember _ _ (hfit.values _ he) h⟩
  obtain ⟨bytes, hbytes, hlen, hreads⟩ := readsBack_fields hentries
  refine ⟨bytes, hbytes, Reads.inside fun rest depth => ?_⟩
  have hsteps : written.length < (bytes ++ rest).length + 1 := by
    rw [List.length_append]
    omega
  -- keys are distinct, and so the order does not count for what is found
  have hfold : Keyed.ofList (order.map fun e => (e.1, e.2.settled)) =
      Value.settledFields fields := by
    rw [Value.settledFields_eq_map]
    exact (hfit.ascending.mapValues Value.settled).ofList_of_perm (hperm.map _)
  have hall := hreads _ [] hsteps rest depth
  rw [← hfold]
  exact hall

/-- **A value that fits is read back.** -/
theorem readsBack_next (levels : Nat) {v w : Value} (hfits : v.Fits levels) (hwalk : Walked v w) :
    ReadsBack (next levels) w v.settled := by
  -- on the levels that are left, one of which each container takes
  induction levels generalizing v w with
  | zero =>
    cases hwalk with
    | plain h => exact readsBack_plain none h hfits
    | object _ _ | ecmaArray _ _ | strictArray _ =>
      rw [Value.Fits] at hfits
      exact hfits.elim
  | succ levels ih =>
    cases hwalk with
    | plain h => exact readsBack_plain (some (next levels)) h hfits
    | object hperm h =>
      rw [Value.Fits] at hfits
      obtain ⟨bytes, hbytes, hreads⟩ := readsBack_properties hfits hperm h fun _ _ => ih
      refine readsBack_of_cons (by rw [encode, hbytes]; rfl) ?_
      exact Reads.cons Marker.object.code (hreads.map Value.object)
    | ecmaArray hperm h =>
      rw [Value.Fits] at hfits
      obtain ⟨bytes, hbytes, hreads⟩ := readsBack_properties hfits hperm h fun _ _ => ih
      refine readsBack_of_cons (by rw [encode, hbytes]; rfl) (Reads.cons Marker.ecmaArray.code ?_)
      exact (Reads.field (Take.uint32_bigEndian_ofNat _)).bind (hreads.map Value.ecmaArray)
    | @strictArray items written h =>
      rw [Value.Fits] at hfits
      obtain ⟨hlen, hitems⟩ := hfits
      have hmembers : List.Forall₂ (fun v w => ReadsBack (next levels) w v)
          (Value.settledItems items) written := by
        rw [Value.settledItems_eq_map, List.forall₂_map_left_iff]
        have hboth := (List.forall₂_and_left items written).2 ⟨hitems, h⟩
        exact hboth.imp fun _ _ hv => ih hv.1 hv.2
      obtain ⟨bytes, hbytes, hreads⟩ := readsBack_items hmembers
      -- the items are as many as their count can say
      have hcount : (UInt32.ofNat written.length).toNat = written.length :=
        UInt32.toNat_ofNat_of_lt' (h.length_eq ▸ hlen)
      refine readsBack_of_cons (by rw [encode, hbytes]; rfl) (Reads.cons Marker.strictArray.code ?_)
      refine (Reads.field (Take.uint32_bigEndian_ofNat _)).bind ?_
      rw [hcount]
      exact (Reads.inside (hreads [])).map Value.strictArray

/-! ### What is read fits -/

/-- A value that fits and comes back as it is. -/
def Stays (levels : Nat) (v : Value) : Prop :=
  v.Fits levels ∧ v.settled = v

/-- A field that fits may be added or put in another's place. -/
theorem FieldsFit.put {P : Value → Prop} {fields : Keyed String Value} (h : FieldsFit P fields)
    {name : String} {v : Value} (hname : NameFits name) (hv : P v) :
    FieldsFit P (fields.put name v) where
  ascending := h.ascending.put name v
  names e he := by
    rcases Keyed.mem_of_mem_put he with rfl | he
    · exact hname
    · exact h.names e he
  values e he := by
    rcases Keyed.mem_of_mem_put he with rfl | he
    · exact hv
    · exact h.values e he

/-- Items are as many as were announced, and each of them is what the reader keeps to. -/
theorem keeps_items {child : Decode Value} {P : Value → Prop} (h : Keeps child P) (n : Nat)
    {found : List Value} (hfound : ∀ v ∈ found, P v) :
    Keeps (items child n found) fun vs => vs.length = found.length + n ∧ ∀ v ∈ vs, P v := by
  induction n generalizing found with
  | zero => exact Keeps.pure ⟨List.length_reverse, fun v hv => hfound v (List.mem_reverse.1 hv)⟩
  | succ n ih =>
    refine h.bind fun v hv => ?_
    have hnext := @ih (v :: found) (List.forall_mem_cons.2 ⟨hv, hfound⟩)
    rw [List.length_cons, Nat.add_right_comm] at hnext
    exact hnext

/-- Fields found so far stay fit whatever is found next. -/
theorem keeps_fields {child : Decode Value} {P : Value → Prop} (h : Keeps child P) (steps : Nat)
    {found : Keyed String Value} (hfound : FieldsFit P found) :
    Keeps (fields child steps found) (FieldsFit P) := by
  induction steps generalizing found with
  | zero => exact Keeps.throw _
  | succ steps ih =>
    refine (Keeps.anyField _).bind fun size _ => ?_
    split
    · refine (Keeps.anyField _).bind fun close _ => ?_
      split
      · exact Keeps.pure hfound
      · exact Keeps.throw _
    · rename_i hsize
      refine (Keeps.text _).bind fun name hname => h.bind fun v hv => ?_
      -- the name was not empty, and its length was read off two bytes
      have hfits : NameFits name := by
        refine ⟨fun hempty => hsize ?_, ?_⟩
        · rw [hempty] at hname
          exact UInt16.toNat_inj.1 hname.symm
        · have hlt := size.toNat_lt
          omega
      exact ih (hfound.put hfits hv)

/-- Properties of which each value comes back as it is. -/
theorem FieldsFit.stays {levels : Nat} {fields : Keyed String Value}
    (h : FieldsFit (Stays levels) fields) :
    FieldsFit (Value.Fits levels) fields ∧ Value.settledFields fields = fields := by
  refine ⟨⟨h.ascending, h.names, fun e he => (h.values e he).1⟩, ?_⟩
  rw [Value.settledFields_eq_map]
  have hsame : ∀ e ∈ fields, (e.1, e.2.settled) = e := fun e he => by rw [(h.values e he).2]
  rw [List.map_congr_left hsame, List.map_id']

section Members

-- what `keeps_next` knows of the reader of the members, one level down
variable {child : Option (Decode Value)} {levels : Nat}
  (hchild : ∀ c, child = some c → ∃ below, levels = below + 1 ∧ Keeps c (Stays below))

include hchild

/-- Properties hold values of one level less. -/
theorem keeps_properties :
    Keeps (properties child) fun fields =>
      ∃ below, levels = below + 1 ∧ FieldsFit (Stays below) fields := by
  refine Keeps.inside fun c hc => ?_
  obtain ⟨below, hlevels, hkeeps⟩ := hchild c hc
  intro d
  have hnone : FieldsFit (Stays below) [] := ⟨Keyed.Ascending.nil, nofun, nofun⟩
  have hfields := keeps_fields hkeeps (d.rest.length + 1) hnone
  exact (hfields.imp fun fields h => ⟨below, hlevels, h⟩) d

/-- The items of an array stay within the levels that are left. -/
theorem keeps_strictArray (count : UInt32) :
    Keeps (inside child fun c => items c count.toNat []) fun vs =>
      Stays levels (.strictArray vs) := by
  refine Keeps.inside fun c hc => ?_
  obtain ⟨below, rfl, hkeeps⟩ := hchild c hc
  refine (keeps_items hkeeps count.toNat (List.forall_mem_nil _)).imp fun vs ⟨hlen, hvs⟩ => ⟨?_, ?_⟩
  · rw [Value.Fits, hlen, List.length_nil, Nat.zero_add]
    exact ⟨count.toNat_lt, fun v hv => (hvs v hv).1⟩
  · rw [Value.settled, Value.settledItems_eq_map, List.map_congr_left fun v hv => (hvs v hv).2,
      List.map_id']

/-- One value of each kind. -/
theorem keeps_value : Keeps (value child) (Stays levels) := by
  refine (Keeps.anyField _).bind fun code _ => ?_
  generalize Marker.ofCode? code = marker
  match marker with
  | some .number | some .boolean =>
    exact (Keeps.anyField _).map fun _ _ => ⟨by simp [Value.Fits], rfl⟩
  | some .null | some .undefined => exact Keeps.pure ⟨by simp [Value.Fits], rfl⟩
  | some .date =>
    refine (Keeps.anyField _).bind fun millis _ => (Keeps.anyField _).map fun zone _ => ?_
    exact ⟨by simp [Value.Fits], rfl⟩
  | some .string =>
    -- two bytes of length are never too many for a short string
    refine (Keeps.anyField _).bind fun size _ => (Keeps.text _).map fun s hs => ?_
    have hlt := size.toNat_lt
    have hshort : (utf8 s).length ≤ 65535 := by omega
    refine ⟨?_, ?_⟩
    · rw [Value.Fits]
      exact Nat.lt_of_le_of_lt hshort (by decide)
    · rw [Value.settled, if_neg (Nat.not_lt.2 hshort)]
  | some .longString =>
    refine (Keeps.anyField _).bind fun size _ => (Keeps.text _).map fun s hs => ⟨?_, rfl⟩
    rw [Value.Fits, hs]
    exact size.toNat_lt
  | some .object =>
    refine (keeps_properties hchild).map ?_
    rintro fields ⟨below, rfl, h⟩
    obtain ⟨hfits, hsettled⟩ := h.stays
    exact ⟨by rwa [Value.Fits], by rw [Value.settled, hsettled]⟩
  | some .ecmaArray =>
    refine (Keeps.anyField _).bind fun _ _ => (keeps_properties hchild).map ?_
    rintro fields ⟨below, rfl, h⟩
    obtain ⟨hfits, hsettled⟩ := h.stays
    exact ⟨by rwa [Value.Fits], by rw [Value.settled, hsettled]⟩
  | some .strictArray =>
    exact (Keeps.anyField _).bind fun count _ => (keeps_strictArray hchild count).map fun _ h => h
  | some .objectEnd | none => exact Keeps.throw _

end Members

/-- **A value that was read fits** and is written as it is. -/
theorem keeps_next (levels : Nat) : Keeps (next levels) (Stays levels) := by
  induction levels with
  | zero => exact keeps_value nofun
  | succ levels ih =>
    refine keeps_value fun c hc => ?_
    cases hc
    exact ⟨levels, rfl, ih⟩

/-! ### Whole bodies -/

/-- One turn of the loop that reads values up to the end. -/
theorem untilEnd_succ (steps : Nat) (found : List Value) (d : Decoder) :
    untilEnd (steps + 1) found d =
      (if d.rest.isEmpty then pure found.reverse
        else decode >>= fun v => untilEnd steps (v :: found)) d :=
  rfl

/-- Values one after the other, up to the end of the body. -/
theorem readsBack_untilEnd {vs ws : List Value}
    (h : List.Forall₂ (fun v w => ReadsBack (next maxDepth) w v) vs ws) :
    ∃ bytes, encodeAll ws = .ok bytes ∧ ws.length ≤ bytes.length ∧
      ∀ steps found, ws.length ≤ steps →
        untilEnd steps found ⟨bytes, 0⟩ = .ok (found.reverse ++ vs) ⟨[], 0⟩ := by
  induction h with
  | nil =>
    refine ⟨[], rfl, Nat.le_refl _, fun steps found _ => ?_⟩
    rw [List.append_nil]
    cases steps <;> rfl
  | @cons v w vs ws hv _ ih =>
    obtain ⟨front, hfront, hne, hreads⟩ := hv
    obtain ⟨back, hback, hlen, hrest⟩ := ih
    have hpos : 0 < front.length := List.length_pos_of_ne_nil hne
    refine ⟨front ++ back, by rw [encodeAll, hfront, hback]; rfl, ?_, fun steps found hsteps => ?_⟩
    · rw [List.length_append, List.length_cons]
      omega
    rw [List.length_cons] at hsteps
    obtain ⟨steps, rfl⟩ : ∃ n, steps = n + 1 := ⟨steps - 1, by omega⟩
    -- there is something left, or the loop would end here
    have hmore : (front ++ back).isEmpty = false := by simp [hne]
    have hfirst : decode ⟨front ++ back, 0⟩ = .ok v ⟨back, 0⟩ := hreads back 0
    have hnext := hrest steps (v :: found) (Nat.le_of_succ_le_succ hsteps)
    rw [List.reverse_cons, List.append_assoc] at hnext
    rw [untilEnd_succ]
    simp only [hmore, Bool.false_eq_true, if_false, bind, EStateM.bind, hfirst]
    exact hnext

/-- Every value stays within the depth, by induction on the steps. -/
theorem stays_untilEnd (steps : Nat) {found vs : List Value} {bytes : List UInt8} {d : Decoder}
    (hfound : ∀ v ∈ found, Stays maxDepth v)
    (h : untilEnd steps found ⟨bytes, 0⟩ = .ok vs d) : ∀ v ∈ vs, Stays maxDepth v := by
  induction steps generalizing found bytes with
  | zero =>
    cases h
    exact fun v hv => hfound v (List.mem_reverse.1 hv)
  | succ steps ih =>
    rw [untilEnd_succ] at h
    split at h
    · cases h
      exact fun v hv => hfound v (List.mem_reverse.1 hv)
    · change EStateM.bind decode _ _ = _ at h
      unfold EStateM.bind at h
      split at h
      · rename_i v middle hfirst
        -- no container is open behind a value, so that the next one has all levels again
        obtain ⟨hv, hdepth⟩ := keeps_next maxDepth ⟨bytes, 0⟩ v middle hfirst
        obtain ⟨rest, depth⟩ := middle
        obtain rfl : depth = 0 := hdepth
        exact ih (List.forall_mem_cons.2 ⟨hv, hfound⟩) h
      · cases h

/-- **Values that fit are read back** settled, in whatever order their fields are walked. -/
theorem exists_encodeAll {vs ws : List Value} (hfits : ∀ v ∈ vs, v.Fits maxDepth)
    (hwalk : List.Forall₂ Walked vs ws) :
    ∃ bytes, encodeAll ws = .ok bytes ∧ decodeAll bytes = .ok (vs.map Value.settled) := by
  have hback : List.Forall₂ (fun v w => ReadsBack (next maxDepth) w v)
      (vs.map Value.settled) ws := by
    rw [List.forall₂_map_left_iff]
    have hboth := (List.forall₂_and_left vs ws).2 ⟨hfits, hwalk⟩
    exact hboth.imp fun _ _ hv => readsBack_next maxDepth hv.1 hv.2
  obtain ⟨bytes, hbytes, hlen, hreads⟩ := readsBack_untilEnd hback
  have hdecode := hreads bytes.length [] hlen
  exact ⟨bytes, hbytes, by rw [decodeAll, Decoder.ofList, hdecode, List.reverse_nil]; rfl⟩

/-- Whatever is decoded stays within the depth. -/
theorem stays_of_decodeAll {bytes : List UInt8} {vs : List Value} (h : decodeAll bytes = .ok vs) :
    ∀ v ∈ vs, Stays maxDepth v := by
  unfold decodeAll at h
  split at h
  · rename_i hread
    cases h
    exact stays_untilEnd bytes.length (List.forall_mem_nil _) hread
  · cases h

/-- **Round trip.** Values within the limits of the format are written, in whatever order their maps
are walked, and reading the bytes gives the same values, except that a short string of more than
65535 bytes has become a long one. And whatever is read off any bytes is within these limits: it is
written again, in whatever order, and then read without any change. -/
theorem decodeAll_encodeAll :
    (∀ vs ws : List Value, (∀ v ∈ vs, v.Fits maxDepth) → List.Forall₂ Walked vs ws →
      ∃ bytes, encodeAll ws = .ok bytes ∧ decodeAll bytes = .ok (vs.map Value.settled)) ∧
    (∀ (body : List UInt8) (vs : List Value), decodeAll body = .ok vs →
      (∀ v ∈ vs, v.Fits maxDepth) ∧
      ∀ ws, List.Forall₂ Walked vs ws →
        ∃ bytes, encodeAll ws = .ok bytes ∧ decodeAll bytes = .ok vs) := by
  refine ⟨fun vs ws => exists_encodeAll, fun body vs hread => ?_⟩
  have hstays := stays_of_decodeAll hread
  have hfits : ∀ v ∈ vs, v.Fits maxDepth := fun v hv => (hstays v hv).1
  refine ⟨hfits, fun ws hwalk => ?_⟩
  obtain ⟨bytes, hbytes, hback⟩ := exists_encodeAll hfits hwalk
  rw [List.map_congr_left fun v hv => (hstays v hv).2, List.map_id'] at hback
  exact ⟨bytes, hbytes, hback⟩

/-- Metadata of which the writer walks both maps backwards; and a body that names a property twice,
of which the second one stays. -/
theorem decodeAll_encodeAll_backwards :
    (∃ bytes,
      encodeAll [.ecmaArray [("version", .string "3,5,1,525"),
        ("list", .strictArray [.boolean true, .object [("b", .undefined), ("a", .null)]])]]
          = .ok bytes ∧
      decodeAll bytes = .ok [.ecmaArray [
        ("list", .strictArray [.boolean true, .object [("a", .null), ("b", .undefined)]]),
        ("version", .string "3,5,1,525")]]) ∧
    decodeAll [3, 0, 1, 98, 5, 0, 1, 97, 6, 0, 1, 98, 6, 0, 0, 9] =
      .ok [.object [("a", .undefined), ("b", .undefined)]] ∧
    ∃ bytes,
      encodeAll [.object [("b", .undefined), ("a", .undefined)]] = .ok bytes ∧
      decodeAll bytes = .ok [.object [("a", .undefined), ("b", .undefined)]] := by
  -- both maps were walked from the end
  have hpair (v w : Value) : Walked (.object [("a", v), ("b", w)]) (.object [("b", w), ("a", v)]) :=
    .object (.swap _ _ _) (WalkedEntry.refl_all _)
  have hlist := Walked.strictArray
    (.cons (.refl (.boolean true)) (.cons (hpair .null .undefined) .nil))
  have hmap := Walked.ecmaArray (.swap _ _ _)
    (.cons (.mk "version" (.refl (.string "3,5,1,525"))) (.cons (.mk "list" hlist) .nil))
  refine ⟨?_, rfl, ?_⟩
  · have hfits : ∀ v ∈ [Value.ecmaArray [
        ("list", .strictArray [.boolean true, .object [("a", .null), ("b", .undefined)]]),
        ("version", .string "3,5,1,525")]], v.Fits maxDepth := by decide +kernel
    exact decodeAll_encodeAll.1 _ _ hfits (.cons hmap .nil)
  -- of the two entries of one name the second one is read
  · have hread := decodeAll_encodeAll.2
      [3, 0, 1, 98, 5, 0, 1, 97, 6, 0, 1, 98, 6, 0, 0, 9] _ rfl
    exact hread.2 _ (.cons (hpair .undefined .undefined) .nil)

end LiveIngest.Amf
