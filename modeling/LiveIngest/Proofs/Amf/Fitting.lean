import Mathlib.Data.List.Forall2
import LiveIngest.Amf.Encode
import LiveIngest.Proofs.Keyed

/-!
# Values that fit on the wire

The limits of AMF0 and the freedom it leaves to a writer:

* `Value.Fits levels` — the limits: containers at most `levels` deep, property names neither empty
  nor longer than 65535 bytes, texts and strict arrays whose length is a number of four bytes;
* `Value.settled` — what stays of a value on the wire: a text too long for a short string is a long
  string from then on, everywhere inside of a value;
* `Walked v w` — `w` is `v` with each of its maps in some order, the order in which a writer happens
  to walk it. A map has one place for each name but no order, so a writer may choose one for each
  map, and each time anew.
-/

namespace LiveIngest.Amf

/-- Only the empty name has no bytes. -/
theorem length_utf8_eq_zero_iff {s : String} : (utf8 s).length = 0 ↔ s = "" :=
  String.utf8ByteSize_eq_zero_iff

/-- A name that a property can have: an empty one would end the properties. -/
def NameFits (name : String) : Prop :=
  name ≠ "" ∧ (utf8 name).length ≤ 65535

instance (name : String) : Decidable (NameFits name) :=
  inferInstanceAs (Decidable (_ ∧ _))

/-- A map whose names fit and whose values have `P`. -/
structure FieldsFit (P : Value → Prop) (fields : Keyed String Value) : Prop where
  ascending : fields.Ascending
  names : ∀ e ∈ fields, NameFits e.1
  values : ∀ e ∈ fields, P e.2

/-- The three conditions on fields: names ascend, names fit their size field, and the values are as
they have to be. -/
theorem fieldsFit_iff {P : Value → Prop} {fields : Keyed String Value} :
    FieldsFit P fields ↔
      fields.Pairwise (fun e f => e.1 < f.1) ∧ (∀ e ∈ fields, NameFits e.1) ∧ ∀ e ∈ fields, P e.2 :=
  ⟨fun h => ⟨h.ascending, h.names, h.values⟩, fun ⟨h, hnames, hvalues⟩ => ⟨h, hnames, hvalues⟩⟩

instance {P : Value → Prop} [DecidablePred P] (fields : Keyed String Value) :
    Decidable (FieldsFit P fields) :=
  decidable_of_iff' _ fieldsFit_iff

namespace Value

def isContainer : Value → Bool
  | object _ | ecmaArray _ | strictArray _ => true
  | _ => false

/-- **The limits of the format**, where `levels` more containers may be entered. -/
def Fits : (levels : Nat) → Value → Prop
  | _, .string s => (utf8 s).length < UInt32.size
  | _, .longString s => (utf8 s).length < UInt32.size
  | levels + 1, .object fields => FieldsFit (Fits levels) fields
  | levels + 1, .ecmaArray fields => FieldsFit (Fits levels) fields
  | levels + 1, .strictArray items => items.length < UInt32.size ∧ ∀ v ∈ items, Fits levels v
  | 0, .object _ | 0, .ecmaArray _ | 0, .strictArray _ => False
  | _, _ => True

instance decidableFits : (levels : Nat) → DecidablePred (Fits levels)
  | _, .string _ | _, .longString _ => decidable_of_iff' _ (by rw [Fits])
  | 0, .object _ | 0, .ecmaArray _ | 0, .strictArray _ => isFalse (by simp [Fits])
  | levels + 1, .object fields =>
    have := decidableFits levels
    inferInstanceAs (Decidable (FieldsFit (Fits levels) fields))
  | levels + 1, .ecmaArray fields =>
    have := decidableFits levels
    inferInstanceAs (Decidable (FieldsFit (Fits levels) fields))
  | levels + 1, .strictArray items =>
    have := decidableFits levels
    inferInstanceAs (Decidable (items.length < UInt32.size ∧ ∀ v ∈ items, Fits levels v))
  | _, .number _ | _, .boolean _ | _, .null | _, .undefined | _, .date _ _ =>
    isTrue (by simp [Fits])

mutual

/-- The value with its overlong short strings as long ones, of which it keeps the text. -/
def settled : Value → Value
  | .string s => if (utf8 s).length > 65535 then .longString s else .string s
  | .object fields => .object (settledFields fields)
  | .ecmaArray fields => .ecmaArray (settledFields fields)
  | .strictArray items => .strictArray (settledItems items)
  | v => v

def settledItems : List Value → List Value
  | [] => []
  | v :: rest => v.settled :: settledItems rest

def settledFields : List (String × Value) → List (String × Value)
  | [] => []
  | (name, v) :: rest => (name, v.settled) :: settledFields rest

end

/-- The items of an array are settled one by one. -/
theorem settledItems_eq_map (items : List Value) : settledItems items = items.map settled := by
  induction items with
  | nil => rfl
  | cons v rest ih => rw [settledItems, ih, List.map_cons]

/-- So are the values of fields, under the names that they have. -/
theorem settledFields_eq_map (fields : List (String × Value)) :
    settledFields fields = fields.map fun e => (e.1, e.2.settled) := by
  induction fields with
  | nil => rfl
  | cons e rest ih => rw [settledFields, ih, List.map_cons]

end Value

mutual

/-- `Walked v w`: `w` is `v` with the entries of each map in the order in which they are written. -/
inductive Walked : Value → Value → Prop
  | plain {v : Value} (h : v.isContainer = false) : Walked v v
  | object {fields order written : List (String × Value)} (hperm : order.Perm fields)
      (h : List.Forall₂ WalkedEntry order written) : Walked (.object fields) (.object written)
  | ecmaArray {fields order written : List (String × Value)} (hperm : order.Perm fields)
      (h : List.Forall₂ WalkedEntry order written) : Walked (.ecmaArray fields) (.ecmaArray written)
  | strictArray {items written : List Value} (h : List.Forall₂ Walked items written) :
      Walked (.strictArray items) (.strictArray written)

inductive WalkedEntry : String × Value → String × Value → Prop
  | mk (name : String) {v w : Value} (h : Walked v w) : WalkedEntry (name, v) (name, w)

end

mutual

/-- A map may be walked in ascending order. -/
theorem Walked.refl (v : Value) : Walked v v :=
  match v with
  | .object fields => .object (.refl _) (WalkedEntry.refl_all fields)
  | .ecmaArray fields => .ecmaArray (.refl _) (WalkedEntry.refl_all fields)
  | .strictArray items => .strictArray (Walked.refl_all items)
  | .number _ | .boolean _ | .string _ | .null | .undefined | .date _ _ | .longString _ =>
    .plain rfl

/-- A walk may take all fields in the order in which they are kept. -/
theorem Walked.refl_all (vs : List Value) : List.Forall₂ Walked vs vs :=
  match vs with
  | [] => .nil
  | v :: rest => .cons (Walked.refl v) (Walked.refl_all rest)

theorem WalkedEntry.refl_all (fields : List (String × Value)) :
    List.Forall₂ WalkedEntry fields fields :=
  match fields with
  | [] => .nil
  | (name, v) :: rest => .cons (.mk name (Walked.refl v)) (WalkedEntry.refl_all rest)

end

end LiveIngest.Amf
