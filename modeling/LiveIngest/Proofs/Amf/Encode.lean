import LiveIngest.Message.Outgoing

/-!
# Values that cannot be written

A value that cannot be written has a text or a name that is too long. Such a fault is one of writing
(`layer_encode`), and it never ends a connection.
-/

namespace LiveIngest

namespace Amf

/-- A name fails only if it is too long. -/
theorem layer_encodeName {s : String} {f : Fault} (h : encodeName s = .error f) :
    f.layer = .amfEncode := by
  unfold encodeName at h
  dsimp only at h
  split at h
  · rw [← Except.error.inj h]
    rfl
  · cases h

/-- So does a text. -/
theorem layer_encodeLongText {s : String} {f : Fault} (h : encodeLongText s = .error f) :
    f.layer = .amfEncode := by
  unfold encodeLongText at h
  dsimp only at h
  split at h
  · rw [← Except.error.inj h]
    rfl
  · cases h

mutual

/-- **A value that cannot be written**, with everything in it. -/
theorem layer_encode (v : Value) {f : Fault} (h : encode v = .error f) :
    f.layer = .amfEncode := by
  cases v with
  -- these are always written
  | number _ | boolean _ | null | undefined | date _ _ =>
    rw [encode] at h
    cases h
  | string s =>
    rw [encode] at h
    -- a long string is written as one, whatever it was made as
    split at h
    · exact layer_encodeLongText h
    · cases hname : encodeName s with
      | error e =>
        rw [hname] at h
        cases h
        exact layer_encodeName hname
      | ok bytes =>
        rw [hname] at h
        cases h
  | longString s =>
    rw [encode] at h
    exact layer_encodeLongText h
  | object fields | ecmaArray fields =>
    rw [encode] at h
    -- the marker and the end cannot fail, so it is one of the members
    obtain h | ⟨body, -, h⟩ := error_of_bind h
    · exact layer_encodeFields fields h
    · cases h
  | strictArray items =>
    rw [encode] at h
    obtain h | ⟨body, -, h⟩ := error_of_bind h
    · exact layer_encodeAll items h
    · cases h

/-- A list fails where one of its values does. -/
theorem layer_encodeAll (vs : List Value) {f : Fault} (h : encodeAll vs = .error f) :
    f.layer = .amfEncode := by
  cases vs with
  | nil =>
    rw [encodeAll] at h
    cases h
  | cons v rest =>
    rw [encodeAll] at h
    -- the first value is written before the others
    obtain h | ⟨front, -, h⟩ := error_of_bind h
    · exact layer_encode v h
    obtain h | ⟨back, -, h⟩ := error_of_bind h
    · exact layer_encodeAll rest h
    · cases h

/-- Fields fail where a name or a value does. By induction on the fields, with the values inside of
them. -/
theorem layer_encodeFields (fields : List (String × Value)) {f : Fault}
    (h : encodeFields fields = .error f) : f.layer = .amfEncode := by
  match fields with
  | [] =>
    rw [encodeFields] at h
    cases h
  | (name, v) :: rest =>
    rw [encodeFields] at h
    -- name, value and the other fields, in this order
    obtain h | ⟨label, -, h⟩ := error_of_bind h
    · exact layer_encodeName h
    obtain h | ⟨front, -, h⟩ := error_of_bind h
    · exact layer_encode v h
    obtain h | ⟨back, -, h⟩ := error_of_bind h
    · exact layer_encodeFields rest h
    · cases h

end

end Amf

/-- A command that cannot be written does not end a connection. -/
theorem Packet.isFatal_of_ofCommand {timestamp streamId : UInt32} {c : Command} {f : Fault}
    (h : Packet.ofCommand timestamp streamId c = .error f) : f.isFatal = false := by
  unfold Packet.ofCommand Command.serialize at h
  cases hbody : Amf.encodeAll c.values with
  | error e =>
    rw [hbody] at h
    cases h
    -- faults of the writer are none of the layers that end a connection
    unfold Fault.isFatal
    rw [Amf.layer_encodeAll c.values hbody]
    rfl
  | ok body =>
    rw [hbody] at h
    cases h

/-- A command that can be written is sent as one. -/
theorem Packet.type_of_ofCommand {timestamp streamId : UInt32} {c : Command} {p : Packet}
    (h : Packet.ofCommand timestamp streamId c = .ok p) : p.type = 20 := by
  unfold Packet.ofCommand at h
  cases hbody : c.serialize with
  | error e =>
    rw [hbody] at h
    cases h
  | ok body =>
    rw [hbody] at h
    cases h
    rfl

end LiveIngest
