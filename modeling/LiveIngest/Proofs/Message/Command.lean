import LiveIngest.Message.Command
import LiveIngest.Proofs.Amf.RoundTrip

/-!
# Commands on the wire

A command is written as the values that it consists of, and read by their position: a name, a
number, an object, and all that follow. What is missing has a default. So a command comes back if
its values do (`Command.Stays`), and a command that was read consists of values that were read, or
of defaults, and comes back in its turn (`Command.stays_of_parse`).

An AMF3 message may open with a zero byte, and zero is also the marker of a number. This is no
ambiguity for a command, whose first byte is the marker of a text (`Command.head_of_serialize`).

Main statement: `Command.spells_of_walked` — a command, of which the writer walks the maps in any
order, is read back in each of the three framings, and so is every command that was read.
-/

namespace LiveIngest

namespace Amf

theorem stays_number (levels : Nat) (n : Binary64) : Stays levels (.number n) :=
  ⟨by simp [Value.Fits], rfl⟩

theorem stays_null (levels : Nat) : Stays levels .null :=
  ⟨by simp [Value.Fits], rfl⟩

/-- Two bytes of length tell a text from one that would come back as a long string. -/
theorem stays_string_iff {s : String} {levels : Nat} :
    Stays levels (.string s) ↔ (utf8 s).length ≤ 65535 := by
  rw [Stays, Value.Fits, Value.settled]
  constructor
  · rintro ⟨-, hsame⟩
    by_contra hlong
    rw [if_pos (Nat.not_le.1 hlong)] at hsame
    cases hsame
  · intro hshort
    exact ⟨Nat.lt_of_le_of_lt hshort (by decide), if_neg (Nat.not_lt.2 hshort)⟩

theorem stays_text {s : String} (h : (utf8 s).length ≤ 65535) (levels : Nat) :
    Stays levels (.string s) :=
  stays_string_iff.2 h

end Amf

namespace Command

open Amf

/-- A command whose values come back as they are. -/
def Stays (c : Command) : Prop :=
  ∀ v ∈ c.values, Amf.Stays Amf.maxDepth v

/-- A name that is a short text, and members that come back. -/
theorem stays_iff {c : Command} :
    c.Stays ↔ (utf8 c.name).length ≤ 65535 ∧
      ∀ v ∈ c.object :: c.arguments, Amf.Stays maxDepth v := by
  unfold Stays values
  rw [List.forall_mem_cons, List.forall_mem_cons, stays_string_iff]
  exact and_congr_right fun _ => and_iff_right (stays_number _ _)

/-- `w` is `c` with the entries of each map in the order in which they are written. -/
structure Walked (c w : Command) : Prop where
  name : w.name = c.name
  transaction : w.transaction = c.transaction
  object : Amf.Walked c.object w.object
  arguments : List.Forall₂ Amf.Walked c.arguments w.arguments

/-- The maps may be walked in ascending order. -/
theorem Walked.refl (c : Command) : c.Walked c :=
  ⟨rfl, rfl, .refl _, Amf.Walked.refl_all _⟩

theorem Walked.values {c w : Command} (h : c.Walked w) :
    List.Forall₂ Amf.Walked c.values w.values := by
  unfold Command.values
  rw [h.name, h.transaction]
  exact .cons (.refl _) (.cons (.refl _) (.cons h.object h.arguments))

/-! ### Framings -/

/-- A body from which `c` is read, in an AMF0 message, and in an AMF3 message behind a format byte
or without one. -/
structure Spells (body : List UInt8) (c : Command) : Prop where
  amf0 : parse false body = .ok c
  formatted : parse true (0 :: body) = .ok c
  unformatted : parse true body = .ok c

/-- A command opens with the marker of a text. -/
theorem head_of_serialize {c : Command} {body : List UInt8} (h : c.serialize = .ok body) :
    ∃ marker rest, body = marker :: rest ∧ marker ≠ 0 := by
  unfold serialize values at h
  rw [encodeAll] at h
  obtain ⟨front, hfront, h⟩ := ok_of_bind h
  obtain ⟨back, -, h⟩ := ok_of_bind h
  obtain rfl := Except.ok.inj h
  -- the name comes first, and either kind of text has a marker
  have hmarker : ∃ marker rest, front = marker :: rest ∧ marker ≠ 0 := by
    rw [encode] at hfront
    split at hfront
    · unfold encodeLongText at hfront
      dsimp only at hfront
      split at hfront
      · cases hfront
      · cases hfront
        exact ⟨Marker.longString.code, _, rfl, by decide⟩
    · obtain ⟨rest, -, rfl⟩ := ok_of_map hfront
      exact ⟨Marker.string.code, rest, rfl, by decide⟩
  obtain ⟨marker, rest, rfl, hne⟩ := hmarker
  exact ⟨marker, rest ++ back, rfl, hne⟩

/-- The format byte is told from the first byte of a command. -/
theorem amfBody_of_serialize {c : Command} {body : List UInt8} (h : c.serialize = .ok body)
    (amf3 : Bool) : amfBody amf3 body = body := by
  obtain ⟨marker, rest, rfl, hne⟩ := head_of_serialize h
  unfold amfBody
  split
  · rename_i hzero
    exact absurd (List.cons.inj hzero).1 hne
  · rfl

/-- The values of a command are read as the command. -/
theorem parse_of_decodeAll {amf3 : Bool} {payload : List UInt8} {c : Command}
    (h : decodeAll (amfBody amf3 payload) = .ok c.values) : parse amf3 payload = .ok c := by
  unfold parse
  rw [h]
  rfl

/-! ### There and back -/

/-- **A command whose values stay is read back.** -/
theorem Stays.exists_serialize {c w : Command} (h : c.Stays) (hwalk : c.Walked w) :
    ∃ body, w.serialize = .ok body ∧ Spells body c := by
  obtain ⟨body, hbody, hback⟩ := exists_encodeAll (fun v hv => (h v hv).1) hwalk.values
  rw [List.map_congr_left fun v hv => (h v hv).2, List.map_id'] at hback
  have hframe := amfBody_of_serialize hbody
  refine ⟨body, hbody, ⟨?_, ?_, ?_⟩⟩
  · exact parse_of_decodeAll (by rwa [hframe])
  · exact parse_of_decodeAll hback
  · exact parse_of_decodeAll (by rwa [hframe])

/-- **A command that was read consists of values that stay.** A default is one of them. -/
theorem stays_of_parse {amf3 : Bool} {payload : List UInt8} {c : Command}
    (h : parse amf3 payload = .ok c) : c.Stays := by
  obtain ⟨vs, hvs, h⟩ := ok_of_bind h
  have hstays := stays_of_decodeAll hvs
  unfold ofValues at h
  split at h
  · rename_i name rest
    cases h
    obtain ⟨hname, hrest⟩ := List.forall_mem_cons.1 hstays
    refine stays_iff.2 ⟨stays_string_iff.1 hname, List.forall_mem_cons.2 ⟨?_, fun v hv => ?_⟩⟩
    · -- the object is the second value behind the name, if there are two
      dsimp only
      cases hobject : (rest.drop 1).head? with
      | none => exact stays_null _
      | some v => exact hrest v (List.mem_of_mem_drop (List.mem_of_head? hobject))
    · exact hrest v (List.mem_of_mem_drop hv)
  · cases h

/-- **Commands there and back.** A command with a short name, whose members come back as they are,
is written in whatever order its maps are walked, and read from what was written in each framing.
And so is every command that was read from any payload, whatever that payload left out. -/
theorem spells_of_walked :
    (∀ c w : Command, (utf8 c.name).length ≤ 65535 →
      (∀ v ∈ c.object :: c.arguments, Amf.Stays maxDepth v) → c.Walked w →
      ∃ body, w.serialize = .ok body ∧ Spells body c) ∧
    ∀ (amf3 : Bool) (payload : List UInt8) (c w : Command), parse amf3 payload = .ok c →
      c.Walked w → ∃ body, w.serialize = .ok body ∧ Spells body c := by
  constructor
  · intro c w hname hmembers hwalk
    exact (stays_iff.2 ⟨hname, hmembers⟩).exists_serialize hwalk
  · intro amf3 payload c w hread hwalk
    exact (stays_of_parse hread).exists_serialize hwalk

/-- A map that is walked backwards; and a payload with no number behind the name and nothing behind
that, which is read as a command with both defaults. -/
theorem spells_of_walked_backwards :
    (∃ body,
      serialize ⟨"connect", .ofUInt32 1, .object [("tcUrl", .string "rtmp://localhost/live"),
        ("app", .string "live")], [.boolean true]⟩ = .ok body ∧
      Spells body ⟨"connect", .ofUInt32 1, .object [("app", .string "live"),
        ("tcUrl", .string "rtmp://localhost/live")], [.boolean true]⟩) ∧
    parse true [0, 2, 0, 1, 97, 5] = .ok ⟨"a", .zero, .null, []⟩ ∧
    ∃ body, serialize ⟨"a", .zero, .null, []⟩ = .ok body ∧ Spells body ⟨"a", .zero, .null, []⟩ := by
  refine ⟨?_, rfl, ?_⟩
  · refine spells_of_walked.1 _ _ (by decide) (fun v hv => ?_) ⟨rfl, rfl, ?_, Amf.Walked.refl_all _⟩
    · simp only [List.mem_cons, List.not_mem_nil, or_false] at hv
      rcases hv with rfl | rfl
      · exact ⟨by decide +kernel, rfl⟩
      · exact ⟨by decide, rfl⟩
    · exact .object (.swap _ _ _) (WalkedEntry.refl_all _)
  · exact spells_of_walked.2 true [0, 2, 0, 1, 97, 5] _ _ rfl (.refl _)

end Command

end LiveIngest
