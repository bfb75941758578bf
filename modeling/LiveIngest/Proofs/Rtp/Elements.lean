import Mathlib.Data.List.Forall2
import LiveIngest.Proofs.Rtp.Joining
import LiveIngest.Proofs.Rtp.Obus
import LiveIngest.Proofs.Rtp.Runs

/-!
# AV1 units there and back

A receiver of AV1 joins payloads to units by two marks: a payload goes on with a unit, or its unit
goes on in the next one.

* `elements` — what units are sent as, where the first payload may begin a new sequence;
* `stands_frame` — the units of a frame stand where their entries look for them, whichever of them
  are sent;
* `SentAs`, `Delivers` — how a unit is to be sent, and what a receiver makes of an output frame;
* `delivers_or_broken` — for a packetizer that was fed any tags and then a coded frame: it has an
  output frame unless the walk of the frame is broken, and a receiver gets back the units.
-/

namespace LiveIngest.Rtp

open Codec

namespace Av1

/-! ### What units are sent as -/

/-- The payloads of units. The first one may begin a new sequence. -/
def elements (size : Nat) : (newSequence : Bool) → List (List UInt8) → List Payload
  | _, [] => []
  | newSequence, unit :: rest =>
    cut (lead newSequence) size true unit ++ elements size (newSequence && unit.length = 0) rest

/-- `unit` stands in the media at `spot`, which is an offset and a length. -/
structure Stands (b : Body) (spot : Nat × Nat) (unit : List UInt8) : Prop where
  hasAt : b.HasAt spot.1 unit
  length : spot.2 = unit.length

variable {b : Body} {size : Nat} {spots : List (Nat × Nat)} {units : List (List UInt8)}

/-- Entries that stand for units are the elements that the units are divided into. -/
theorem payloads_entries (h : List.Forall₂ (Stands b) spots units) (newSequence : Bool) :
    (entries size newSequence spots).map b.payload = elements size newSequence units := by
  induction h generalizing newSequence with
  | nil => rfl
  | @cons spot unit spots units hfirst _ ih =>
    obtain ⟨offset, length⟩ := spot
    obtain ⟨hhas, rfl⟩ := hfirst
    -- the first fragment of a unit is the only one that may begin a sequence
    have hpieces := fragments_eq_pieces size true newSequence offset unit.length
    rw [Bool.true_and] at hpieces
    rw [entries, elements, List.map_append, ih, hpieces, payloads_pieces hhas]

/-- Entries stay within the media. -/
theorem entries_within (h : List.Forall₂ (Stands b) spots units) {newSequence : Bool} {e : Entry}
    (he : e ∈ entries size newSequence spots) : e.offset + e.length ≤ b.media.length := by
  induction h generalizing newSequence with
  | nil => cases he
  | @cons spot unit spots units hfirst _ ih =>
    obtain ⟨offset, length⟩ := spot
    obtain ⟨hhas, rfl⟩ := hfirst
    have hpieces := fragments_eq_pieces size true newSequence offset unit.length
    rw [Bool.true_and] at hpieces
    rw [entries, List.mem_append, hpieces] at he
    rcases he with he | he
    · exact (pieces_within he).trans hhas.le
    · exact ih he

/-- The units that are sent stand in the media, in spite of others between them. -/
theorem stands_places {units : List (Obu × List UInt8)} {offset : Nat}
    (h : b.HasAt offset (units.flatMap (·.2))) (isSent : Obu → Bool) :
    List.Forall₂ (Stands b) (((places offset units).filter fun (o, _) => isSent o).map (·.2))
      ((units.filter fun (o, _) => isSent o).map (·.2)) := by
  induction units generalizing offset with
  | nil => exact .nil
  | cons u units ih =>
    obtain ⟨o, unit⟩ := u
    have hrest := ih h.right
    by_cases hsent : isSent o
    · simp only [places, List.filter_cons, hsent, if_true, List.map_cons]
      exact .cons ⟨h.left, rfl⟩ hrest
    · -- a unit that is not sent moves those behind it all the same
      simp only [places, List.filter_cons, hsent]
      exact hrest

/-- A frame stands in the media behind the sequence header, if that is there. -/
theorem stands_frame {units : List (Obu × List UInt8)} {header : Option (List UInt8)}
    (h : b.media = header.getD [] ++ units.flatMap (·.2)) (isSent : Obu → Bool) :
    List.Forall₂ (Stands b)
      ((header.toList.map fun unit => (0, unit.length)) ++
        ((places (header.getD []).length units).filter fun (o, _) => isSent o).map (·.2))
      (header.toList ++ (units.filter fun (o, _) => isSent o).map (·.2)) := by
  have hframe : b.HasAt (header.getD []).length (units.flatMap (·.2)) :=
    ⟨header.getD [], [], by rw [h, List.append_nil], rfl⟩
  refine List.rel_append ?_ (stands_places hframe isSent)
  cases header with
  | none => exact .nil
  | some unit =>
    have hfront : b.HasAt 0 unit := ⟨[], _, h, rfl⟩
    exact .cons ⟨hfront, rfl⟩ .nil

/-- The units that are sent with a frame. -/
def sentUnits (record : Av1Record) (tag : VideoTag) (units : List (Obu × List UInt8)) :
    List (List UInt8) :=
  (if tag.isKeyFrame then record.sequenceHeader?.toList else []) ++
    (units.filter fun (o, _) => o.type ≠ Obu.temporalDelimiter).map (·.2)

/-- An output frame is that of a walk to the end of the frame. -/
theorem exists_walk_of_packetize {record : Av1Record} {limit : Nat} {tag : VideoTag}
    {out : VideoOutput} (h : packetize record limit tag = some out) :
    ∃ units, Walk tag.media units [] ∧ out.body.InMedia ∧
      out.body.payloads = elements (limit - 1) tag.isKeyFrame (sentUnits record tag units) := by
  obtain ⟨units, hsplit, hout⟩ := Option.bind_eq_some_iff.1 h
  have hwalk := splitObus_eq_some_iff.1 hsplit
  have hframe := hwalk.eq_append
  rw [List.append_nil] at hframe
  have hmedia : out.body.media =
      (if tag.isKeyFrame then record.sequenceHeader? else none).getD [] ++
        units.flatMap (·.2) := by
    rw [← hframe, ← Option.some.inj hout]
  -- temporal delimiters keep their place in the media, and the entries are those of the others
  have hentries := congrArg (·.body.entries) (Option.some.inj hout)
  have hsent : sentUnits record tag units =
      (if tag.isKeyFrame then record.sequenceHeader? else none).toList ++
        (units.filter fun (o, _) => o.type ≠ Obu.temporalDelimiter).map (·.2) := by
    rw [sentUnits]
    cases tag.isKeyFrame <;> rfl
  have hstands := stands_frame hmedia fun o => o.type ≠ Obu.temporalDelimiter
  refine ⟨units, hwalk, ?_, ?_⟩
  · intro e he
    rw [← hentries] at he
    exact entries_within hstands he
  · rw [hsent, Body.payloads, ← hentries]
    exact payloads_entries hstands _

/-- Only broken media are not sent. -/
theorem packetize_eq_none_iff {record : Av1Record} {limit : Nat} {tag : VideoTag} :
    packetize record limit tag = none ↔ Broken tag.media := by
  rw [← splitObus_eq_none_iff, packetize]
  cases splitObus tag.media with
  | none => exact iff_of_true rfl rfl
  | some units => exact iff_of_false nofun nofun

/-! ### What a receiver makes of it -/

/-- A payload begins a unit unless its lead says that it goes on with one, and it ends a unit unless
its lead says that the unit goes on. -/
def piece (p : Payload) : Piece :=
  ⟨p.marks &&& 0x80 == 0, p.marks &&& 0x40 == 0, p.data⟩

/-- What the lead of a payload says. Beside the marks there is the number of units that the payload
holds, which is one. -/
structure Marked (newSequence isFirst isLast : Bool) (p : Payload) : Prop where
  length : p.lead.length = 1
  one : p.marks &&& 0x37 = 0x10
  begins : (p.marks &&& 0x80 == 0) = isFirst
  ends : (p.marks &&& 0x40 == 0) = isLast
  opens : (p.marks &&& 0x08 != 0) = (isFirst && newSequence)

/-- The marks of an element tell whether it begins a sequence and a unit, and whether it ends one.
-/
theorem marked_lead (newSequence isFirst isLast : Bool) (data : List UInt8) :
    Marked newSequence isFirst isLast ⟨lead newSequence isFirst isLast, data⟩ := by
  have hall : ∀ newSequence isFirst isLast : Bool,
      let marks := aggregationHeader (!isFirst) (!isLast) (isFirst && newSequence)
      marks &&& 0x37 = 0x10 ∧ (marks &&& 0x80 == 0) = isFirst ∧ (marks &&& 0x40 == 0) = isLast ∧
        (marks &&& 0x08 != 0) = (isFirst && newSequence) := by decide
  obtain ⟨hone, hbegins, hends, hopens⟩ := hall newSequence isFirst isLast
  exact ⟨rfl, hone, hbegins, hends, hopens⟩

/-- A receiver reads the ends of units off the marks. -/
theorem piece_lead (newSequence isFirst isLast : Bool) (data : List UInt8) :
    piece ⟨lead newSequence isFirst isLast, data⟩ =
      ⟨isFirst, isLast, (if isFirst then [] else []) ++ data⟩ := by
  have hmarked := marked_lead newSequence isFirst isLast data
  rw [piece, hmarked.begins, hmarked.ends, ite_self]
  rfl

/-- `ps` are the payloads of `unit`: each holds some of its bytes behind a lead of one byte, and the
first and the last of them are marked. -/
structure SentAs (limit : Nat) (unit : List UInt8) (ps : List Payload) : Prop where
  data : ps.flatMap Payload.data = unit
  marks : ∀ i p, ps[i]? = some p → p.lead.length = 1 ∧ p.marks &&& 0x37 = 0x10 ∧
    (p.marks &&& 0x80 = 0 ↔ i = 0) ∧ (p.marks &&& 0x40 = 0 ↔ i + 1 = ps.length)
  fits : ∀ p ∈ ps, 0 < p.data.length ∧ p.bytes.length ≤ limit

/-- A unit is sent in elements that hold at most the limit, the mark included. -/
theorem sentAs_cut {limit : Nat} (hlimit : 2 ≤ limit) (newSequence : Bool) (unit : List UInt8) :
    SentAs limit unit (cut (lead newSequence) (limit - 1) true unit) := by
  refine ⟨flatMap_data_cut true unit, fun i p hp => ?_, fun p hp => ?_⟩
  · have hmarked := of_getElem?_cut (marked_lead newSequence) hp
    refine ⟨hmarked.length, hmarked.one, ?_, ?_⟩
    · rw [← beq_iff_eq, hmarked.begins]
      simp
    · rw [← beq_iff_eq, hmarked.ends]
      simp
  · have hsize := (length_bytes_cut (n := 1) (fun _ _ => rfl) hp).2
    exact ⟨(length_data_cut hp).1, by omega⟩

/-- Behind the first unit, no payload begins a new sequence. -/
theorem elements_false (units : List (List UInt8)) :
    elements size false units = units.flatMap (cut (lead false) size true) := by
  induction units with
  | nil => rfl
  | cons unit rest ih => rw [elements, Bool.false_and, ih, List.flatMap_cons]

/-- Only the first element may begin a sequence. -/
theorem elements_cons {unit : List UInt8} (hne : unit ≠ []) (newSequence : Bool)
    (rest : List (List UInt8)) :
    elements size newSequence (unit :: rest) =
      cut (lead newSequence) size true unit ++ rest.flatMap (cut (lead false) size true) := by
  have hlen : decide (unit.length = 0) = false := by simpa using hne
  rw [elements, hlen, Bool.and_false, elements_false]

/-- A receiver gets back `units` from what is sent, and each unit is sent as it should be. A new
sequence begins with an intra frame. -/
structure Delivers (limit : Nat) (isIntra : Bool) (units : List (List UInt8)) (out : VideoOutput) :
    Prop where
  inMedia : out.body.InMedia
  joined : Piece.join none (out.body.payloads.map piece) = some units
  newSequence : ∀ i (p : Payload), out.body.payloads[i]? = some p →
    (p.marks &&& 0x08 ≠ 0 ↔ i = 0 ∧ isIntra = true)
  sent : ∃ parts, out.body.payloads = parts.flatten ∧ List.Forall₂ (SentAs limit) units parts

/-- **Units are joined again** from their elements. -/
theorem join_elements {units : List (List UInt8)} (hne : ∀ unit ∈ units, unit ≠ [])
    (newSequence : Bool) :
    Piece.join none ((elements size newSequence units).map piece) = some units := by
  induction units generalizing newSequence with
  | nil => rfl
  | cons unit rest ih =>
    obtain ⟨hunit, hrest⟩ := List.forall_mem_cons.1 hne
    rw [elements, List.map_append, Piece.join_unit (piece_lead newSequence) hunit, ih hrest]
    rfl

/-- The elements of a frame are those of its units, one unit after the other. -/
theorem exists_parts {limit : Nat} (hlimit : 2 ≤ limit) (units : List (List UInt8))
    (newSequence : Bool) : ∃ parts, elements (limit - 1) newSequence units = parts.flatten ∧
      List.Forall₂ (SentAs limit) units parts := by
  induction units generalizing newSequence with
  | nil => exact ⟨[], rfl, .nil⟩
  | cons unit rest ih =>
    obtain ⟨parts, hparts, hsent⟩ := ih (newSequence && unit.length = 0)
    refine ⟨cut (lead newSequence) (limit - 1) true unit :: parts, ?_, ?_⟩
    · rw [elements, hparts, List.flatten_cons]
    · exact .cons (sentAs_cut hlimit newSequence unit) hsent

/-- **A sequence begins at the first element**, and only where the frame does so. -/
theorem newSequence_elements {units : List (List UInt8)} (hne : ∀ unit ∈ units, unit ≠ [])
    {newSequence : Bool} {i : Nat} {p : Payload}
    (hp : (elements size newSequence units)[i]? = some p) :
    p.marks &&& 0x08 ≠ 0 ↔ i = 0 ∧ newSequence = true := by
  cases units with
  | nil => cases hp
  | cons unit rest =>
    have hunit := hne unit List.mem_cons_self
    rw [elements_cons hunit, List.getElem?_append] at hp
    split at hp
    · have hmarked := of_getElem?_cut (marked_lead newSequence) hp
      rw [← bne_iff_ne, hmarked.opens]
      simp
    · rename_i hbehind
      -- the first unit has a payload, so that this one is not the first payload of the frame
      have hstarted : cut (lead newSequence) size true unit ≠ [] := by
        rwa [Ne, cut_eq_nil_iff]
      have hlater : i ≠ 0 := by
        have := List.length_pos_of_ne_nil hstarted
        omega
      obtain ⟨unit', -, hp'⟩ := List.mem_flatMap.1 (List.mem_of_getElem? hp)
      obtain ⟨j, hj⟩ := List.getElem?_of_mem hp'
      have hmarked := of_getElem?_cut (marked_lead false) hj
      rw [← bne_iff_ne, hmarked.opens]
      simp [hlater]

/-- The sequence header of a record has bytes, and so has each unit of a walk. -/
theorem sentUnits_ne_nil {record : Av1Record} {tag : VideoTag} {units : List (Obu × List UInt8)}
    {bytes left : List UInt8} (h : Walk bytes units left) :
    ∀ unit ∈ sentUnits record tag units, unit ≠ [] := by
  intro unit hunit
  rcases List.mem_append.1 hunit with hheader | hsent
  · have hfound : record.sequenceHeader? = some unit := by
      split at hheader
      · exact Option.mem_toList.1 hheader
      · cases hheader
    obtain ⟨before, o, left', hwalk, -⟩ := findSequenceHeader?_eq_some_iff.1 hfound
    exact hwalk.ne_nil (o, unit) (by simp)
  · obtain ⟨u, hu, rfl⟩ := List.mem_map.1 hsent
    exact h.ne_nil u (List.mem_of_mem_filter hu)

/-- **A frame is delivered** in the units that its media are walked into. -/
theorem delivers_of_packetize {record : Av1Record} {limit : Nat} (hlimit : 2 ≤ limit)
    {tag : VideoTag} {out : VideoOutput} (h : packetize record limit tag = some out) :
    ∃ units, Walk tag.media units [] ∧
      Delivers limit tag.isKeyFrame (sentUnits record tag units) out := by
  obtain ⟨units, hwalk, hmedia, hpayloads⟩ := exists_walk_of_packetize h
  -- an element would be cut into nothing only if it were empty
  have hne : ∀ unit ∈ sentUnits record tag units, unit ≠ [] := sentUnits_ne_nil hwalk
  obtain ⟨parts, hparts, hsent⟩ :=
    exists_parts hlimit (sentUnits record tag units) tag.isKeyFrame
  refine ⟨units, hwalk, hmedia, ?_, fun i p hp => ?_, parts, hpayloads.trans hparts, hsent⟩
  · rw [hpayloads]
    exact join_elements hne _
  · rw [hpayloads] at hp
    exact newSequence_elements hne hp

/-- **A frame arrives as it was sent, or not at all.** Behind any tags, the last readable record of
which is in force, a coded frame changes nothing of the packetizer. It has no output frame exactly
if its walk is broken. Otherwise a receiver gets back its units, without temporal delimiters, and in
front of an intra frame the sequence header of the record. -/
theorem delivers_or_broken {limit : Nat} (hlimit : 4 ≤ limit) {tags : List VideoTag}
    {record : Av1Record} (hrecord : (tags.filterMap scheme.record?).getLast? = some record)
    {tag : VideoTag} (hcoded : scheme.IsCoded tag) :
    let p := (VideoPacketizer.initial limit).addAll scheme tags
    (p.add scheme tag).1 = p ∧
      ((p.add scheme tag).2 = none ↔ Broken tag.media) ∧
      ∀ out, (p.add scheme tag).2 = some out → ∃ units, Walk tag.media units [] ∧
        Delivers limit tag.isKeyFrame (sentUnits record tag units) out := by
  intro p
  have hout : (p.add scheme tag).2 = packetize record limit tag :=
    VideoPacketizer.output_of_coded hrecord hcoded
  rw [hout]
  refine ⟨congrArg Prod.fst (VideoPacketizer.add_of_coded hcoded), packetize_eq_none_iff, ?_⟩
  intro out hsome
  exact delivers_of_packetize (by omega) hsome

/-- An intra frame of a temporal delimiter and a unit without a size, which is cut. -/
theorem delivers_or_broken_intra :
    let config : VideoTag := { VideoTag.empty 0 0 with
      codec := .extended .av1
      packetType := .extended .sequenceStart
      media := [0x81, 0, 0, 0, 0x0a, 2, 7, 8] }
    let coded : VideoTag := { VideoTag.empty 40 0 with
      frameType := .intra
      codec := .extended .av1
      packetType := .extended .codedFrames
      media := [0x12, 0, 0x30, 1, 2, 3, 4] }
    ∃ out, (((VideoPacketizer.initial 4).addAll scheme [config]).add scheme coded).2 = some out ∧
      Delivers 4 true [[0x0a, 2, 7, 8], [0x30, 1, 2, 3, 4]] out := by
  intro config coded
  let record : Av1Record := { Av1Record.empty with obus := [0x0a, 2, 7, 8] }
  let units : List (Obu × List UInt8) :=
    [(⟨2, false, 2, 0⟩, [0x12, 0]), (⟨6, false, 1, 4⟩, [0x30, 1, 2, 3, 4])]
  have hwalk : Walk coded.media units [] :=
    .step_take rfl (by decide) (.step_take rfl (by decide) (.stop []))
  have hheader : record.sequenceHeader? = some [0x0a, 2, 7, 8] :=
    @findSequenceHeader?_append ⟨1, false, 2, 2⟩ [0x0a, 2, 7, 8] [] rfl rfl
  have hsent : sentUnits record coded units = [[0x0a, 2, 7, 8], [0x30, 1, 2, 3, 4]] :=
    congrArg (·.toList ++ [[0x30, 1, 2, 3, 4]]) hheader
  have hlimit : 4 ≤ 4 := by decide
  have hrecord : ([config].filterMap scheme.record?).getLast? = some record := rfl
  have hcoded : scheme.IsCoded coded := ⟨rfl, rfl⟩
  obtain ⟨-, hnone, hsome⟩ := delivers_or_broken hlimit hrecord hcoded
  -- the walk is not broken, and there is no other one
  cases hout : (((VideoPacketizer.initial 4).addAll scheme [config]).add scheme coded).2 with
  | none =>
    have hsplit := (hnone.1 hout).splitObus
    rw [splitObus_eq_some_iff.2 hwalk] at hsplit
    cases hsplit
  | some out =>
    obtain ⟨units', hwalk', hdelivers⟩ := hsome out hout
    have hsame := (splitObus_eq_some_iff.2 hwalk').symm.trans (splitObus_eq_some_iff.2 hwalk)
    rw [Option.some.inj hsame, hsent] at hdelivers
    exact ⟨out, rfl, hdelivers⟩

end Av1

end LiveIngest.Rtp
