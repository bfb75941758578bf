import LiveIngest.Rtp.Video

/-!
# Packetizers behind any tags

A packetizer of a video format after a sequence of tags of any kind (`VideoPacketizer.addAll`). What
it answers to the next one is told by its record alone:

* `record_addAll` — the record in force is the last one that could be read;
* `add_of_coded` — a coded frame of the format is packetized with the record in force, and changes
  nothing;
* `isCoded_of_output`, `exists_record_of_output` — nothing else has an output frame.
-/

namespace LiveIngest.Rtp

variable {ρ : Type} {s : VideoScheme ρ} {p : VideoPacketizer ρ}

/-- A tag with a coded frame of the format. -/
structure VideoScheme.IsCoded (s : VideoScheme ρ) (tag : VideoTag) : Prop where
  format : VideoFormat.ofCodec? tag.codec = some s.format
  mediaClass : tag.mediaClass = .codedFrames

/-- The record that a tag brings, if it can be read. -/
def VideoScheme.record? (s : VideoScheme ρ) (tag : VideoTag) : Option ρ :=
  if VideoFormat.ofCodec? tag.codec = some s.format ∧ tag.mediaClass = .config then
    (s.parse tag.media).toOption
  else none

namespace VideoPacketizer

/-- The packetizer behind `tags`. -/
def addAll (s : VideoScheme ρ) (p : VideoPacketizer ρ) (tags : List VideoTag) :
    VideoPacketizer ρ :=
  tags.foldl (fun p tag => (p.add s tag).1) p

@[simp] theorem limit_add (tag : VideoTag) : (p.add s tag).1.limit = p.limit := by
  unfold add
  repeat' split
  all_goals rfl

@[simp] theorem limit_addAll (tags : List VideoTag) : (p.addAll s tags).limit = p.limit := by
  induction tags generalizing p with
  | nil => rfl
  | cons tag rest ih => exact ih.trans (limit_add tag)

theorem record_add (tag : VideoTag) : (p.add s tag).1.record = (s.record? tag).or p.record := by
  unfold add VideoScheme.record?
  by_cases hformat : VideoFormat.ofCodec? tag.codec = some s.format
  · cases hclass : tag.mediaClass with
    | config => cases hparse : s.parse tag.media <;> simp [hformat, Except.toOption]
    | codedFrames => simp [hformat]
    | other => simp
  · simp [hformat]

/-- **The record in force is the last one that could be read.** -/
theorem record_addAll (tags : List VideoTag) :
    (p.addAll s tags).record = (tags.filterMap s.record?).getLast?.or p.record := by
  induction tags generalizing p with
  | nil => rfl
  | cons tag rest ih =>
    -- the first tag may bring a record, which any later one hides
    have hrest : (p.addAll s (tag :: rest)).record = _ := ih (p := (p.add s tag).1)
    rw [hrest, record_add]
    cases hbrought : s.record? tag with
    | none => rw [List.filterMap_cons_none hbrought, Option.none_or]
    | some record =>
      rw [List.filterMap_cons_some hbrought, List.getLast?_cons]
      cases (rest.filterMap s.record?).getLast? <;> rfl

theorem add_of_coded {tag : VideoTag} (h : s.IsCoded tag) :
    p.add s tag = (p, p.record.bind fun record => s.packetize record p.limit tag) := by
  rw [add, if_pos h.format, h.mediaClass]

/-- What a coded frame is answered with behind tags that brought a record. -/
theorem output_of_coded {limit : Nat} {tags : List VideoTag} {record : ρ}
    (hrecord : (tags.filterMap s.record?).getLast? = some record) {tag : VideoTag}
    (h : s.IsCoded tag) :
    (((initial limit).addAll s tags).add s tag).2 = s.packetize record limit tag := by
  rw [add_of_coded h, record_addAll, hrecord, limit_addAll]
  rfl

/-- Nothing but a coded frame has an output frame. -/
theorem isCoded_of_output {tag : VideoTag} {out : VideoOutput} (h : (p.add s tag).2 = some out) :
    s.IsCoded tag := by
  unfold add at h
  split at h
  -- of the frames of this codec only the coded ones are answered
  · rename_i hformat
    split at h
    · split at h <;> cases h
    · rename_i hclass
      exact ⟨hformat, hclass⟩
    · cases h
  · cases h

/-- There are output frames only behind tags that brought a record. -/
theorem exists_record_of_output {limit : Nat} {tags : List VideoTag} {tag : VideoTag}
    {out : VideoOutput} (h : (((initial limit).addAll s tags).add s tag).2 = some out) :
    ∃ record, (tags.filterMap s.record?).getLast? = some record ∧
      s.packetize record limit tag = some out := by
  rw [add_of_coded (isCoded_of_output h), record_addAll, limit_addAll] at h
  obtain ⟨record, hrecord, hout⟩ := Option.bind_eq_some_iff.1 h
  exact ⟨record, (Option.or_none ▸ hrecord :), hout⟩

end VideoPacketizer

end LiveIngest.Rtp
