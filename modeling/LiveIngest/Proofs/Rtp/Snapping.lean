import Mathlib.Algebra.Order.Round
import Mathlib.Data.Rat.Floor
import Mathlib.Tactic.FieldSimp
import Mathlib.Tactic.Linarith
import Mathlib.Tactic.NormNum
import LiveIngest.Proofs.Rtp.Gating

/-!
# Times that snap to frames

The times of AAC tags are whole milliseconds, mostly a little off. Timestamps count samples, and
each one is a multiple of the frame length:

* `nearestMultiple_eq_round` — that multiple is the exact quotient, rounded with halves up, so that
  it is off by half a frame at most (`Snapped`) and grows with the time;
* `timestamp_of_isFrame` — a time that is off the start of a frame by three half milliseconds at
  most snaps to exactly that start. A cut to whole samples and three half milliseconds together are
  less than half of the shortest frame, even at the highest rate: 145 of 240 samples.

Main statement: `outputs_snap` — for whole runs of frames, since a raw frame leaves the packetizer
as it is (`timestamps_outputs`), so that nothing adds up.
-/

namespace LiveIngest.Rtp

open Codec

/-! ### The nearest multiple -/

section NearestMultiple

variable {samples length : Nat}

/-- **Snapping is rounding**: the sum and the integer division amount to the nearest multiple, ties
upwards. -/
theorem nearestMultiple_eq_round (hlength : 0 < length) :
    (nearestMultiple samples length : Int) = round ((samples : Rat) / length) * length := by
  have hpos : (0 : Rat) < length := Nat.cast_pos.2 hlength
  have hhalf : (samples : Rat) / length + 1 / 2 =
      ((2 * samples + length : Nat) : Int) / ((2 * length : Nat) : Rat) := by
    push_cast
    field_simp
  rw [round_eq, hhalf, Rat.floor_intCast_div_natCast, nearestMultiple]
  push_cast
  rfl

/-- What is snapped to is a multiple of the frame length. -/
theorem dvd_nearestMultiple : length ∣ nearestMultiple samples length :=
  Nat.dvd_mul_left length _

/-- Snapping keeps the order. -/
theorem nearestMultiple_mono {more : Nat} (h : samples ≤ more) :
    nearestMultiple samples length ≤ nearestMultiple more length := by
  have hdiv : (2 * samples + length) / (2 * length) ≤ (2 * more + length) / (2 * length) :=
    Nat.div_le_div_right (by omega)
  exact Nat.mul_le_mul_right length hdiv

/-- No multiple is off by more than half of the length. -/
theorem abs_nearestMultiple_sub_le (hlength : 0 < length) :
    |(nearestMultiple samples length : Rat) - samples| ≤ length / 2 := by
  have hpos : (0 : Rat) < length := Nat.cast_pos.2 hlength
  -- the nearest multiple is the rounded quotient, which is off by a half at most
  have hround : (nearestMultiple samples length : Rat) =
      round ((samples : Rat) / length) * length := by
    exact_mod_cast nearestMultiple_eq_round hlength
  have hsamples : (samples : Rat) = samples / length * length := (div_mul_cancel₀ _ hpos.ne').symm
  calc |(nearestMultiple samples length : Rat) - samples|
      = |(samples : Rat) / length - round ((samples : Rat) / length)| * length := by
        rw [hround, abs_sub_comm]
        nth_rewrite 1 [hsamples]
        rw [← sub_mul, abs_mul, abs_of_pos hpos]
    _ ≤ 1 / 2 * length := mul_le_mul_of_nonneg_right (abs_sub_round _) hpos.le
    _ = length / 2 := by ring

/-- What is less than half a length off a multiple snaps to it. -/
theorem nearestMultiple_eq {n : Nat} (hlow : 2 * (n * length) ≤ 2 * samples + length)
    (hhigh : 2 * samples < 2 * (n * length) + length) :
    nearestMultiple samples length = n * length := by
  have hquotient : (2 * samples + length) / (2 * length) = n := by
    refine Nat.div_eq_of_lt_le ?_ ?_
    · linarith
    · linarith
  rw [nearestMultiple, hquotient]

end NearestMultiple

namespace AacPacketizer

variable {p : AacPacketizer} {config : AudioConfig} {published : List UInt8} {tag : AudioTag}

/-! ### One frame -/

/-- The number of whole samples up to a tag. -/
def samples (config : AudioConfig) (tag : AudioTag) : Nat :=
  tag.timestamp.toNat * config.sampling.rate / 1000

/-- An access unit is sent, and its time is the snapped one. -/
theorem timestamp_of_packetize (hrate : config.sampling.rate ≠ 0) :
    ∃ out, packetize config published tag = some out ∧
      out.timestamp = nearestMultiple (samples config tag) config.frameLength := by
  unfold packetize
  dsimp only
  rw [if_neg hrate]
  exact ⟨_, rfl, rfl⟩

/-- A raw frame is answered with a timestamp once there is a configuration with a rate. -/
theorem timestamp_of_isRaw (hconfig : p.config = some (config, published))
    (hrate : config.sampling.rate ≠ 0) (hraw : IsRaw tag) :
    ∃ out, (p.add tag).2 = some out ∧
      out.timestamp = nearestMultiple (samples config tag) config.frameLength := by
  rw [add_of_isRaw hraw, hconfig]
  exact timestamp_of_packetize hrate

/-- The shortest frame has 480 samples. -/
theorem frameLength_ge : 480 ≤ config.frameLength := by
  unfold AudioConfig.frameLength
  repeat' split
  all_goals decide

/-- A timestamp that a tag may have. -/
structure Snapped (config : AudioConfig) (tag : AudioTag) (timestamp : Nat) : Prop where
  /-- The start of the frame that is nearest, of two frames the later one. -/
  nearest : (timestamp : Int) = config.frameLength *
    round (⌊(tag.timestamp.toNat : Rat) * config.sampling.rate / 1000⌋ / (config.frameLength : Rat))
  dvd : config.frameLength ∣ timestamp
  close : |(timestamp : Rat) - ⌊(tag.timestamp.toNat : Rat) * config.sampling.rate / 1000⌋| ≤
    config.frameLength / 2

/-- Samples are milliseconds times the rate, rounded down. -/
theorem floor_eq_samples :
    ⌊(tag.timestamp.toNat : Rat) * config.sampling.rate / 1000⌋ = (samples config tag : Int) := by
  have hfloor := Rat.floor_intCast_div_natCast
    ((tag.timestamp.toNat * config.sampling.rate : Nat) : Int) 1000
  push_cast at hfloor
  rw [hfloor, samples]
  push_cast
  rfl

/-- The nearest multiple of a tag's samples is where the tag is snapped to. -/
theorem snapped_nearestMultiple :
    Snapped config tag (nearestMultiple (samples config tag) config.frameLength) := by
  have hlength : 0 < config.frameLength := Nat.zero_lt_of_lt frameLength_ge
  refine ⟨?_, dvd_nearestMultiple, ?_⟩
  · rw [floor_eq_samples, Int.cast_natCast, Int.mul_comm]
    exact nearestMultiple_eq_round hlength
  · rw [floor_eq_samples, Int.cast_natCast]
    exact abs_nearestMultiple_sub_le hlength

/-- Later tags count no fewer samples. -/
theorem samples_mono {later : AudioTag} (h : tag.timestamp ≤ later.timestamp) :
    samples config tag ≤ samples config later :=
  Nat.div_le_div_right (Nat.mul_le_mul_right _ h)

/-! ### Frames that are nearly in time -/

/-- A raw frame, at three half milliseconds at most from the moment that frame `n` starts. -/
structure IsFrame (config : AudioConfig) (n : Nat) (tag : AudioTag) : Prop extends IsRaw tag where
  near :
    |(tag.timestamp.toNat : Rat) - 1000 * n * config.frameLength / config.sampling.rate| ≤ 3 / 2

/-- Listed rates are positive and at most 96 kHz. -/
theorem rate_le_of_mem {rate : Nat} (h : rate ∈ sampleRates) : 0 < rate ∧ rate ≤ 96000 := by
  have hall : ∀ rate ∈ sampleRates, 0 < rate ∧ rate ≤ 96000 := by decide
  exact hall rate h

/-- The three half milliseconds on both sides, in thousandths of samples. -/
theorem IsFrame.bounds {n : Nat} (h : IsFrame config n tag) (hrate : 0 < config.sampling.rate) :
    2 * (1000 * (n * config.frameLength)) ≤
        2 * (tag.timestamp.toNat * config.sampling.rate) + 3 * config.sampling.rate ∧
      2 * (tag.timestamp.toNat * config.sampling.rate) ≤
        2 * (1000 * (n * config.frameLength)) + 3 * config.sampling.rate := by
  have hpos : (0 : Rat) < config.sampling.rate := Nat.cast_pos.2 hrate
  obtain ⟨hlow, hhigh⟩ := abs_le.1 h.near
  have hbehind : 1000 * (n : Rat) * config.frameLength / config.sampling.rate ≤
      tag.timestamp.toNat + 3 / 2 := by
    linarith
  have hahead : tag.timestamp.toNat - 3 / 2 ≤
      1000 * (n : Rat) * config.frameLength / config.sampling.rate := by
    linarith
  -- the rate is taken to the other side, and the numbers are whole again
  rw [div_le_iff₀ hpos] at hbehind
  rw [le_div_iff₀ hpos] at hahead
  constructor
  · have hscaled : 2 * (1000 * ((n : Rat) * config.frameLength)) ≤
        2 * (tag.timestamp.toNat * config.sampling.rate) + 3 * config.sampling.rate := by
      linarith
    exact_mod_cast hscaled
  · have hscaled : 2 * ((tag.timestamp.toNat : Rat) * config.sampling.rate) ≤
        2 * (1000 * (n * config.frameLength)) + 3 * config.sampling.rate := by
      linarith
    exact_mod_cast hscaled

/-- **A frame that is nearly in time has exactly its own timestamp.** -/
theorem timestamp_of_isFrame {n : Nat} (h : IsFrame config n tag)
    (hrate : config.sampling.rate ∈ sampleRates) :
    nearestMultiple (samples config tag) config.frameLength = n * config.frameLength := by
  obtain ⟨hpos, hle⟩ := rate_le_of_mem hrate
  obtain ⟨hlow, hhigh⟩ := h.bounds hpos
  have hlength : 480 ≤ config.frameLength := frameLength_ge
  -- 3/2 ms are 144 samples at most, and the cut to whole samples is less than one more
  refine nearestMultiple_eq ?_ ?_
  · unfold samples
    omega
  · unfold samples
    omega

/-! ### Runs of frames -/

/-- What a packetizer answers to one tag after another. -/
def outputs (p : AacPacketizer) : List AudioTag → List (Option AudioOutput)
  | [] => []
  | tag :: rest => (p.add tag).2 :: (p.add tag).1.outputs rest

/-- Raw frames leave the packetizer as it is, so that what holds of one frame holds of each. -/
theorem timestamps_outputs (hconfig : p.config = some (config, published))
    (hrate : config.sampling.rate ∈ sampleRates) {ns : List Nat} {tags : List AudioTag}
    (hframes : List.Forall₂ (IsFrame config) ns tags) :
    (p.outputs tags).map (Option.map AudioOutput.timestamp) =
      ns.map fun n => some (n * config.frameLength) := by
  have hpos := (rate_le_of_mem hrate).1
  induction hframes with
  | nil => rfl
  | @cons n tag ns tags hframe _ ih =>
    have hsame : (p.add tag).1 = p := by rw [add_of_isRaw hframe.toIsRaw]
    obtain ⟨out, hout, htimestamp⟩ := timestamp_of_isRaw hconfig hpos.ne' hframe.toIsRaw
    rw [outputs, List.map_cons, List.map_cons, hsame, ih, hout, Option.map_some, htimestamp,
      timestamp_of_isFrame hframe hrate]

/-- **Times snap to frames.** Raw frames that are nearly in time have the timestamps of their
frames, one by one and however long the run is; at every rate, the timestamp of a raw frame is the
nearest start of a frame, and does not go back when the time does not. -/
theorem outputs_snap (hconfig : p.config = some (config, published))
    (hrate : config.sampling.rate ≠ 0) :
    (config.sampling.rate ∈ sampleRates → ∀ ns tags, List.Forall₂ (IsFrame config) ns tags →
      (p.outputs tags).map (Option.map AudioOutput.timestamp) =
        ns.map fun n => some (n * config.frameLength)) ∧
    (∀ tag, IsRaw tag → ∃ out, (p.add tag).2 = some out ∧ Snapped config tag out.timestamp) ∧
    (∀ tag later, IsRaw tag → IsRaw later → tag.timestamp ≤ later.timestamp →
      ∃ out outLater, (p.add tag).2 = some out ∧ (p.add later).2 = some outLater ∧
        out.timestamp ≤ outLater.timestamp) := by
  refine ⟨fun hmem ns tags => timestamps_outputs hconfig hmem, fun tag hraw => ?_,
    fun tag later hraw hlater hle => ?_⟩
  · obtain ⟨out, hout, htimestamp⟩ := timestamp_of_isRaw hconfig hrate hraw
    exact ⟨out, hout, htimestamp ▸ snapped_nearestMultiple⟩
  · obtain ⟨out, hout, htimestamp⟩ := timestamp_of_isRaw hconfig hrate hraw
    obtain ⟨outLater, houtLater, htimestampLater⟩ := timestamp_of_isRaw hconfig hrate hlater
    refine ⟨out, outLater, hout, houtLater, ?_⟩
    rw [htimestamp, htimestampLater]
    exact nearestMultiple_mono (samples_mono hle)

/-- The shortest frames at the highest rate: 480 samples are five milliseconds, and each of the
three times is one off. The last one is one before the end of the clock. -/
theorem outputs_snap_shortest :
    let header : AudioTag := { AudioTag.empty 0 0 with
      packetType := .sequenceHeader
      media := [0xb8, 0x14] }
    let raw : UInt32 → AudioTag := fun millis =>
      { AudioTag.empty millis 0 with media := [0x21, 0x10] }
    ((initial.addAll [header]).outputs [raw 6, raw 9, raw 4294967294]).map
      (Option.map AudioOutput.timestamp) = [some 480, some 960, some 412316860320] := by
  intro header raw
  let config : AudioConfig := {
    objectType := typeLd
    sampling := ⟨0, 96000⟩
    channelConfig := 2
    extension := none
    frameLengthFlag := true
    coreCoderDelay := none
    extensionFlag := false }
  have hconfig : (initial.addAll [header]).config = some (config, [0xb8, 0x14]) := by
    decide +kernel
  have hrate : config.sampling.rate ≠ 0 := by decide
  have hmem : config.sampling.rate ∈ sampleRates := by decide
  have hlength : config.frameLength = 480 := by decide
  -- frames of 480 samples at 96 kHz begin every five milliseconds
  have hframe : ∀ (n : Nat) (millis : UInt32), |(millis.toNat : Int) - 5 * n| ≤ 1 →
      IsFrame config n (raw millis) := by
    refine fun n millis hoff => ⟨⟨rfl, rfl⟩, ?_⟩
    have hstart : 1000 * (n : Rat) * config.frameLength / config.sampling.rate = 5 * n := by
      rw [hlength, show config.sampling.rate = 96000 from rfl]
      push_cast
      ring
    have hnear : |(millis.toNat : Rat) - 5 * n| ≤ 1 := by exact_mod_cast hoff
    rw [hstart]
    exact hnear.trans (by norm_num)
  have hframes : List.Forall₂ (IsFrame config) [1, 2, 858993459]
      [raw 6, raw 9, raw 4294967294] :=
    .cons (hframe 1 6 (by decide)) <|
      .cons (hframe 2 9 (by decide)) <|
        .cons (hframe 858993459 4294967294 (by decide)) .nil
  rw [(outputs_snap hconfig hrate).1 hmem _ _ hframes, hlength]
  rfl

end AacPacketizer

end LiveIngest.Rtp
