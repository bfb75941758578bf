import LiveIngest.Rtp.Router

/-!
# Codecs side by side

A router holds four packetizers, and tags of all codecs come in any order. What it answers to the
tags of one kind is what a new packetizer answers that is fed nothing else.

The argument is one for all machines: a part of a state that its own inputs change as if it were
alone, and other inputs leave as it is, answers as if it were alone (`Component.responses`). Each
packetizer is such a part of a router.

A router may also make its packetizers only when the first tag of their kind comes (`LazyRouter`).
As a new packetizer is the same at any time, nobody can tell (`LazyRouter.toRouter_add`).

Main statement: `router_isolates`.
-/

namespace LiveIngest.Rtp

open Codec

/-! ### Machines and their parts -/

section Machines

variable {σ κ ι ω : Type}

/-- What a machine answers to inputs, one after the other. -/
def responses (step : σ → ι → σ × ω) : σ → List ι → List ω
  | _, [] => []
  | s, x :: rest => (step s x).2 :: responses step (step s x).1 rest

/-- The state of a machine behind inputs. -/
def stateAfter (step : σ → ι → σ × ω) (s : σ) (inputs : List ι) : σ :=
  inputs.foldl (fun s x => (step s x).1) s

/-- Of the answers to inputs those to the inputs with a property. -/
def answersTo (P : ι → Prop) [DecidablePred P] (inputs : List ι) (answers : List ω) : List ω :=
  ((inputs.zip answers).filter fun p => P p.1).map Prod.snd

@[simp] theorem length_responses (step : σ → ι → σ × ω) (s : σ) (inputs : List ι) :
    (responses step s inputs).length = inputs.length := by
  induction inputs generalizing s with
  | nil => rfl
  | cons x rest ih => exact congrArg (· + 1) (ih _)

/-- The first answer belongs to the first input. -/
theorem answersTo_cons (P : ι → Prop) [DecidablePred P] (x : ι) (rest : List ι) (answer : ω)
    (answers : List ω) :
    answersTo P (x :: rest) (answer :: answers) =
      if P x then answer :: answersTo P rest answers else answersTo P rest answers := by
  by_cases hx : P x <;> simp [answersTo, hx]

/-- Every answer was given to an input, in some state. -/
theorem exists_of_mem_answersTo {P : ι → Prop} [DecidablePred P] {step : σ → ι → σ × ω} {s : σ}
    {inputs : List ι} {answer : ω} (h : answer ∈ answersTo P inputs (responses step s inputs)) :
    ∃ s' x, P x ∧ (step s' x).2 = answer := by
  induction inputs generalizing s with
  | nil => exact absurd h List.not_mem_nil
  | cons x rest ih =>
    rw [responses, answersTo_cons] at h
    split at h
    · rename_i hx
      obtain rfl | h := List.mem_cons.1 h
      · exact ⟨s, x, hx, rfl⟩
      · exact ih h
    · exact ih h

/-- A part of a machine that is a machine of its own: its inputs change it as they would change it
alone, and the others leave it as it is. -/
structure Component (step : σ → ι → σ × ω) (Own : ι → Prop) (part : σ → κ)
    (alone : κ → ι → κ × ω) : Prop where
  own : ∀ s x, Own x → (part (step s x).1, (step s x).2) = alone (part s) x
  other : ∀ s x, ¬Own x → part (step s x).1 = part s

/-- **A part answers its inputs as if it were alone**, whatever comes in between. -/
theorem Component.responses {step : σ → ι → σ × ω} {Own : ι → Prop} [DecidablePred Own]
    {part : σ → κ} {alone : κ → ι → κ × ω} (h : Component step Own part alone) (s : σ)
    (inputs : List ι) :
    answersTo Own inputs (responses step s inputs) =
      responses alone (part s) (inputs.filter fun x => Own x) := by
  induction inputs generalizing s with
  | nil => rfl
  | cons x rest ih =>
    rw [Rtp.responses, answersTo_cons, ih, List.filter_cons]
    -- an input of its own moves the part as it would alone; any other leaves it
    by_cases hx : Own x
    · have hpart : (alone (part s) x).1 = part (step s x).1 :=
        (congrArg Prod.fst (h.own s x hx)).symm
      have hanswer : (alone (part s) x).2 = (step s x).2 :=
        (congrArg Prod.snd (h.own s x hx)).symm
      rw [if_pos hx, if_pos (decide_eq_true hx), Rtp.responses, hpart, hanswer]
    · rw [if_neg hx, if_neg (by simpa using hx), h.other s x hx]

/-- A machine that runs like another one answers the same. -/
theorem responses_congr {step : σ → ι → σ × ω} {step' : κ → ι → κ × ω} {f : κ → σ}
    (h : ∀ s x, step (f s) x = (f (step' s x).1, (step' s x).2)) (s : κ) (inputs : List ι) :
    responses step (f s) inputs = responses step' s inputs ∧
      stateAfter step (f s) inputs = f (stateAfter step' s inputs) := by
  induction inputs generalizing s with
  | nil => exact ⟨rfl, rfl⟩
  | cons x rest ih =>
    obtain ⟨hresponses, hstate⟩ := ih (step' s x).1
    obtain ⟨hnext, hanswer⟩ := Prod.ext_iff.1 (h s x)
    constructor
    · rw [responses, responses, hanswer, hnext, hresponses]
    · show stateAfter step (step (f s) x).1 rest = _
      rw [hnext]
      exact hstate

end Machines

/-! ### Kinds of tags -/

/-- The kinds of tags that there is a packetizer for. -/
inductive TagKind
  | video (format : VideoFormat)
  | aac
  deriving DecidableEq

/-- The kind of a tag, if there is a packetizer for it. -/
def TagKind.ofTag? : MediaTag → Option TagKind
  | .video tag => (VideoFormat.ofCodec? tag.codec).map .video
  | .audio tag => if tag.codec = .aac then some .aac else none

theorem TagKind.ofTag?_video (tag : VideoTag) :
    ofTag? (.video tag) = (VideoFormat.ofCodec? tag.codec).map .video := rfl

theorem TagKind.ofTag?_audio (tag : AudioTag) :
    ofTag? (.audio tag) = if tag.codec = .aac then some .aac else none := rfl

/-- A tag has no kind exactly if it counts as unsupported. -/
theorem TagKind.ofTag?_eq_none_iff {tag : MediaTag} :
    ofTag? tag = none ↔ Router.isUnsupported tag = true := by
  cases tag with
  | video tag =>
    rw [TagKind.ofTag?, Option.map_eq_none_iff, Router.isUnsupported, Option.isNone_iff_eq_none]
  | audio tag => simp [TagKind.ofTag?, Router.isUnsupported]

/-- Feed a tag to a packetizer of video. -/
def VideoPacketizer.feed {ρ : Type} (s : VideoScheme ρ) (p : VideoPacketizer ρ) :
    MediaTag → VideoPacketizer ρ × Option Output
  | .video tag =>
    let (p, out) := p.add s tag
    (p, out.map .video)
  | .audio _ => (p, none)

/-- Feed a tag to a packetizer of AAC. -/
def AacPacketizer.feed (p : AacPacketizer) : MediaTag → AacPacketizer × Option Output
  | .audio tag =>
    let (p, out) := p.add tag
    (p, out.map .audio)
  | .video _ => (p, none)

/-- A packetizer of AAC ignores tags of other codecs. -/
theorem AacPacketizer.add_of_codec_ne (p : AacPacketizer) {tag : AudioTag} (h : tag.codec ≠ .aac) :
    p.add tag = (p, none) := by
  unfold AacPacketizer.add
  split <;> first | rfl | contradiction

/-! ### The packetizers of a router -/

namespace TagKind

/-- The packetizers of a kind. -/
def Packetizer : TagKind → Type
  | .video .h264 => VideoPacketizer AvcRecord
  | .video .h265 => VideoPacketizer HevcRecord
  | .video .av1 => VideoPacketizer Av1Record
  | .aac => AacPacketizer

/-- A packetizer that was fed nothing. -/
def fresh (limit : Nat) : (kind : TagKind) → kind.Packetizer
  | .video .h264 => VideoPacketizer.initial limit
  | .video .h265 => VideoPacketizer.initial limit
  | .video .av1 => VideoPacketizer.initial limit
  | .aac => AacPacketizer.initial

def feed : (kind : TagKind) → kind.Packetizer → MediaTag → kind.Packetizer × Option Output
  | .video .h264 => VideoPacketizer.feed NalScheme.h264.toVideoScheme
  | .video .h265 => VideoPacketizer.feed NalScheme.h265.toVideoScheme
  | .video .av1 => VideoPacketizer.feed Av1.scheme
  | .aac => AacPacketizer.feed

end TagKind

namespace Router

/-- The packetizer of a kind. -/
def packetizer : (kind : TagKind) → Router → kind.Packetizer
  | .video .h264 => Router.h264
  | .video .h265 => Router.h265
  | .video .av1 => Router.av1
  | .aac => Router.aac

/-- Counting changes no packetizer. -/
theorem packetizer_add (kind : TagKind) (r : Router) (tag : MediaTag) :
    packetizer kind (r.add tag).1 = packetizer kind (r.route tag).1 := by
  cases kind with
  | video format => cases format <;> rfl
  | aac => rfl

/-- Tags of a kind go to its packetizer, and all others pass it by. -/
theorem component_packetizer (kind : TagKind) :
    Component add (TagKind.ofTag? · = some kind) (packetizer kind) kind.feed where
  own r tag h := by
    cases tag with
    | audio tag =>
      rw [TagKind.ofTag?_audio] at h
      split at h
      · cases h
        rfl
      · cases h
    | video tag =>
      obtain ⟨format, hformat, rfl⟩ := Option.map_eq_some_iff.1 h
      cases format <;> simp only [add, route, hformat] <;> rfl
  other r tag h := by
    rw [packetizer_add]
    cases tag with
    | audio tag =>
      rw [TagKind.ofTag?_audio] at h
      cases kind with
      | video format => cases format <;> rfl
      | aac =>
        have hother : tag.codec ≠ .aac := fun haac => h (if_pos haac)
        show (r.aac.add tag).1 = r.aac
        rw [AacPacketizer.add_of_codec_ne _ hother]
    | video tag =>
      rw [TagKind.ofTag?_video] at h
      cases hformat : VideoFormat.ofCodec? tag.codec with
      | none => simp only [route, hformat]
      | some format =>
        have hother : kind ≠ .video format := fun hsame => h (by rw [hformat, hsame]; rfl)
        -- what the packetizer of one format is fed does not reach any other
        cases kind with
        | aac => cases format <;> simp only [route, hformat] <;> rfl
        | video own =>
          cases own <;> cases format <;>
            first | exact absurd rfl hother | (simp only [route, hformat]; rfl)

/-- A tag that there is no packetizer for is not answered. -/
theorem add_of_unsupported {r : Router} {tag : MediaTag} (h : TagKind.ofTag? tag = none) :
    (r.add tag).2 = none := by
  -- of the audio codecs one is supported; a video codec without a packetizer has no format
  cases tag with
  | audio tag =>
    rw [TagKind.ofTag?_audio] at h
    have hother : tag.codec ≠ .aac := by
      intro haac
      rw [if_pos haac] at h
      cases h
    show (r.aac.add tag).2.map Output.audio = none
    rw [AacPacketizer.add_of_codec_ne _ hother]
    rfl
  | video tag =>
    have hformat := Option.map_eq_none_iff.1 h
    simp only [add, route, hformat]

theorem stats_add (r : Router) (tag : MediaTag) :
    (r.add tag).1.stats = {
      framesIn := r.stats.framesIn + 1
      framesOut := r.stats.framesOut + (r.add tag).2.isSome.toNat
      unsupported := r.stats.unsupported + (isUnsupported tag).toNat } :=
  rfl

/-- The counters tell the tags, the answers and the tags that no packetizer was there for. -/
theorem stats_stateAfter (r : Router) (tags : List MediaTag) :
    (stateAfter add r tags).stats = {
      framesIn := r.stats.framesIn + tags.length
      framesOut := r.stats.framesOut + (responses add r tags).countP Option.isSome
      unsupported := r.stats.unsupported + tags.countP isUnsupported } := by
  induction tags generalizing r with
  | nil => rfl
  | cons tag rest ih =>
    have hbehind := ih (r.add tag).1
    rw [stats_add] at hbehind
    show (stateAfter add (r.add tag).1 rest).stats = _
    -- the count of the first answer is moved to the front
    have hcount (a n : Nat) (b : Bool) :
        a + b.toNat + n = a + (n + if b = true then 1 else 0) := by
      rw [Nat.add_assoc, Nat.add_comm n]
      cases b <;> rfl
    rw [hbehind, responses, List.length_cons, List.countP_cons, List.countP_cons, hcount, hcount,
      Nat.add_assoc, Nat.add_comm 1]

end Router

/-! ### Packetizers made when they are needed -/

/-- A router that makes a packetizer when the first tag of its kind comes. -/
structure LazyRouter where
  limit : Nat
  h264 : Option (VideoPacketizer AvcRecord)
  h265 : Option (VideoPacketizer HevcRecord)
  av1 : Option (VideoPacketizer Av1Record)
  aac : Option AacPacketizer
  stats : Stats

namespace LazyRouter

def initial (limit : Nat) : LazyRouter where
  limit
  h264 := none
  h265 := none
  av1 := none
  aac := none
  stats := ⟨0, 0, 0⟩

/-- Feed a tag to the packetizer of its codec. Tags without one are counted. -/
def route (r : LazyRouter) : MediaTag → LazyRouter × Option Output
  | .video tag =>
    match VideoFormat.ofCodec? tag.codec with
    | some .h264 =>
      let (h264, out) := (r.h264.getD (.initial r.limit)).add NalScheme.h264.toVideoScheme tag
      ({ r with h264 := some h264 }, out.map .video)
    | some .h265 =>
      let (h265, out) := (r.h265.getD (.initial r.limit)).add NalScheme.h265.toVideoScheme tag
      ({ r with h265 := some h265 }, out.map .video)
    | some .av1 =>
      let (av1, out) := (r.av1.getD (.initial r.limit)).add Av1.scheme tag
      ({ r with av1 := some av1 }, out.map .video)
    | none => ({ r with stats.unsupported := r.stats.unsupported + 1 }, none)
  | .audio tag =>
    if tag.codec = .aac then
      let (aac, out) := (r.aac.getD .initial).add tag
      ({ r with aac := some aac }, out.map .audio)
    else ({ r with stats.unsupported := r.stats.unsupported + 1 }, none)

def add (r : LazyRouter) (tag : MediaTag) : LazyRouter × Option Output :=
  let (r, out) := route { r with stats.framesIn := r.stats.framesIn + 1 } tag
  match out with
  | some _ => ({ r with stats.framesOut := r.stats.framesOut + 1 }, out)
  | none => (r, none)

/-- The router with all of its packetizers made. -/
def toRouter (r : LazyRouter) : Router where
  h264 := r.h264.getD (.initial r.limit)
  h265 := r.h265.getD (.initial r.limit)
  av1 := r.av1.getD (.initial r.limit)
  aac := r.aac.getD .initial
  stats := r.stats

/-- The packetizers that are fed, and the answers, are the same, whatever is counted. -/
theorem toRouter_route (r : LazyRouter) (stats : Stats) (tag : MediaTag) :
    r.toRouter.route tag =
      ({ (route { r with stats } tag).1.toRouter with stats := r.stats },
        (route { r with stats } tag).2) := by
  cases tag with
  | video tag =>
    cases hformat : VideoFormat.ofCodec? tag.codec with
    | none => simp only [Router.route, route, hformat]; rfl
    | some format => cases format <;> simp only [Router.route, route, hformat] <;> rfl
  | audio tag =>
    by_cases haac : tag.codec = .aac
    · simp only [Router.route, route, if_pos haac]
      rfl
    · -- the packetizer that is there already would ignore the tag
      simp only [Router.route, route, if_neg haac, AacPacketizer.add_of_codec_ne _ haac]
      rfl

/-- Beside the packetizers, one count tells of the tags that none takes. -/
theorem stats_route (r : LazyRouter) (tag : MediaTag) :
    (r.route tag).1.stats =
      { r.stats with
        unsupported := r.stats.unsupported + (Router.isUnsupported tag).toNat } := by
  cases tag with
  | video tag =>
    cases hformat : VideoFormat.ofCodec? tag.codec with
    | none => simp only [Router.isUnsupported, route, hformat]; rfl
    | some format => cases format <;> simp only [Router.isUnsupported, route, hformat] <;> rfl
  | audio tag =>
    by_cases haac : tag.codec = .aac
    · simp only [Router.isUnsupported, route, if_pos haac]
      rw [haac]
      rfl
    · simp only [Router.isUnsupported, route, if_neg haac, decide_eq_true haac]
      rfl

/-- It makes no difference when packetizers are made. -/
theorem toRouter_add (r : LazyRouter) (tag : MediaTag) :
    r.toRouter.add tag = ((r.add tag).1.toRouter, (r.add tag).2) := by
  have hroute := toRouter_route r { r.stats with framesIn := r.stats.framesIn + 1 } tag
  have hstats := stats_route { r with stats.framesIn := r.stats.framesIn + 1 } tag
  unfold add Router.add
  rw [hroute]
  generalize route { r with stats.framesIn := r.stats.framesIn + 1 } tag = routed at hstats ⊢
  obtain ⟨⟨limit, h264, h265, av1, aac, stats⟩, out⟩ := routed
  obtain rfl : stats = _ := hstats
  cases out <;> rfl

end LazyRouter

/-! ### Codecs do not disturb each other -/

/-- What a router answers to `tags` is, kind by kind, what packetizers answer that are fed the tags
of one kind alone. -/
structure Isolates (limit : Nat) (tags : List MediaTag) (answers : List (Option Output)) :
    Prop where
  length_eq : answers.length = tags.length
  ofKind : ∀ kind : TagKind, answersTo (TagKind.ofTag? · = some kind) tags answers =
    responses kind.feed (kind.fresh limit) (tags.filter fun tag => TagKind.ofTag? tag = some kind)
  others : ∀ out ∈ answersTo (TagKind.ofTag? · = none) tags answers, out = none

theorem Router.packetizer_initial (limit : Nat) (kind : TagKind) :
    packetizer kind (initial limit) = kind.fresh limit := by
  cases kind with
  | video format => cases format <;> rfl
  | aac => rfl

/-- **Codecs do not disturb each other in a router**, and its counters tell what went in, what came
out and what no packetizer was there for. -/
theorem router_isolates (limit : Nat) (tags : List MediaTag) :
    let answers := responses Router.add (.initial limit) tags
    Isolates limit tags answers ∧
    (stateAfter Router.add (.initial limit) tags).stats = {
      framesIn := tags.length
      framesOut := answers.countP Option.isSome
      unsupported := tags.countP fun tag => TagKind.ofTag? tag = none } ∧
    responses LazyRouter.add (.initial limit) tags = answers ∧
    (stateAfter LazyRouter.add (.initial limit) tags).stats =
      (stateAfter Router.add (.initial limit) tags).stats := by
  intro answers
  -- what has no kind is what is counted as unsupported
  have hunsupported : Router.isUnsupported = fun tag => decide (TagKind.ofTag? tag = none) := by
    funext tag
    rw [Bool.eq_iff_iff, ← TagKind.ofTag?_eq_none_iff, decide_eq_true_iff]
  have hstats := Router.stats_stateAfter (.initial limit) tags
  rw [hunsupported] at hstats
  simp only [Router.initial, Nat.zero_add] at hstats
  obtain ⟨hlazy, hstate⟩ := responses_congr LazyRouter.toRouter_add (.initial limit) tags
  refine ⟨⟨length_responses _ _ _, fun kind => ?_, fun out hout => ?_⟩, hstats, hlazy.symm, ?_⟩
  · have halone := (Router.component_packetizer kind).responses (.initial limit) tags
    rwa [Router.packetizer_initial] at halone
  · obtain ⟨r, tag, htag, rfl⟩ := exists_of_mem_answersTo hout
    exact Router.add_of_unsupported htag
  · exact congrArg Router.stats hstate.symm

/-- A sequence header and a raw frame of AAC, and a video frame that nobody can packetize. -/
example :
    let tags := [MediaTag.parse 8 0 [0xaf, 0, 0x12, 0x10], MediaTag.parse 8 23 [0xaf, 1, 0x21, 0],
      MediaTag.parse 9 0 [0x14, 0, 0]].filterMap Except.toOption
    (stateAfter Router.add (.initial 1200) tags).stats = ⟨3, 1, 1⟩ := by
  decide +kernel

end LiveIngest.Rtp
