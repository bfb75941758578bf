import Mathlib.Algebra.Order.Floor.Div
import LiveIngest.Rtp.Av1
import LiveIngest.Rtp.Nal

/-!
# Entries as payloads

What a sender makes of an entry: its lead and, behind it, the media bytes that the entry names. Both
ways of fragmenting a unit cut it in the same manner and differ in the leads only:

* `cut lead size isFirst bytes` — the payloads of `bytes`, of at most `size` media bytes each, where
  the lead of each payload tells whether it is the first and whether it is the last one;
* `pieces` — the same cut as entries. Where the unit stands in the media, they are sent as the
  payloads of `cut` (`payloads_pieces`);
* `fragments_eq_pieces`, `Av1.fragments_eq_pieces` — what the packetizers do is such a cut.
-/

namespace LiveIngest.Rtp

/-- What an entry is sent as. -/
structure Payload where
  lead : List UInt8
  data : List UInt8
  deriving DecidableEq, Repr

namespace Payload

/-- The bytes of the RTP payload. -/
def bytes (p : Payload) : List UInt8 :=
  p.lead ++ p.data

/-- The last byte of the lead, which holds the marks. -/
def marks (p : Payload) : UInt8 :=
  p.lead.getLastD 0

end Payload

/-! ### Media and what stands in it -/

namespace Body

variable {b : Body}

def payload (b : Body) (e : Entry) : Payload :=
  ⟨e.lead, b.data e⟩

/-- What the entries are sent as, in order. -/
def payloads (b : Body) : List Payload :=
  b.entries.map b.payload

/-- Every entry lies within the media. -/
def InMedia (b : Body) : Prop :=
  ∀ e ∈ b.entries, e.offset + e.length ≤ b.media.length

/-- `bytes` stand in the media from `offset` on. -/
def HasAt (b : Body) (offset : Nat) (bytes : List UInt8) : Prop :=
  ∃ front back, b.media = front ++ (bytes ++ back) ∧ front.length = offset

/-- Bytes that stand in the media end within the media. -/
theorem HasAt.le {offset : Nat} {bytes : List UInt8} (h : b.HasAt offset bytes) :
    offset + bytes.length ≤ b.media.length := by
  obtain ⟨front, back, hmedia, rfl⟩ := h
  simp only [hmedia, List.length_append]
  omega

/-- An entry over these bytes has them as its data. -/
theorem HasAt.data {offset : Nat} {bytes : List UInt8} (h : b.HasAt offset bytes)
    (lead : List UInt8) : b.data ⟨offset, bytes.length, lead⟩ = bytes := by
  unfold Body.data
  rw [if_pos h.le]
  obtain ⟨front, back, hmedia, rfl⟩ := h
  rw [hmedia, List.drop_left, List.take_left]

theorem HasAt.left {offset : Nat} {bytes more : List UInt8} (h : b.HasAt offset (bytes ++ more)) :
    b.HasAt offset bytes := by
  obtain ⟨front, back, hmedia, hfront⟩ := h
  exact ⟨front, more ++ back, by rw [hmedia, List.append_assoc], hfront⟩

/-- What follows stands behind. -/
theorem HasAt.right {offset : Nat} {bytes more : List UInt8} (h : b.HasAt offset (bytes ++ more)) :
    b.HasAt (offset + bytes.length) more := by
  obtain ⟨front, back, hmedia, rfl⟩ := h
  exact ⟨front ++ bytes, back, by simp only [hmedia, List.append_assoc], List.length_append⟩

/-- The bytes of an entry are as many as it says. -/
theorem length_bytes_payload {e : Entry} (h : e.offset + e.length ≤ b.media.length) :
    (b.payload e).bytes.length = e.payloadSize := by
  have hdata : b.data e = (b.media.drop e.offset).take e.length := if_pos h
  rw [payload, Payload.bytes, List.length_append, hdata, List.length_take, List.length_drop,
    Nat.min_eq_left (by omega), Entry.payloadSize]

/-- Media that is added changes nothing of what stands before it. -/
theorem data_append {e : Entry} (h : e.offset + e.length ≤ b.media.length) (bytes : List UInt8) :
    (b.append bytes).data e = b.data e := by
  have hmore : e.offset + e.length ≤ (b.media ++ bytes).length := by
    rw [List.length_append]
    omega
  show (if _ then _ else _) = if _ then _ else _
  rw [append, if_pos hmore, if_pos h, List.drop_append_of_le_length (by omega),
    List.take_append_of_le_length (by rw [List.length_drop]; omega)]

/-- Entries stay within media that grow. -/
theorem InMedia.append (h : b.InMedia) (bytes : List UInt8) : (b.append bytes).InMedia := by
  intro e he
  have hle := h e he
  rw [Body.append, List.length_append]
  omega

/-- Nothing that is appended changes the payloads so far. -/
theorem payloads_append (h : b.InMedia) (bytes : List UInt8) :
    (b.append bytes).payloads = b.payloads := by
  refine List.map_congr_left fun e he => ?_
  rw [payload, payload, data_append (h e he)]

theorem InMedia.addEntries (h : b.InMedia) {entries : List Entry}
    (hnew : ∀ e ∈ entries, e.offset + e.length ≤ b.media.length) : (b.addEntries entries).InMedia :=
  List.forall_mem_append.2 ⟨h, hnew⟩

/-- New entries add their payloads. -/
theorem payloads_addEntries (entries : List Entry) :
    (b.addEntries entries).payloads = b.payloads ++ entries.map b.payload :=
  List.map_append

end Body

/-! ### Cutting a unit -/

/-- The payloads of `bytes`, each of at most `size` media bytes, but of one at least. -/
def cut (lead : (isFirst isLast : Bool) → List UInt8) (size : Nat) (isFirst : Bool)
    (bytes : List UInt8) : List Payload :=
  if bytes = [] then []
  else
    ⟨lead isFirst (bytes.length ≤ max size 1), bytes.take (max size 1)⟩ ::
      cut lead size false (bytes.drop (max size 1))
termination_by bytes.length
decreasing_by
  have := List.length_pos_of_ne_nil ‹_›
  simp only [List.length_drop]
  omega

/-- The entries of a cut of `remaining` bytes from `offset` on. -/
def pieces (lead : (isFirst isLast : Bool) → List UInt8) (size : Nat) (isFirst : Bool)
    (offset remaining : Nat) : List Entry :=
  if _h : remaining = 0 then []
  else
    let length := min remaining (max size 1)
    ⟨offset, length, lead isFirst (length = remaining)⟩ ::
      pieces lead size false (offset + length) (remaining - length)
termination_by remaining
decreasing_by omega

/-- Fragments of H.264 and H.265 differ in the bytes in front of them alone. -/
theorem fragments_eq_pieces (h : FragmentHeader) (size : Nat) (isFirst : Bool)
    (offset remaining : Nat) :
    fragments h size isFirst offset remaining = pieces h.bytes size isFirst offset remaining := by
  induction isFirst, offset, remaining using fragments.induct size with
  | case1 isFirst offset => simp [fragments, pieces]
  | case2 isFirst offset remaining hne length ih =>
    rw [fragments, pieces, dif_neg hne, dif_neg hne]
    exact congrArg _ ih

/-- The lead of an AV1 entry, where the first one of a unit may begin a sequence. -/
def Av1.lead (newSequence isFirst isLast : Bool) : List UInt8 :=
  [aggregationHeader (!isFirst) (!isLast) (isFirst && newSequence)]

/-- Elements of AV1 are cut like fragments. -/
theorem Av1.fragments_eq_pieces (size : Nat) (isFirst newSequence : Bool)
    (offset remaining : Nat) :
    fragments size isFirst (isFirst && newSequence) offset remaining =
      pieces (lead newSequence) size isFirst offset remaining := by
  induction isFirst, offset, remaining using pieces.induct size with
  | case1 isFirst offset => simp [fragments, pieces]
  | case2 isFirst offset remaining hne length ih =>
    -- a piece is never longer than what is left, and the last one is as long
    have hlast : decide (length < remaining) = !decide (length = remaining) := by
      rw [← decide_not, decide_eq_decide]
      omega
    rw [fragments, pieces, dif_neg hne, dif_neg hne]
    refine congrArg₂ List.cons ?_ ih
    show Entry.mk offset length [aggregationHeader _ (decide (length < remaining)) _] = _
    rw [hlast]
    rfl

section Cut

variable {lead : (isFirst isLast : Bool) → List UInt8} {size : Nat}

theorem cut_nil (isFirst : Bool) : cut lead size isFirst [] = [] := by
  rw [cut, if_pos rfl]

/-- A unit is cut into a first part and the rest, which is cut likewise. -/
theorem cut_of_ne_nil {isFirst : Bool} {bytes : List UInt8} (hne : bytes ≠ []) :
    cut lead size isFirst bytes =
      ⟨lead isFirst (bytes.length ≤ max size 1), bytes.take (max size 1)⟩ ::
        cut lead size false (bytes.drop (max size 1)) := by
  rw [cut, if_neg hne]

/-- Only an empty unit has no parts. -/
theorem cut_eq_nil_iff {isFirst : Bool} {bytes : List UInt8} :
    cut lead size isFirst bytes = [] ↔ bytes = [] := by
  rw [cut]
  split <;> simp_all

/-- Induction along a cut. One payload takes at least one byte off what is left of the unit. -/
theorem cut_induction (size : Nat) {motive : Bool → List UInt8 → Prop}
    (nil : ∀ isFirst, motive isFirst [])
    (step : ∀ isFirst bytes, bytes ≠ [] → motive false (bytes.drop (max size 1)) →
      motive isFirst bytes) (isFirst : Bool) (bytes : List UInt8) : motive isFirst bytes := by
  induction isFirst, bytes using cut.induct size with
  | case1 isFirst => exact nil isFirst
  | case2 isFirst bytes hne ih => exact step isFirst bytes hne ih

/-- **A unit that stands in the media is sent as the payloads of its cut.** -/
theorem payloads_pieces {b : Body} {offset : Nat} {bytes : List UInt8} (h : b.HasAt offset bytes)
    (isFirst : Bool) :
    (pieces lead size isFirst offset bytes.length).map b.payload = cut lead size isFirst bytes := by
  induction isFirst, bytes using cut_induction size generalizing offset with
  | nil isFirst => simp [pieces, cut_nil]
  | step isFirst bytes hne ih =>
    have hlen : bytes.length ≠ 0 := by simpa using hne
    -- entries compare lengths where the cut looks at the bytes that are left
    have hlast : min bytes.length (max size 1) = bytes.length ↔ bytes.length ≤ max size 1 :=
      min_eq_left_iff
    rw [← List.take_append_drop (max size 1) bytes] at h
    have hdata := h.left.data (lead isFirst (bytes.length ≤ max size 1))
    have hrest := ih h.right
    rw [List.length_take, Nat.min_comm] at hdata hrest
    have hleft : bytes.length - min bytes.length (max size 1) =
        (bytes.drop (max size 1)).length := by
      rw [List.length_drop]
      omega
    rw [cut_of_ne_nil hne, pieces, dif_neg hlen, List.map_cons]
    refine congrArg₂ List.cons ?_ ?_
    · simp only [hlast]
      exact congrArg _ hdata
    · rw [hleft]
      exact hrest

/-- The entries of a cut lie within the unit. -/
theorem pieces_within {isFirst : Bool} {offset remaining : Nat} {e : Entry}
    (he : e ∈ pieces lead size isFirst offset remaining) :
    e.offset + e.length ≤ offset + remaining := by
  induction isFirst, offset, remaining using pieces.induct size with
  | case1 isFirst offset => simp [pieces] at he
  | case2 isFirst offset remaining hne length ih =>
    -- the first entry takes a part of what remains, the others lie in the rest
    rw [pieces, dif_neg hne] at he
    rcases List.mem_cons.1 he with rfl | he
    · show offset + length ≤ offset + remaining
      omega
    · have hle := ih he
      omega

/-- Joined, the media bytes of a cut are the bytes of the unit. -/
theorem flatMap_data_cut (isFirst : Bool) (bytes : List UInt8) :
    (cut lead size isFirst bytes).flatMap Payload.data = bytes := by
  induction isFirst, bytes using cut_induction size with
  | nil isFirst => rw [cut_nil, List.flatMap_nil]
  | step isFirst bytes hne ih =>
    rw [cut_of_ne_nil hne, List.flatMap_cons, ih, List.take_append_drop]

/-- Every payload of a cut has media bytes, and not too many. -/
theorem length_data_cut {isFirst : Bool} {bytes : List UInt8} {p : Payload}
    (hp : p ∈ cut lead size isFirst bytes) :
    0 < p.data.length ∧ p.data.length ≤ max size 1 := by
  induction isFirst, bytes using cut_induction size with
  | nil isFirst => rw [cut_nil] at hp; cases hp
  | step isFirst bytes hne ih =>
    -- a step takes as much as fits, which is not nothing
    rw [cut_of_ne_nil hne] at hp
    rcases List.mem_cons.1 hp with rfl | hp
    · have hpos := List.length_pos_of_ne_nil hne
      simp only [List.length_take]
      omega
    · exact ih hp

/-- One part more is one size less to be divided. -/
theorem ceilDiv_step {n k : Nat} (hn : 0 < n) (hk : 0 < k) :
    n ⌈/⌉ k = (n - k) ⌈/⌉ k + 1 := by
  rw [Nat.ceilDiv_eq_add_pred_div, Nat.ceilDiv_eq_add_pred_div]
  rcases Nat.le_total n k with hle | hle
  · -- the first payload is the only one
    rw [Nat.sub_eq_zero_of_le hle, Nat.zero_add, Nat.div_eq_of_lt (Nat.sub_lt hk Nat.one_pos)]
    exact Nat.div_eq_of_lt_le (by omega) (by omega)
  · rw [← Nat.add_div_right _ hk]
    congr 1
    omega

/-- The number of payloads, rounded up. -/
theorem length_cut (isFirst : Bool) (bytes : List UInt8) :
    (cut lead size isFirst bytes).length = bytes.length ⌈/⌉ max size 1 := by
  induction isFirst, bytes using cut_induction size with
  | nil isFirst => simp [cut_nil]
  | step isFirst bytes hne ih =>
    have hpos := List.length_pos_of_ne_nil hne
    rw [cut_of_ne_nil hne, List.length_cons, ih, List.length_drop]
    exact (ceilDiv_step hpos (by omega)).symm

/-- The first payload has the lead of a first one, and the last payload that of a last one. -/
theorem lead_cut {isFirst : Bool} {bytes : List UInt8} {i : Nat} {p : Payload}
    (hp : (cut lead size isFirst bytes)[i]? = some p) :
    p.lead = lead (isFirst && i = 0) (i + 1 = (cut lead size isFirst bytes).length) := by
  induction isFirst, bytes using cut_induction size generalizing i with
  | nil isFirst => simp [cut_nil] at hp
  | step isFirst bytes hne ih =>
    rw [cut_of_ne_nil hne] at hp ⊢
    cases i with
    | zero =>
      cases hp
      -- the lead says that nothing is left, and then no payload follows
      have hlast : bytes.length ≤ max size 1 ↔
          (cut lead size false (bytes.drop (max size 1))).length = 0 := by
        rw [List.length_eq_zero_iff, cut_eq_nil_iff, List.drop_eq_nil_iff]
      simp [hlast]
    | succ i =>
      rw [ih hp]
      simp

/-- What is told of payloads by their leads holds of each payload of a cut. -/
theorem of_getElem?_cut {R : (isFirst isLast : Bool) → Payload → Prop}
    (hlead : ∀ isFirst isLast data, R isFirst isLast ⟨lead isFirst isLast, data⟩)
    {isFirst : Bool} {bytes : List UInt8} {i : Nat} {p : Payload}
    (hp : (cut lead size isFirst bytes)[i]? = some p) :
    R (isFirst && i = 0) (i + 1 = (cut lead size isFirst bytes).length) p := by
  obtain ⟨_, data⟩ := p
  obtain rfl := lead_cut hp
  exact hlead _ _ data

/-- The sizes of payloads whose leads are of one size. -/
theorem length_bytes_cut {n : Nat} (hlead : ∀ isFirst isLast, (lead isFirst isLast).length = n)
    {isFirst : Bool} {bytes : List UInt8} {p : Payload} (hp : p ∈ cut lead size isFirst bytes) :
    n < p.bytes.length ∧ p.bytes.length ≤ n + max size 1 := by
  obtain ⟨hpos, hle⟩ := length_data_cut hp
  obtain ⟨i, hi⟩ := List.getElem?_of_mem hp
  have hlength : p.lead.length = n := by rw [lead_cut hi, hlead]
  rw [Payload.bytes, List.length_append]
  omega

end Cut

end LiveIngest.Rtp
