import Mathlib.Data.List.Basic
import LiveIngest.Keyed

/-!
# Keyed lists as finite maps

What `Keyed.get?` sees of a keyed list after an operation on it:

* `get?_put_self`, `get?_put_of_ne` — inserting writes one key and no other;
* `get?_mapValues` — mapping the entries of all keys;
* `Ascending` — the order of the keys, which insertion keeps. It makes the entries of a list exactly
  what `get?` finds, and the list the same in whatever order its entries were collected
  (`Ascending.ofList_of_perm`).
-/

namespace LiveIngest.Keyed

variable {κ α : Type} [DecidableEq κ] [LT κ] [DecidableRel (α := κ) (· < ·)]

omit [LT κ] [DecidableRel (α := κ) (· < ·)] in
@[simp] theorem get?_nil (k : κ) : get? k ([] : Keyed κ α) = none := rfl

omit [LT κ] [DecidableRel (α := κ) (· < ·)] in
theorem get?_cons (k j : κ) (a : α) (m : Keyed κ α) :
    get? k ((j, a) :: m) = if j = k then some a else get? k m := rfl

@[simp] theorem get?_put_self (k : κ) (a : α) (m : Keyed κ α) : get? k (m.put k a) = some a := by
  induction m with
  | nil => simp [put, get?_cons]
  | cons e rest ih =>
    obtain ⟨j, b⟩ := e
    unfold put
    split
    · simp [get?_cons]
    · rename_i hkj
      split
      · simp [get?_cons]
      · rw [get?_cons, if_neg (Ne.symm hkj)]
        exact ih

theorem get?_put_of_ne {k j : κ} (h : j ≠ k) (a : α) (m : Keyed κ α) :
    get? j (m.put k a) = get? j m := by
  induction m with
  | nil => simp [put, get?_cons, h.symm]
  | cons e rest ih =>
    obtain ⟨i, b⟩ := e
    unfold put
    split
    · rename_i hki
      subst hki
      simp [get?_cons, h.symm]
    · split
      · simp [get?_cons, h.symm]
      · rw [get?_cons, get?_cons, ih]

theorem get?_put (k j : κ) (a : α) (m : Keyed κ α) :
    get? j (m.put k a) = if j = k then some a else get? j m := by
  by_cases h : j = k
  · rw [if_pos h, h, get?_put_self]
  · rw [if_neg h, get?_put_of_ne h]

/-- Writing a key twice keeps the second entry. -/
theorem put_put (k : κ) (a b : α) (m : Keyed κ α) : (m.put k a).put k b = m.put k b := by
  induction m with
  | nil => simp [put]
  | cons e rest ih =>
    obtain ⟨j, c⟩ := e
    -- the key is before the first one, the first one, or behind it
    by_cases hkj : k = j
    · simp [put, hkj]
    · by_cases hlt : k < j
      · simp [put, hkj, hlt]
      · simp [put, hkj, hlt, ih]

/-- An entry of the list after an insertion is the new one or was there before. -/
theorem mem_of_mem_put {k : κ} {a : α} {m : Keyed κ α} {e : κ × α} (h : e ∈ m.put k a) :
    e = (k, a) ∨ e ∈ m := by
  induction m with
  | nil => exact Or.inl (by simpa [put] using h)
  | cons f rest ih =>
    obtain ⟨j, b⟩ := f
    unfold put at h
    split at h
    · rcases List.mem_cons.1 h with h | h
      · exact Or.inl h
      · exact Or.inr (List.mem_cons_of_mem _ h)
    · split at h
      · exact List.mem_cons.1 h
      · rcases List.mem_cons.1 h with rfl | h
        · exact Or.inr List.mem_cons_self
        · exact (ih h).imp id (List.mem_cons_of_mem _)

omit [LT κ] [DecidableRel (α := κ) (· < ·)] in
/-- What is found under a key is an entry of the list. -/
theorem mem_of_get? {k : κ} {a : α} {m : Keyed κ α} (h : get? k m = some a) : (k, a) ∈ m := by
  induction m with
  | nil => exact absurd h (by simp [get?])
  | cons e rest ih =>
    obtain ⟨j, b⟩ := e
    rw [get?_cons] at h
    split at h
    · rename_i hjk
      obtain rfl := Option.some.inj h
      subst hjk
      exact List.mem_cons_self
    · exact List.mem_cons_of_mem _ (ih h)

omit [LT κ] [DecidableRel (α := κ) (· < ·)] in
/-- Looking up a key after a change of every entry. -/
theorem get?_mapValues {β : Type} (f : α → β) (k : κ) (m : Keyed κ α) :
    get? k (m.map fun e => (e.1, f e.2)) = (get? k m).map f := by
  induction m with
  | nil => rfl
  | cons e rest ih =>
    obtain ⟨j, a⟩ := e
    rw [List.map_cons, get?_cons, get?_cons, ih]
    split <;> rfl

/-! ### Ascending keys -/

omit [DecidableEq κ] [DecidableRel (α := κ) (· < ·)] in
/-- The keys ascend, each one once. -/
def Ascending (m : Keyed κ α) : Prop :=
  m.Pairwise fun e f => e.1 < f.1

omit [DecidableEq κ] [DecidableRel (α := κ) (· < ·)] in
theorem Ascending.nil : Ascending ([] : Keyed κ α) :=
  List.Pairwise.nil

omit [DecidableEq κ] [DecidableRel (α := κ) (· < ·)] in
/-- A change of the entries leaves the keys alone. -/
theorem Ascending.mapValues {β : Type} {m : Keyed κ α} (h : m.Ascending) (f : α → β) :
    Ascending (m.map fun e => (e.1, f e.2)) :=
  List.pairwise_map.2 h

section LinearOrder

variable [LE κ] [Std.IsLinearOrder κ] [Std.LawfulOrderLT κ]

/-- Insertion finds the place of a key. -/
theorem Ascending.put {m : Keyed κ α} (h : m.Ascending) (k : κ) (a : α) :
    (m.put k a).Ascending := by
  induction m with
  | nil => exact List.pairwise_singleton _ _
  | cons e rest ih =>
    obtain ⟨j, b⟩ := e
    obtain ⟨hhead, hrest⟩ := List.pairwise_cons.1 h
    unfold Keyed.put
    split
    · rename_i hkj
      subst hkj
      exact List.pairwise_cons.2 ⟨hhead, hrest⟩
    · rename_i hkj
      split
      · rename_i hlt
        refine List.pairwise_cons.2 ⟨fun f hf => ?_, h⟩
        rcases List.mem_cons.1 hf with rfl | hf
        · exact hlt
        · exact Std.lt_trans hlt (hhead f hf)
      · rename_i hlt
        -- the key belongs behind the first one
        have hjk : j < k := Std.lt_of_le_of_ne (Std.not_lt.1 hlt) (Ne.symm hkj)
        refine List.pairwise_cons.2 ⟨fun f hf => ?_, ih hrest⟩
        rcases mem_of_mem_put hf with rfl | hf
        · exact hjk
        · exact hhead f hf

omit [DecidableRel (α := κ) (· < ·)] [Std.IsLinearOrder κ] in
/-- Every entry is found under its key. -/
theorem Ascending.get?_of_mem {m : Keyed κ α} (h : m.Ascending) {k : κ} {a : α}
    (hmem : (k, a) ∈ m) : get? k m = some a := by
  -- a key behind the first one is larger, so the first entry does not hide it
  induction m with
  | nil => exact absurd hmem List.not_mem_nil
  | cons e rest ih =>
    obtain ⟨hhead, hrest⟩ := List.pairwise_cons.1 h
    rcases List.mem_cons.1 hmem with rfl | hmem
    · rw [get?_cons, if_pos rfl]
    · have hlt := hhead _ hmem
      rw [get?_cons, if_neg (Std.ne_of_lt hlt)]
      exact ih hrest hmem

/-! ### Collecting entries in any order -/

omit [DecidableEq κ] [DecidableRel (α := κ) (· < ·)] [Std.IsLinearOrder κ] in
/-- No key stands twice, in whatever order the entries are. -/
theorem Ascending.distinct {m order : Keyed κ α} (h : m.Ascending) (hperm : order.Perm m) :
    order.Pairwise fun e f => e.1 ≠ f.1 := by
  have hm : m.Pairwise fun e f => e.1 ≠ f.1 := h.imp Std.ne_of_lt
  exact (hperm.pairwise_iff Ne.symm).2 hm

omit [LE κ] [Std.IsLinearOrder κ] [Std.LawfulOrderLT κ] in
/-- Inserting a new key adds an entry and touches no other. -/
theorem perm_put {k : κ} {a : α} {m : Keyed κ α} (h : ∀ e ∈ m, e.1 ≠ k) :
    (m.put k a).Perm ((k, a) :: m) := by
  induction m with
  | nil => exact .refl _
  | cons e rest ih =>
    obtain ⟨j, b⟩ := e
    have hkj : k ≠ j := (h (j, b) List.mem_cons_self).symm
    unfold put
    rw [if_neg hkj]
    split
    · exact .refl _
    · have hrest := ih fun e he => h e (List.mem_cons_of_mem _ he)
      exact (hrest.cons _).trans (.swap _ _ _)

/-- Inserting entries with distinct new keys, one after the other. -/
theorem perm_foldl_put {order m : Keyed κ α} (hm : m.Ascending)
    (hdistinct : order.Pairwise fun e f => e.1 ≠ f.1) (hnew : ∀ e ∈ order, ∀ f ∈ m, f.1 ≠ e.1) :
    let all := order.foldl (fun m e => m.put e.1 e.2) m
    all.Ascending ∧ all.Perm (order ++ m) := by
  induction order generalizing m with
  | nil => exact ⟨hm, .refl _⟩
  | cons e rest ih =>
    obtain ⟨hhead, hrest⟩ := List.pairwise_cons.1 hdistinct
    have hput : (m.put e.1 e.2).Perm (e :: m) := perm_put (hnew e List.mem_cons_self)
    -- what is inserted now is none of what is inserted later
    have hstill : ∀ f ∈ rest, ∀ g ∈ m.put e.1 e.2, g.1 ≠ f.1 := by
      intro f hf g hg
      rcases List.mem_cons.1 (hput.mem_iff.1 hg) with rfl | hg
      · exact hhead f hf
      · exact hnew f (List.mem_cons_of_mem _ hf) g hg
    obtain ⟨hasc, hperm⟩ := ih (hm.put e.1 e.2) hrest hstill
    exact ⟨hasc, hperm.trans ((hput.append_left rest).trans List.perm_middle)⟩

/-- **A map is its entries in any order.** -/
theorem Ascending.ofList_of_perm {m order : Keyed κ α} (h : m.Ascending)
    (hperm : order.Perm m) : ofList order = m := by
  obtain ⟨hasc, hall⟩ := perm_foldl_put Ascending.nil (h.distinct hperm) (by simp)
  rw [List.append_nil] at hall
  have hanti : ∀ e f : κ × α, e ∈ ofList order → f ∈ m → e.1 < f.1 → f.1 < e.1 → e = f :=
    fun _ _ _ _ hlt hgt => absurd (Std.lt_trans hlt hgt) Std.lt_irrefl
  exact List.Perm.eq_of_pairwise hanti hasc h (hall.trans hperm)

end LinearOrder

end LiveIngest.Keyed
