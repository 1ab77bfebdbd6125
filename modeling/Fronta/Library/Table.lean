import Mathlib.Data.List.Nodup
import Mathlib.Data.List.Range
import Mathlib.Data.List.Pairwise
import Mathlib.Data.List.Perm.Subperm
import Mathlib.Logic.Function.Basic

/-!
# Tables with an identity column

A table gives its rows ids in ascending order, starting at 1, and never gives an id twice. The
statements of a query language are pointwise functions of the rows, and a transaction is an overlay
of the rows it wrote.
-/

namespace Sql

universe u

/-- Rows by id. `next` is the id of the next row. -/
@[ext]
structure Table (α : Type u) where
  next : ℕ
  get : ℕ → Option α
  pos : 0 < next
  bounded : ∀ i a, get i = some a → 0 < i ∧ i < next

namespace Table

variable {α : Type u} {T : Table α} {i j : ℕ} {a b : α}

theorem get_of_le (T : Table α) (h : T.next ≤ i) : T.get i = none := by
  cases hi : T.get i with
  | none => rfl
  | some a => exact absurd (T.bounded i a hi).2 (Nat.not_lt.mpr h)

theorem pos_of_get (h : T.get i = some a) : 0 < i := (T.bounded i a h).1

theorem lt_of_get (h : T.get i = some a) : i < T.next := (T.bounded i a h).2

/-! ## Statements -/

/-- The table with no row. -/
def empty : Table α where
  next := 1
  get := fun _ => none
  pos := Nat.one_pos
  bounded := by simp

@[simp] theorem get_empty : (empty : Table α).get i = none := rfl

/-- Take `n` ids without storing a row. -/
def reserve (T : Table α) (n : ℕ) : Table α where
  next := T.next + n
  get := T.get
  pos := Nat.add_pos_left T.pos n
  bounded := fun i a h => ⟨(T.bounded i a h).1, Nat.lt_add_right n (T.bounded i a h).2⟩

@[simp] theorem get_reserve {n : ℕ} : (T.reserve n).get i = T.get i := rfl

@[simp] theorem next_reserve {n : ℕ} : (T.reserve n).next = T.next + n := rfl

/-- `INSERT`: the new row gets the next id. -/
def insert (T : Table α) (a : α) : Table α where
  next := T.next + 1
  get := fun i => if i = T.next then some a else T.get i
  pos := Nat.succ_pos _
  bounded := by
    intro i b h
    split at h
    · rename_i he; exact ⟨he ▸ T.pos, he ▸ Nat.lt_succ_self _⟩
    · exact ⟨(T.bounded i b h).1, Nat.lt_succ_of_lt (T.bounded i b h).2⟩

theorem get_insert (T : Table α) (a : α) (i : ℕ) :
    (T.insert a).get i = if i = T.next then some a else T.get i := rfl

@[simp] theorem next_insert : (T.insert a).next = T.next + 1 := rfl

@[simp] theorem get_insert_self : (T.insert a).get T.next = some a := by simp [get_insert]

theorem get_insert_of_get (h : T.get i = some b) : (T.insert a).get i = some b := by
  rw [get_insert, if_neg (Nat.ne_of_lt (lt_of_get h)), h]

theorem get_insert_cases (h : (T.insert a).get i = some b) :
    (i = T.next ∧ b = a) ∨ T.get i = some b := by
  rw [get_insert] at h
  split at h
  · rename_i hi; exact Or.inl ⟨hi, (Option.some.inj h).symm⟩
  · exact Or.inr h

/-- `UPDATE`: `f` gives the new row where the row matches and `none` where it does not. -/
def update (T : Table α) (f : ℕ → α → Option α) : Table α where
  next := T.next
  get := fun i => (T.get i).map fun a => (f i a).getD a
  pos := T.pos
  bounded := by
    intro i b h
    obtain ⟨a, ha, -⟩ := Option.map_eq_some_iff.mp h
    exact T.bounded i a ha

theorem get_update (T : Table α) (f : ℕ → α → Option α) (i : ℕ) :
    (T.update f).get i = (T.get i).map fun a => (f i a).getD a := rfl

@[simp] theorem next_update {f : ℕ → α → Option α} : (T.update f).next = T.next := rfl

theorem get_update_cases {f : ℕ → α → Option α} (h : (T.update f).get i = some b) :
    ∃ a, T.get i = some a ∧ ((f i a = none ∧ b = a) ∨ f i a = some b) := by
  obtain ⟨a, ha, hb⟩ := Option.map_eq_some_iff.mp h
  refine ⟨a, ha, ?_⟩
  cases hf : f i a with
  | none => exact Or.inl ⟨rfl, by simpa [hf] using hb.symm⟩
  | some c => exact Or.inr (by simpa [hf] using hb)

/-- Change the row with one id. -/
def modify (T : Table α) (i : ℕ) (f : α → α) : Table α := T.update fun j a => if j = i then some (f a) else none

theorem get_modify (T : Table α) (i : ℕ) (f : α → α) (j : ℕ) :
    (T.modify i f).get j = (T.get j).map fun a => if j = i then f a else a := by
  rw [modify, get_update]
  congr 1
  funext a
  split <;> rfl

@[simp] theorem get_modify_self {f : α → α} : (T.modify i f).get i = (T.get i).map f := by simp [get_modify]

@[simp] theorem next_modify {f : α → α} : (T.modify i f).next = T.next := rfl

theorem get_modify_cases {f : α → α} (h : (T.modify i f).get j = some b) :
    (j ≠ i ∧ T.get j = some b) ∨ j = i ∧ ∃ a, T.get i = some a ∧ b = f a := by
  obtain ⟨a, ha, ⟨hn, rfl⟩ | hf⟩ := get_update_cases h
  · refine Or.inl ⟨fun hj => ?_, ha⟩
    rw [if_pos hj] at hn
    cases hn
  · obtain ⟨hj, hf⟩ := Option.ite_none_right_eq_some.mp hf
    exact Or.inr ⟨hj, a, hj ▸ ha, (Option.some.inj hf).symm⟩

/-- `DELETE`: the rows where `p` holds go. -/
def erase (T : Table α) (p : ℕ → α → Bool) : Table α where
  next := T.next
  get := fun i => (T.get i).filter fun a => !p i a
  pos := T.pos
  bounded := by
    intro i b h
    exact T.bounded i b (Option.filter_eq_some_iff.mp h).1

theorem get_erase (T : Table α) (p : ℕ → α → Bool) (i : ℕ) :
    (T.erase p).get i = (T.get i).filter fun a => !p i a := rfl

@[simp] theorem next_erase {p : ℕ → α → Bool} : (T.erase p).next = T.next := rfl

theorem get_erase_eq_some {p : ℕ → α → Bool} :
    (T.erase p).get i = some a ↔ T.get i = some a ∧ p i a = false := by
  rw [get_erase, Option.filter_eq_some_iff]; simp

/-- The rows in ascending order of their ids. -/
def entries (T : Table α) : List (ℕ × α) :=
  (List.range T.next).filterMap fun i => (T.get i).map fun a => (i, a)

theorem mem_entries : (i, a) ∈ T.entries ↔ T.get i = some a := by
  simp only [entries, List.mem_filterMap, List.mem_range, Option.map_eq_some_iff, Prod.mk.injEq]
  constructor
  · rintro ⟨j, -, b, hb, rfl, rfl⟩; exact hb
  · intro h; exact ⟨i, lt_of_get h, a, h, rfl, rfl⟩

theorem entries_sorted (T : Table α) : T.entries.Pairwise fun x y => x.1 < y.1 := by
  refine List.Pairwise.filterMap _ ?_ List.pairwise_lt_range
  intro i j hij x hx y hy
  obtain ⟨_, _, rfl⟩ := Option.map_eq_some_iff.mp hx
  obtain ⟨_, _, rfl⟩ := Option.map_eq_some_iff.mp hy
  exact hij

theorem entries_nodup (T : Table α) : (T.entries.map Prod.fst).Nodup := by
  rw [List.Nodup, List.pairwise_map]
  exact T.entries_sorted.imp fun h => Nat.ne_of_lt h

/-- `count(*)` of the rows with `p`. -/
def count (T : Table α) (p : α → Bool) : ℕ := (T.entries.filter fun x => p x.2).length

/-- Where every counted row was counted before or is listed, the count grows by no more than the list. -/
theorem count_le_add {T' : Table α} {p : α → Bool} {l : List ℕ}
    (h : ∀ i b, T'.get i = some b → p b = true → (∃ a, T.get i = some a ∧ p a = true) ∨ i ∈ l) :
    T'.count p ≤ T.count p + l.length := by
  have hnd : ((T'.entries.filter fun x => p x.2).map Prod.fst).Nodup :=
    T'.entries_nodup.sublist (List.filter_sublist.map _)
  have hsub : (T'.entries.filter fun x => p x.2).map Prod.fst ⊆
      (T.entries.filter fun x => p x.2).map Prod.fst ++ l := by
    intro i hi
    obtain ⟨⟨j, b⟩, hm, rfl⟩ := List.mem_map.mp hi
    obtain ⟨hm, hp⟩ := List.mem_filter.mp hm
    rcases h j b (mem_entries.mp hm) hp with ⟨a, ha, hpa⟩ | hl
    · exact List.mem_append_left _
        (List.mem_map.mpr ⟨(j, a), List.mem_filter.mpr ⟨mem_entries.mpr ha, hpa⟩, rfl⟩)
    · exact List.mem_append_right _ hl
  have := (List.subperm_of_subset hnd hsub).length_le
  simpa [count] using this

theorem count_le {T' : Table α} {p : α → Bool}
    (h : ∀ i b, T'.get i = some b → p b = true → ∃ a, T.get i = some a ∧ p a = true) :
    T'.count p ≤ T.count p := by
  simpa using count_le_add (l := []) fun i b hb hp => Or.inl (h i b hb hp)

/-- `RETURNING`: the rows that an update by `f` writes. -/
def returning (T : Table α) (f : ℕ → α → Option α) : List (ℕ × α) :=
  T.entries.filterMap fun x => (f x.1 x.2).map fun b => (x.1, b)

theorem mem_returning {f : ℕ → α → Option α} :
    (i, b) ∈ T.returning f ↔ ∃ a, T.get i = some a ∧ f i a = some b := by
  simp only [returning, List.mem_filterMap, Option.map_eq_some_iff, Prod.mk.injEq, Prod.exists,
    mem_entries]
  constructor
  · rintro ⟨j, a, ha, c, hc, rfl, rfl⟩; exact ⟨a, ha, hc⟩
  · rintro ⟨a, ha, hb⟩; exact ⟨i, a, ha, b, hb, rfl, rfl⟩

theorem returning_sorted (T : Table α) (f : ℕ → α → Option α) :
    (T.returning f).Pairwise fun x y => x.1 < y.1 := by
  refine List.Pairwise.filterMap _ ?_ T.entries_sorted
  intro x y hxy b hb c hc
  obtain ⟨_, _, rfl⟩ := Option.map_eq_some_iff.mp hb
  obtain ⟨_, _, rfl⟩ := Option.map_eq_some_iff.mp hc
  exact hxy

theorem returning_nodup {f : ℕ → α → Option α} : ((T.returning f).map Prod.fst).Nodup := by
  rw [List.Nodup, List.pairwise_map]
  exact (T.returning_sorted f).imp fun h => Nat.ne_of_lt h

theorem update_eq_self {f : ℕ → α → Option α} (h : ∀ i a, T.get i = some a → f i a = none) :
    T.update f = T := by
  refine Table.ext rfl (funext fun i => ?_)
  rw [get_update]
  cases ha : T.get i with
  | none => rfl
  | some a => simp [h i a ha]

theorem returning_eq_nil {f : ℕ → α → Option α} (h : ∀ i a, T.get i = some a → f i a = none) :
    T.returning f = [] := by
  refine List.eq_nil_iff_forall_not_mem.mpr ?_
  rintro ⟨i, b⟩ hm
  obtain ⟨a, ha, hb⟩ := mem_returning.mp hm
  simp [h i a ha] at hb

private theorem filterMap_range_single {β : Type*} (o : Option β) (i n : ℕ) :
    ((List.range n).filterMap fun j => if j = i then o else none) = if i < n then o.toList else [] := by
  induction n with
  | zero => simp
  | succ n ih =>
      rw [List.range_succ, List.filterMap_append, ih]
      rcases Nat.lt_trichotomy i n with h | rfl | h
      · simp [h, Nat.lt_succ_of_lt h, (Nat.ne_of_lt h).symm]
      · cases o <;> simp
      · simp [Nat.not_lt.mpr (Nat.le_of_lt h), Nat.not_lt.mpr h, Nat.ne_of_lt h]

/-- An update returns one row for an id or none. -/
theorem returning_filter (T : Table α) (f : ℕ → α → Option α) (i : ℕ) :
    (T.returning f).filter (fun x => x.1 = i) =
      (((T.get i).bind (f i)).map fun b => (i, b)).toList := by
  rw [returning, entries, List.filterMap_filterMap, List.filter_filterMap]
  have : (fun j => Option.filter (fun x : ℕ × α => decide (x.1 = i))
      (((T.get j).map fun a => (j, a)).bind fun x => (f x.1 x.2).map fun b => (x.1, b))) =
      fun j => if j = i then ((T.get i).bind (f i)).map (fun b => (i, b)) else none := by
    funext j
    by_cases hj : j = i
    · subst hj
      cases T.get j with
      | none => simp
      | some a => cases hf : f j a <;> simp [hf]
    · cases T.get j with
      | none => simp [hj]
      | some a => cases hf : f j a <;> simp [hf, hj]
  rw [this, filterMap_range_single]
  split
  · rfl
  · rename_i hi; simp [T.get_of_le (Nat.not_lt.mp hi)]

/-- The first row in ascending order of ids for which `p` holds. -/
def find (T : Table α) (p : α → Bool) : Option (ℕ × α) := T.entries.find? fun x => p x.2

theorem get_of_find {p : α → Bool} (h : T.find p = some (i, a)) : T.get i = some a ∧ p a = true :=
  ⟨mem_entries.mp (List.mem_of_find?_eq_some h), by simpa using List.find?_some h⟩

theorem find_eq_none {p : α → Bool} : T.find p = none ↔ ∀ i a, T.get i = some a → p a = false := by
  simp only [find, List.find?_eq_none, Prod.forall, mem_entries, Bool.not_eq_true]

/-! ## Overlays -/

/-- Write the rows of `w`, the first entry of an id over the later ones. `none` deletes. -/
def overlay (T : Table α) (w : List (ℕ × Option α)) : Table α where
  next := T.next
  get := fun i => if 0 < i ∧ i < T.next then (w.lookup i).getD (T.get i) else none
  pos := T.pos
  bounded := by
    intro i a h
    split at h
    · assumption
    · cases h

@[simp] theorem next_overlay {w : List (ℕ × Option α)} : (T.overlay w).next = T.next := rfl

theorem get_overlay_of_none {w : List (ℕ × Option α)} (h : w.lookup i = none) :
    (T.overlay w).get i = T.get i := by
  simp only [overlay, h, Option.getD_none]
  split
  · rfl
  · rename_i hi
    cases ha : T.get i with
    | none => rfl
    | some a => exact absurd (T.bounded i a ha) hi

theorem get_overlay_of_some {w : List (ℕ × Option α)} {v : Option α} (h : w.lookup i = some v)
    (hp : 0 < i) (hn : i < T.next) : (T.overlay w).get i = v := by
  simp [overlay, h, hp, hn]

theorem get_overlay_cases {w : List (ℕ × Option α)} (h : (T.overlay w).get i = some a) :
    (w.lookup i = none ∧ T.get i = some a) ∨ w.lookup i = some (some a) := by
  cases hw : w.lookup i with
  | none => exact Or.inl ⟨rfl, get_overlay_of_none hw ▸ h⟩
  | some v =>
      obtain ⟨hp, hn⟩ := (T.overlay w).bounded i a h
      rw [get_overlay_of_some hw hp (by simpa using hn)] at h
      exact Or.inr (h ▸ rfl)

end Table

end Sql
