import Mathlib.Data.List.Sort

/-!
# Ordered and bounded selections

`ORDER BY` a key and `LIMIT`, and when a selection from a part of the rows is the selection from all
of them.
-/

namespace Sql

universe u v

variable {α : Type u} {β : Type v} [LinearOrder β] {key : α → β} {l m : List α} {n : ℕ}

/-- `ORDER BY key` -/
def orderBy (key : α → β) (l : List α) : List α := l.insertionSort fun a b => key a ≤ key b

/-- `ORDER BY key LIMIT n` -/
def orderLimit (key : α → β) (n : ℕ) (l : List α) : List α := (orderBy key l).take n

instance total_key (key : α → β) : Std.Total fun a b : α => key a ≤ key b :=
  ⟨fun a b => le_total (key a) (key b)⟩

instance trans_key (key : α → β) : IsTrans α fun a b : α => key a ≤ key b :=
  ⟨fun _ _ _ => le_trans⟩

theorem perm_orderBy (key : α → β) (l : List α) : (orderBy key l).Perm l :=
  List.perm_insertionSort _ l

@[simp] theorem mem_orderBy {a : α} : a ∈ orderBy key l ↔ a ∈ l := List.mem_insertionSort _

theorem orderBy_sorted (key : α → β) (l : List α) :
    (orderBy key l).Pairwise fun a b => key a ≤ key b := List.pairwise_insertionSort _ l

theorem mem_of_mem_orderLimit {a : α} (h : a ∈ orderLimit key n l) : a ∈ l :=
  mem_orderBy.mp (List.mem_of_mem_take h)

theorem nodup_orderBy (h : l.Nodup) : (orderBy key l).Nodup := (perm_orderBy key l).nodup_iff.mpr h

/-- Sorted arrangements of the same rows under a key that separates them are equal. -/
theorem eq_orderBy (hs : l.Pairwise fun a b => key a ≤ key b)
    (hk : ∀ a ∈ l, ∀ b ∈ l, key a = key b → a = b) (hp : m.Perm l) : orderBy key m = l := by
  refine List.Perm.eq_of_pairwise ?_ (orderBy_sorted key m) hs
    ((perm_orderBy key m).trans hp)
  intro a b ha hb hab hba
  exact hk a (hp.mem_iff.mp (mem_orderBy.mp ha)) b hb (le_antisymm hab hba)

theorem orderLimit_sorted : (orderLimit key n l).Pairwise fun a b => key a ≤ key b :=
  (orderBy_sorted key l).sublist (List.take_sublist n _)

theorem nodup_orderLimit (h : l.Nodup) : (orderLimit key n l).Nodup :=
  (nodup_orderBy h).sublist (List.take_sublist n _)

/-- A row is among the first ones, or these are as many as may be and come before it. -/
theorem mem_orderLimit_or_full {a : α} (h : a ∈ l) : a ∈ orderLimit key n l ∨
    (orderLimit key n l).length = n ∧ ∀ b ∈ orderLimit key n l, key b ≤ key a := by
  have ha : a ∈ (orderBy key l).take n ++ (orderBy key l).drop n := by
    rw [List.take_append_drop]
    exact mem_orderBy.mpr h
  rcases List.mem_append.mp ha with ha | ha
  · exact Or.inl ha
  · refine Or.inr ⟨?_, fun b hb => ?_⟩
    · have hlt := List.length_pos_of_mem ha
      rw [List.length_drop] at hlt
      rw [orderLimit, List.length_take]
      omega
    · have hs := orderBy_sorted key l
      rw [← List.take_append_drop n (orderBy key l)] at hs
      exact (List.pairwise_append.mp hs).2.2 b hb a ha

/-! ## Heads -/

/-- A row among the first `n` is among the first `n` of any part that it belongs to. -/
theorem mem_take_filter {p : α → Bool} {a : α} (h : a ∈ l.take n) (hp : p a = true) :
    a ∈ (l.filter p).take n := by
  induction l generalizing n with
  | nil => simp at h
  | cons b l ih =>
      cases n with
      | zero => simp at h
      | succ n =>
          rw [List.take_succ_cons, List.mem_cons] at h
          cases hb : p b with
          | true =>
              rw [List.filter_cons_of_pos hb, List.take_succ_cons, List.mem_cons]
              exact h.imp_right ih
          | false =>
              rw [List.filter_cons_of_neg (by simp [hb])]
              rcases h with rfl | h
              · rw [hp] at hb; cases hb
              · exact List.take_subset_take_left _ (Nat.le_succ n) (ih h)

/-- Where the first `n` rows all belong to a part, they are its first `n` rows. -/
theorem take_filter_of_all {p : α → Bool} (h : ∀ a ∈ l.take n, p a = true) :
    (l.filter p).take n = l.take n := by
  induction l generalizing n with
  | nil => simp
  | cons b l ih =>
      cases n with
      | zero => simp
      | succ n =>
          rw [List.take_succ_cons] at h
          rw [List.filter_cons_of_pos (h b List.mem_cons_self), List.take_succ_cons,
            List.take_succ_cons, ih fun a ha => h a (List.mem_cons_of_mem _ ha)]

/-- Taking out the first `n` rows by a key of their own leaves the others. -/
theorem filter_notMem_take {γ : Type*} [DecidableEq γ] {f : α → γ} (h : (l.map f).Nodup) :
    l.filter (fun a => !((l.take n).map f).contains (f a)) = l.drop n := by
  conv_lhs => rw [← List.take_append_drop n l]
  rw [List.filter_append, List.take_append_drop]
  rw [← List.take_append_drop n l, List.map_append, List.nodup_append] at h
  have hfirst : (l.take n).filter (fun a => !((l.take n).map f).contains (f a)) = [] := by
    refine List.filter_eq_nil_iff.mpr fun a ha => ?_
    rw [Bool.not_eq_true, Bool.not_eq_false', List.contains_iff_mem]
    exact List.mem_map_of_mem ha
  have hlast : (l.drop n).filter (fun a => !((l.take n).map f).contains (f a)) = l.drop n := by
    refine List.filter_eq_self.mpr fun a ha => ?_
    rw [Bool.not_eq_true', Bool.eq_false_iff, ne_eq, List.contains_iff_mem]
    exact fun hm => h.2.2 (f a) hm (f a) (List.mem_map_of_mem ha) rfl
  rw [hfirst, hlast, List.nil_append]

/-- A selection that sees the first `n` rows finds them. -/
theorem orderLimit_eq_take (hs : l.Pairwise fun a b => key a ≤ key b)
    (hk : ∀ a ∈ l, ∀ b ∈ l, key a = key b → a = b) (hl : l.Nodup) (hm : m.Nodup) (hsub : m ⊆ l)
    (htop : l.take n ⊆ m) : orderLimit key n m = l.take n := by
  classical
  let rest := (l.drop n).filter (· ∈ m)
  have hsublist : (l.take n ++ rest).Sublist l := by
    conv_rhs => rw [← List.take_append_drop n l]
    exact List.Sublist.append (List.Sublist.refl _) List.filter_sublist
  have hperm : m.Perm (l.take n ++ rest) := by
    refine (List.perm_ext_iff_of_nodup hm (hl.sublist hsublist)).mpr fun a => ?_
    constructor
    · intro ha
      have hal : a ∈ l.take n ++ l.drop n := by rw [List.take_append_drop]; exact hsub ha
      rcases List.mem_append.mp hal with h | h
      · exact List.mem_append_left _ h
      · exact List.mem_append_right _ (List.mem_filter.mpr ⟨h, by simpa using ha⟩)
    · intro ha
      rcases List.mem_append.mp ha with h | h
      · exact htop h
      · simpa using (List.mem_filter.mp h).2
  have hsort : orderBy key m = l.take n ++ rest := by
    refine eq_orderBy (hs.sublist hsublist) ?_ hperm
    exact fun a ha b hb => hk a (hsublist.subset ha) b (hsublist.subset hb)
  rw [orderLimit, hsort]
  by_cases hn : n ≤ l.length
  · rw [List.take_append_of_le_length (by simp [hn]), List.take_take, min_self]
  · have hlen : l.length ≤ n := Nat.le_of_not_le hn
    have hrest : rest = [] := by simp [rest, List.drop_eq_nil_of_le hlen]
    rw [hrest, List.append_nil, List.take_take, min_self]

end Sql
