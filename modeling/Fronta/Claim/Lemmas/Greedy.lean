import Fronta.Claim.Greedy

/-!
# Waiting rows and the walk over them
-/

namespace Fronta.Claim

open Sql

namespace View

variable {w : View} {types : List Name} {cap : ℕ} {admitted more : List Candidate}
  {c : Candidate} {cs : List Candidate}

/-! ## The waiting rows -/

/-- The candidates among the rows with `p`, in the order of their ids. -/
theorem mem_candidates {p : Row → Bool} {q : TaskId → Bool} :
    c ∈ w.tasks.entries.filterMap (fun x =>
        if p x.2 ∧ q x.1 then some (w.candidate x.1 x.2) else none) ↔
      ∃ t, w.tasks.get c.id = some t ∧ p t = true ∧ q c.id = true ∧ c = w.candidate c.id t := by
  simp only [List.mem_filterMap, Prod.exists, Table.mem_entries, Option.ite_none_right_eq_some,
    Option.some.injEq]
  constructor
  · rintro ⟨i, t, ht, ⟨hp, hq⟩, rfl⟩; exact ⟨t, ht, hp, hq, rfl⟩
  · rintro ⟨t, ht, hp, hq, hc⟩; exact ⟨c.id, t, ht, ⟨hp, hq⟩, hc.symm⟩

theorem candidates_nodup {p : Row → Bool} {q : TaskId → Bool} :
    ((w.tasks.entries.filterMap fun x =>
      if p x.2 ∧ q x.1 then some (w.candidate x.1 x.2) else none).map Candidate.id).Nodup := by
  rw [List.Nodup, List.pairwise_map]
  refine List.Pairwise.filterMap _ ?_ w.tasks.entries_sorted
  intro x y hxy a ha b hb
  simp only [Option.ite_none_right_eq_some, Option.some.injEq] at ha hb
  obtain ⟨-, rfl⟩ := ha
  obtain ⟨-, rfl⟩ := hb
  exact Nat.ne_of_lt hxy

theorem mem_waiting : c ∈ w.waiting types ↔
    ∃ t, w.tasks.get c.id = some t ∧ w.waits types t = true ∧ c = w.candidate c.id t := by
  rw [waiting, mem_orderBy]
  have := mem_candidates (w := w) (p := w.waits types) (q := fun _ => true) (c := c)
  simpa using this

theorem waiting_nodup : ((w.waiting types).map Candidate.id).Nodup := by
  have := candidates_nodup (w := w) (p := w.waits types) (q := fun _ => true)
  simp only [and_true] at this
  exact (((perm_orderBy _ _).map Candidate.id).nodup_iff).mpr this

theorem waiting_sorted : (w.waiting types).Pairwise fun a b => a.order ≤ b.order :=
  orderBy_sorted _ _

theorem length_waiting : (w.waiting types).length ≤ w.tasks.next := by
  rw [waiting, (perm_orderBy _ _).length_eq]
  refine (List.length_filterMap_le _ _).trans ((List.length_filterMap_le _ _).trans ?_)
  rw [List.length_range]

theorem type_of_waiting (h : c ∈ w.waiting types) :
    types.contains c.type = true ∧ ∃ ty, w.catalog c.type = some ty ∧ ty.paused = false := by
  obtain ⟨t, -, hw, hc⟩ := mem_waiting.mp h
  simp only [waits, Bool.and_eq_true, Option.any_eq_true] at hw
  obtain ⟨⟨-, ht⟩, ty, hty, hp⟩ := hw
  rw [hc]
  exact ⟨ht, ty, hty, by simpa using hp⟩

/-! ## The walk -/

theorem blocked_append (h : w.blocked admitted c = true) :
    w.blocked (admitted ++ more) c = true := by
  simp only [blocked, typeFull, keyFull, Bool.or_eq_true, Option.any_eq_true, decide_eq_true_eq,
    List.filter_append, List.length_append] at h ⊢
  rcases h with ⟨ty, hty, n, hn, h⟩ | ⟨ty, hty, n, hn, key, hk, h⟩
  · exact Or.inl ⟨ty, hty, n, hn, by omega⟩
  · exact Or.inr ⟨ty, hty, n, hn, key, hk, by omega⟩

/-- The walk passes over blocked rows, so leaving some of them out changes nothing. -/
theorem greedy_filter {p : Candidate → Bool}
    (h : ∀ c ∈ cs, p c = false → w.blocked admitted c = true) :
    w.greedy cap admitted (cs.filter p) = w.greedy cap admitted cs := by
  induction cs generalizing admitted with
  | nil => rfl
  | cons c cs ih =>
      have hrest := fun d (hd : d ∈ cs) => h d (List.mem_cons_of_mem _ hd)
      cases hp : p c with
      | false =>
          rw [List.filter_cons_of_neg (by simp [hp]), greedy, if_pos (h c List.mem_cons_self hp)]
          exact ih hrest
      | true =>
          rw [List.filter_cons_of_pos hp, greedy, greedy, ih hrest,
            ih fun d hd hdp => blocked_append (hrest d hd hdp)]

theorem greedy_sublist (w : View) (cap : ℕ) (admitted cs : List Candidate) :
    ∃ l, w.greedy cap admitted cs = admitted ++ l ∧ l.Sublist cs := by
  induction cs generalizing admitted with
  | nil => exact ⟨[], by simp [greedy], List.Sublist.refl _⟩
  | cons c cs ih =>
      simp only [greedy]
      split
      · obtain ⟨l, hl, hs⟩ := ih admitted
        exact ⟨l, hl, hs.cons c⟩
      · split
        · exact ⟨[], by simp, List.nil_sublist _⟩
        · split
          · exact ⟨[c], rfl, by simp⟩
          · obtain ⟨l, hl, hs⟩ := ih (admitted ++ [c])
            exact ⟨c :: l, by simp [hl], hs.cons_cons c⟩

end View

end Fronta.Claim
