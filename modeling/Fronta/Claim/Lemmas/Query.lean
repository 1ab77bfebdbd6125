import Fronta.Claim.Lemmas.Greedy

/-!
# One round of the candidate query

Whichever path the query takes, it returns the first waiting rows that are not excluded yet.
-/

namespace Fronta.Claim

open Sql

namespace View

variable {w : View} {types : List Name} {skips : Skips} {count : ℕ} {c d : Candidate}

/-- Neither seen nor excluded by its type or its key. -/
def ready (w : View) (types : List Name) (skips : Skips) (c : Candidate) : Bool :=
  !skips.ids.contains c.id && (w.eligible types skips c.type).isSome && w.unsaturated types skips c

/-- The waiting rows that are ready. -/
def readyRows (w : View) (types : List Name) (skips : Skips) : List Candidate :=
  (w.waiting types).filter (w.ready types skips)

/-- A candidate with its type's `limited`. -/
def flag (w : View) (types : List Name) (skips : Skips) (c : Candidate) : Candidate × Bool :=
  (c, (w.eligible types skips c.type).getD false)

theorem eligible_isSome : (w.eligible types skips c.type).isSome = true ↔
    types.contains c.type = true ∧ ¬ skips.types.contains c.type = true ∧
      ∃ ty, w.catalog c.type = some ty ∧ ty.paused = false ∧
        ty.maxConcurrency.all (fun n => running w.tasks c.type < n) = true := by
  simp only [eligible, Option.isSome_iff_exists, Option.bind_eq_some_iff,
    Option.ite_none_right_eq_some, Option.some.injEq]
  constructor
  · rintro ⟨b, ty, hty, ⟨h₁, h₂, h₃, h₄⟩, -⟩; exact ⟨h₁, h₃, ty, hty, h₂, h₄⟩
  · rintro ⟨h₁, h₃, ty, hty, h₂, h₄⟩; exact ⟨_, ty, hty, ⟨h₁, h₂, h₃, h₄⟩, rfl⟩

theorem mem_queue_of_mem_chosen {x : Candidate × Bool} (h : x ∈ w.chosen types skips count) :
    x.1 ∈ w.queue skips := by
  have hready : ∀ y ∈ w.readyHead types skips count, y.1 ∈ w.queue skips := by
    intro y hy
    obtain ⟨c, hc, hb⟩ := List.mem_filterMap.mp hy
    obtain ⟨_, -, hi⟩ := Option.bind_eq_some_iff.mp hb
    obtain ⟨-, he⟩ := Option.ite_none_right_eq_some.mp hi
    rw [← Option.some.inj he]
    exact mem_of_mem_orderLimit hc
  have hseeks : ∀ y ∈ w.seeks types skips count, y.1 ∈ w.queue skips := by
    intro y hy
    obtain ⟨ty, -, hm⟩ := List.mem_flatMap.mp (mem_of_mem_orderLimit hy)
    obtain ⟨c, hc, rfl⟩ := List.mem_map.mp hm
    exact (List.mem_filter.mp (mem_of_mem_orderLimit hc)).1
  rcases List.mem_append.mp (mem_of_mem_orderLimit h) with hx | hx <;> split at hx
  · exact hready x hx
  · cases hx
  · exact hseeks x hx
  · cases hx

theorem row_of_mem_queue (h : c ∈ w.queue skips) :
    ∃ t, w.tasks.get c.id = some t ∧ c = w.candidate c.id t := by
  have := mem_candidates (w := w) (p := w.due)
    (q := fun i => !skips.ids.contains i && !w.busy i) (c := c)
  simp only [queue] at h
  obtain ⟨t, ht, -, -, hc⟩ := this.mp (by simpa using h)
  exact ⟨t, ht, hc⟩

/-! ## The queue and its ready rows -/

section

variable (hb : ∀ i, w.busy i = false)
include hb

theorem mem_queue : c ∈ w.queue skips ↔
    ∃ t, w.tasks.get c.id = some t ∧ w.due t = true ∧ skips.ids.contains c.id = false ∧
      c = w.candidate c.id t := by
  have := mem_candidates (w := w) (p := w.due) (q := fun i => !skips.ids.contains i) (c := c)
  simpa [queue, hb] using this

theorem queue_nodup : ((w.queue skips).map Candidate.id).Nodup := by
  have := candidates_nodup (w := w) (p := w.due) (q := fun i => !skips.ids.contains i)
  simpa [queue, hb] using this

theorem queue_separated (hc : c ∈ w.queue skips) (hd : d ∈ w.queue skips)
    (h : c.order = d.order) : c = d := by
  obtain ⟨t, ht, -, -, hct⟩ := (mem_queue hb).mp hc
  obtain ⟨u, hu, -, -, hdu⟩ := (mem_queue hb).mp hd
  simp only [Candidate.order, EmbeddingLike.apply_eq_iff_eq, Prod.mk.injEq] at h
  obtain ⟨-, -, hid⟩ := h
  rw [hid, hu, Option.some.injEq] at ht
  rw [hct, hdu, hid, ht]

/-- The ready rows are the queue's rows of an eligible type with an unsaturated key. -/
theorem mem_readyRows : c ∈ w.readyRows types skips ↔
    c ∈ w.queue skips ∧ (w.eligible types skips c.type).isSome = true ∧
      w.unsaturated types skips c = true := by
  rw [readyRows, List.mem_filter, mem_queue hb, mem_waiting]
  simp only [ready, Bool.and_eq_true, Bool.not_eq_true']
  constructor
  · rintro ⟨⟨t, ht, hw, hc⟩, ⟨hi, he⟩, hu⟩
    simp only [waits, Bool.and_eq_true] at hw
    exact ⟨⟨t, ht, hw.1.1, hi, hc⟩, he, hu⟩
  · rintro ⟨⟨t, ht, hd, hi, hc⟩, he, hu⟩
    obtain ⟨hty, -, ty, hcat, hp, -⟩ := eligible_isSome.mp he
    have htype : c.type = t.type := by rw [hc]; rfl
    refine ⟨⟨t, ht, ?_, hc⟩, ⟨hi, he⟩, hu⟩
    simp only [waits, Bool.and_eq_true, Option.any_eq_true]
    exact ⟨⟨hd, htype ▸ hty⟩, ty, htype ▸ hcat, by simp [hp]⟩

omit hb in
theorem readyRows_nodup : (w.readyRows types skips).Nodup :=
  (List.Nodup.of_map _ waiting_nodup).filter _

omit hb in
theorem readyRows_sorted (w : View) (types : List Name) (skips : Skips) :
    (w.readyRows types skips).Pairwise fun a b => a.order ≤ b.order := waiting_sorted.filter _

theorem readyRows_separated : ∀ a ∈ w.readyRows types skips, ∀ b ∈ w.readyRows types skips,
    a.order = b.order → a = b := fun _ ha _ hb' =>
  queue_separated hb ((mem_readyRows hb).mp ha).1 ((mem_readyRows hb).mp hb').1

/-- The ready rows among the sorted queue. -/
theorem filter_orderBy_queue :
    (orderBy Candidate.order (w.queue skips)).filter (fun c =>
      (w.eligible types skips c.type).isSome && w.unsaturated types skips c) =
      w.readyRows types skips := by
  rw [← eq_orderBy (readyRows_sorted w types skips)
    (readyRows_separated hb) (m := (w.queue skips).filter fun c =>
      (w.eligible types skips c.type).isSome && w.unsaturated types skips c)]
  · refine (eq_orderBy ((orderBy_sorted _ _).filter _) ?_ ((perm_orderBy _ _).symm.filter _)).symm
    intro a ha b hb' h
    exact queue_separated hb (mem_orderBy.mp (List.mem_filter.mp ha).1)
      (mem_orderBy.mp (List.mem_filter.mp hb').1) h
  · refine (List.perm_ext_iff_of_nodup ?_ readyRows_nodup).mpr fun a => ?_
    · exact (List.Nodup.of_map _ (queue_nodup hb)).filter _
    · rw [List.mem_filter, mem_readyRows hb, Bool.and_eq_true]

/-! ## The two paths -/

/-- A head of ready rows only is the head of the ready rows. -/
theorem take_readyRows (h : ∀ c ∈ w.head skips count, ((w.eligible types skips c.type).isSome &&
    w.unsaturated types skips c) = true) :
    (w.readyRows types skips).take count = w.head skips count := by
  rw [← filter_orderBy_queue hb]
  exact take_filter_of_all h

omit hb in
theorem readyHead_eq : w.readyHead types skips count =
    ((w.head skips count).filter fun c =>
      (w.eligible types skips c.type).isSome && w.unsaturated types skips c).map
        (w.flag types skips) := by
  rw [readyHead, ← List.filterMap_eq_map, ← List.filterMap_eq_filter, List.filterMap_filterMap]
  refine List.filterMap_congr fun c _ => ?_
  cases he : w.eligible types skips c.type <;>
    cases hu : w.unsaturated types skips c <;> simp [flag, Option.guard, he, hu]

omit hb in
theorem mem_eligibleTypes {name : Name} {limited : Bool} :
    (name, limited) ∈ w.eligibleTypes types skips ↔ w.eligible types skips name = some limited := by
  simp only [eligibleTypes, List.mem_filterMap, List.mem_dedup, Option.map_eq_some_iff,
    Prod.mk.injEq]
  constructor
  · rintro ⟨n, -, l, hl, rfl, rfl⟩; exact hl
  · intro h
    obtain ⟨ty, -, hty⟩ := Option.bind_eq_some_iff.mp h
    have hmem := (Option.ite_none_right_eq_some.mp hty).1.1
    exact ⟨name, by simpa using hmem, limited, h, rfl, rfl⟩

/-- The rows that the per-type seeks merge. -/
theorem mem_seek_rows {x : Candidate × Bool} :
    x ∈ (w.eligibleTypes types skips).flatMap (fun ty =>
        (w.seek types skips count ty.1).map fun c => (c, ty.2)) ↔
      w.eligible types skips x.1.type = some x.2 ∧
        x.1 ∈ ((w.readyRows types skips).filter fun c => c.type = x.1.type).take count := by
  have hseek : ∀ name limited, w.eligible types skips name = some limited →
      w.seek types skips count name =
        ((w.readyRows types skips).filter fun c => c.type = name).take count := by
    intro name limited he
    rw [seek, orderLimit, ← filter_orderBy_queue hb, List.filter_filter]
    congr 1
    rw [eq_orderBy ((orderBy_sorted Candidate.order (w.queue skips)).filter _) ?_
      ((perm_orderBy _ _).symm.filter _)]
    · refine List.filter_congr fun c _ => ?_
      by_cases hc : c.type = name
      · simp [hc, he]
      · simp [hc]
    · intro a ha b hb' h
      exact queue_separated hb (mem_orderBy.mp (List.mem_filter.mp ha).1)
        (mem_orderBy.mp (List.mem_filter.mp hb').1) h
  simp only [List.mem_flatMap, Prod.exists, mem_eligibleTypes, List.mem_map]
  constructor
  · rintro ⟨name, limited, he, c, hc, rfl⟩
    rw [hseek name limited he] at hc
    have htype : c.type = name := by
      simpa using (List.mem_filter.mp (List.mem_of_mem_take hc)).2
    subst htype
    exact ⟨he, hc⟩
  · rintro ⟨he, hc⟩
    exact ⟨x.1.type, x.2, he, x.1, by rw [hseek _ _ he]; exact hc, rfl⟩

theorem seek_rows_nodup :
    ((w.eligibleTypes types skips).flatMap fun ty =>
      (w.seek types skips count ty.1).map fun c => (c, ty.2)).Nodup := by
  have htypes : (w.eligibleTypes types skips).Pairwise fun x y => x.1 ≠ y.1 := by
    refine List.Pairwise.filterMap _ ?_ (List.nodup_dedup types)
    intro a b hab x hx y hy
    obtain ⟨_, _, rfl⟩ := Option.map_eq_some_iff.mp hx
    obtain ⟨_, _, rfl⟩ := Option.map_eq_some_iff.mp hy
    exact hab
  have hnd : ∀ name, (w.seek types skips count name).Nodup := fun name =>
    (nodup_orderBy ((List.Nodup.of_map _ (queue_nodup hb)).filter _)).sublist (List.take_sublist _ _)
  have htype : ∀ name, ∀ c ∈ w.seek types skips count name, c.type = name := by
    intro name c hc
    have := (List.mem_filter.mp (mem_of_mem_orderLimit hc)).2
    simp_all
  refine List.nodup_flatMap.mpr ⟨fun ty _ => ?_, htypes.imp fun {x y} hxy => ?_⟩
  · exact (hnd ty.1).map fun a b h => (Prod.mk.inj h).1
  · rw [Function.onFun_apply, List.disjoint_left]
    intro z hz hz'
    obtain ⟨c, hc, rfl⟩ := List.mem_map.mp hz
    obtain ⟨d, hd, he⟩ := List.mem_map.mp hz'
    have hcd : d = c := (Prod.mk.inj he).1
    exact hxy ((htype _ c hc).symm.trans (hcd ▸ htype _ d hd))

/-- Both paths of the query return the first ready rows, with their type's `limited`. -/
theorem chosen_eq (types : List Name) (skips : Skips) (count : ℕ) : w.chosen types skips count =
    ((w.readyRows types skips).take count).map (w.flag types skips) := by
  let l := (w.readyRows types skips).map (w.flag types skips)
  have hs : l.Pairwise fun a b => a.1.order ≤ b.1.order := List.pairwise_map.mpr (readyRows_sorted _ _ _)
  have hk : ∀ a ∈ l, ∀ b ∈ l, a.1.order = b.1.order → a = b := by
    intro a ha b hb' h
    obtain ⟨c, hc, rfl⟩ := List.mem_map.mp ha
    obtain ⟨d, hd, rfl⟩ := List.mem_map.mp hb'
    rw [readyRows_separated hb c hc d hd h]
  have hinj : Function.Injective (w.flag types skips) := fun a b h => (Prod.mk.inj h).1
  have hl : l.Nodup := readyRows_nodup.map hinj
  have htake : ∀ n, ((w.readyRows types skips).take n).map (w.flag types skips) = l.take n :=
    fun n => List.map_take
  -- A selection from the first rows, as the outer `ORDER BY … LIMIT` makes it, keeps them.
  have hagain : orderLimit (fun x : Candidate × Bool => x.1.order) count (l.take count) =
      l.take count :=
    orderLimit_eq_take hs hk hl (hl.sublist (List.take_sublist _ _)) (List.take_subset _ _)
      (List.Subset.refl _)
  rw [htake, chosen]
  by_cases hlen : (w.readyHead types skips count).length = (w.head skips count).length
  · have hall : ∀ c ∈ w.head skips count, ((w.eligible types skips c.type).isSome &&
        w.unsaturated types skips c) = true := by
      rw [readyHead_eq, List.length_map] at hlen
      exact List.length_filter_eq_length_iff.mp hlen
    rw [if_pos hlen, if_neg (by omega), List.append_nil, readyHead_eq,
      List.filter_eq_self.mpr hall, ← take_readyRows hb hall, htake]
    exact hagain
  · have hle : (w.readyHead types skips count).length ≤ (w.head skips count).length := by
      rw [readyHead_eq, List.length_map]; exact List.length_filter_le _ _
    rw [if_neg hlen, if_pos (by omega), List.nil_append]
    have hseeks : w.seeks types skips count = l.take count := by
      refine orderLimit_eq_take hs hk hl (seek_rows_nodup hb) ?_ ?_
      · intro x hx
        obtain ⟨he, hx⟩ := (mem_seek_rows hb).mp hx
        refine List.mem_map.mpr ⟨x.1, (List.mem_filter.mp (List.mem_of_mem_take hx)).1, ?_⟩
        simp [flag, he]
      · intro x hx
        rw [← htake] at hx
        obtain ⟨c, hc, rfl⟩ := List.mem_map.mp hx
        obtain ⟨-, he, -⟩ := (mem_readyRows hb).mp (List.mem_of_mem_take hc)
        obtain ⟨limited, he⟩ := Option.isSome_iff_exists.mp he
        exact (mem_seek_rows hb).mpr ⟨by simp [flag, he], mem_take_filter hc (by simp [flag])⟩
    rw [hseeks]
    exact hagain

end

end View

end Fronta.Claim
