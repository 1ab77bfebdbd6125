import Fronta.Listing.System

/-!
# One page and the walk

A page has the newest rows under its cursor. One that is full leaves the rest to the next page.
-/

namespace Fronta.Listing

open Sql

variable {settings : Settings} {db : Db} {flt : TaskFilter} {s s' : Sys} {action : Action} {i : TaskId}

/-! ## Pages -/

/-- The rows that a filter admits. -/
def rows (db : Db) (flt : TaskFilter) : List (TaskId × Row) :=
  db.tasks.entries.filter fun x => flt.selects x.2 && flt.before.all ((x.1 : ℤ) < ·)

theorem mem_rows {x : TaskId × Row} : x ∈ rows db flt ↔
    db.tasks.get x.1 = some x.2 ∧ flt.selects x.2 = true ∧ ∀ b, flt.before = some b → (x.1 : ℤ) < b := by
  simp [rows, ← Table.mem_entries, Option.all_eq_true]

theorem rows_ids_nodup : ((rows db flt).map Prod.fst).Nodup :=
  db.tasks.entries_nodup.sublist (List.filter_sublist.map Prod.fst)

theorem mem_listTasks {x : TaskSummary} (hx : x ∈ db.listTasks flt) :
    1 ≤ x.id ∧ ∀ b, flt.before = some b → (x.id : ℤ) < b := by
  obtain ⟨y, hy, rfl⟩ := List.mem_map.mp hx
  obtain ⟨hget, -, hb⟩ := mem_rows.mp (mem_of_mem_orderLimit hy)
  exact ⟨Table.pos_of_get hget, hb⟩

theorem listTasks_sorted : ((db.listTasks flt).map TaskSummary.id).Pairwise (· > ·) := by
  have hmap : (db.listTasks flt).map TaskSummary.id =
      (orderLimit (fun x : TaskId × Row => -(x.1 : ℤ)) flt.limit.toNat (rows db flt)).map Prod.fst := by
    rw [Db.listTasks, List.map_map]
    rfl
  have hnodup : ((orderLimit (fun x : TaskId × Row => -(x.1 : ℤ)) flt.limit.toNat (rows db flt)).map
      Prod.fst).Nodup := by
    refine List.Nodup.map_on (fun x hx y hy he => ?_) (nodup_orderLimit (List.Nodup.of_map _ rows_ids_nodup))
    exact List.inj_on_of_nodup_map rows_ids_nodup (mem_of_mem_orderLimit hx) (mem_of_mem_orderLimit hy) he
  rw [hmap, List.pairwise_map]
  rw [List.Nodup, List.pairwise_map] at hnodup
  refine (orderLimit_sorted.and hnodup).imp fun {x y} hxy => ?_
  obtain ⟨hle, hne⟩ := hxy
  exact lt_of_le_of_ne (Int.ofNat_le.mp (Int.neg_le_neg_iff.mp hle)) (Ne.symm hne)

/-- A row that a filter admits is listed, or as many later ones are as the limit allows. -/
theorem listTasks_complete (hi : ∃ t, db.tasks.get i = some t ∧ flt.selects t = true)
    (hb : ∀ b, flt.before = some b → (i : ℤ) < b) :
    i ∈ (db.listTasks flt).map TaskSummary.id ∨
      (db.listTasks flt).length = flt.limit.toNat ∧ ∀ x ∈ db.listTasks flt, i < x.id := by
  obtain ⟨t, ht, hs⟩ := hi
  have hrow : (i, t) ∈ rows db flt := mem_rows.mpr ⟨ht, hs, hb⟩
  rcases @mem_orderLimit_or_full _ _ _ (fun x : TaskId × Row => -(x.1 : ℤ)) _ flt.limit.toNat _ hrow with
    hm | ⟨hlen, hle⟩
  · exact Or.inl (List.mem_map.mpr ⟨_, List.mem_map_of_mem hm, rfl⟩)
  · by_cases hm : i ∈ (db.listTasks flt).map TaskSummary.id
    · exact Or.inl hm
    · refine Or.inr ⟨by rw [Db.listTasks, List.length_map]; exact hlen, fun x hx => ?_⟩
      obtain ⟨y, hy, rfl⟩ := List.mem_map.mp hx
      have hne : i ≠ y.1 := fun he =>
        hm (List.mem_map.mpr ⟨_, List.mem_map_of_mem hy, he.symm⟩)
      exact lt_of_le_of_ne (Int.ofNat_le.mp (Int.neg_le_neg_iff.mp (hle y hy))) hne

/-- What a page brings after the rows that were read before. -/
theorem next_spec {id : TaskId} (h : (listTasks settings db flt).next = some id) :
    (1 ≤ id ∧ ∀ b, flt.before = some b → (id : ℤ) < b) ∧
      ∀ x ∈ (listTasks settings db flt).items, id ≤ x.id := by
  obtain ⟨-, h⟩ := Option.ite_none_right_eq_some.mp h
  obtain ⟨last, hlast, rfl⟩ := Option.map_eq_some_iff.mp h
  generalize hflt : { flt with limit := min (max flt.limit 1) settings.listPageMax } = flt' at hlast
  have hbefore : flt'.before = flt.before := by rw [← hflt]
  have hsorted := @listTasks_sorted db flt'
  have hspec := mem_listTasks (List.mem_of_getLast? hlast)
  rw [hbefore] at hspec
  refine ⟨hspec, fun x hx => ?_⟩
  obtain ⟨init, hinit⟩ := List.getLast?_eq_some_iff.mp hlast
  have hx : x ∈ db.listTasks flt' := hflt ▸ hx
  rw [hinit] at hx
  rw [hinit, List.map_append, List.pairwise_append] at hsorted
  rcases List.mem_append.mp hx with hx | hx
  · exact Nat.le_of_lt (hsorted.2.2 x.id (List.mem_map_of_mem hx) last.id List.mem_cons_self)
  · rw [List.mem_singleton.mp hx]

/-- A page lists a row or leaves it to the next one. -/
theorem page_complete (hi : ∃ t, db.tasks.get i = some t ∧ flt.selects t = true)
    (hb : ∀ b, flt.before = some b → (i : ℤ) < b) :
    i ∈ (listTasks settings db flt).items.map TaskSummary.id ∨
      ∃ id, (listTasks settings db flt).next = some id ∧ i < id := by
  have hmax := settings.listPageMax_ge
  generalize hlimit : min (max flt.limit 1) settings.listPageMax = limit
  have hpos : 1 ≤ limit := by omega
  rcases @listTasks_complete db { flt with limit := limit } i hi hb with hm | ⟨hlen, hlt⟩
  · left
    simpa only [listTasks, hlimit] using hm
  · right
    have hfull : ((db.listTasks { flt with limit := limit }).length : ℤ) = limit := by
      rw [hlen]
      exact Int.toNat_of_nonneg (Int.le_trans Int.one_nonneg hpos)
    have hne : db.listTasks { flt with limit := limit } ≠ [] := by
      intro hnil
      rw [hnil] at hfull
      have hzero : (0 : ℤ) = limit := hfull
      omega
    have hlast := List.getLast?_eq_some_getLast hne
    generalize (db.listTasks { flt with limit := limit }).getLast hne = last at hlast
    refine ⟨last.id, ?_, hlt last (List.mem_of_getLast? hlast)⟩
    simp [listTasks, hlimit, hfull, hlast]

/-! ## The walk -/

/-- A page of the walk. -/
theorem page_step {limit : ℤ} (h : step settings flt s (.page limit) = some s') :
    ∃ before page, s.place = .reading before ∧
      listTasks settings s.db { flt with before := before, limit := limit } = page ∧
      s'.listed = s.listed ++ page.items ∧
      s'.place = page.next.elim Place.ended fun id => Place.reading (some (id : ℤ)) := by
  cases hplace : s.place with
  | ended => simp only [step, hplace, reduceCtorEq] at h
  | reading before =>
      simp only [step, hplace, Option.some.injEq] at h
      refine ⟨before, listTasks settings s.db { flt with before := before, limit := limit }, rfl, rfl, ?_, ?_⟩
      · rw [← h]
      · rw [← h]

/-- Everything that was listed is behind the cursor. -/
structure Inv (s : Sys) : Prop where
  sorted : (s.listed.map TaskSummary.id).Pairwise (· > ·)
  behind : ∀ b, s.place = .reading b → ∀ x ∈ s.listed, ∃ c, b = some c ∧ c ≤ x.id
  positive : ∀ c, s.place = .reading (some c) → 1 ≤ c

theorem inv_init : Inv (init db) where
  sorted := List.Pairwise.nil
  behind _ _ _ hx := absurd hx List.not_mem_nil
  positive _ hc := by cases hc

theorem Inv.step (h : Inv s) (hs : step settings flt s action = some s') : Inv s' := by
  cases action with
  | commit db =>
      cases hs
      exact ⟨h.sorted, h.behind, h.positive⟩
  | page limit =>
      obtain ⟨before, page, hplace, hp, hlisted, hnext⟩ := page_step hs
      have hitems : ∀ x ∈ page.items, ∀ b, before = some b → (x.id : ℤ) < b := by
        rintro x hx
        rw [← hp] at hx
        exact (mem_listTasks hx).2
      refine ⟨?_, fun b hb x hx => ?_, fun c hc => ?_⟩
      · have hold : ∀ x ∈ s.listed, ∀ y ∈ page.items, x.id > y.id := by
          intro x hx y hy
          obtain ⟨c, rfl, hle⟩ := h.behind before hplace x hx
          exact Int.ofNat_lt.mp (Int.lt_of_lt_of_le (hitems y hy c rfl) hle)
        have hnew : (page.items.map TaskSummary.id).Pairwise (· > ·) := by
          rw [← hp]
          exact listTasks_sorted
        rw [hlisted, List.map_append, List.pairwise_append]
        refine ⟨h.sorted, hnew, fun j hj k hk => ?_⟩
        obtain ⟨x, hx, rfl⟩ := List.mem_map.mp hj
        obtain ⟨y, hy, rfl⟩ := List.mem_map.mp hk
        exact hold x hx y hy
      · rw [hlisted] at hx
        rw [hnext] at hb
        cases hn : page.next with
        | none => rw [hn] at hb; cases hb
        | some id =>
            rw [hn] at hb
            cases hb
            obtain ⟨⟨-, hlt⟩, hle⟩ := next_spec (hp ▸ hn)
            refine ⟨_, rfl, ?_⟩
            rcases List.mem_append.mp hx with hx | hx
            · obtain ⟨c, rfl, hc⟩ := h.behind before hplace x hx
              exact le_of_lt (lt_of_lt_of_le (hlt c rfl) hc)
            · exact Int.ofNat_le.mpr (hle x (hp ▸ hx))
      · rw [hnext] at hc
        cases hn : page.next with
        | none => rw [hn] at hc; cases hc
        | some id =>
            rw [hn] at hc
            cases hc
            exact Int.ofNat_le.mpr (next_spec (hp ▸ hn)).1.1

/-- Pages after which the walk ends, at the latest. -/
def Within (n : ℤ) : Place → Prop
  | .reading before => ∃ c, before = some c ∧ c ≤ n
  | .ended => True

theorem Within.page {limit n : ℤ} (h : Within n s.place)
    (hs : Listing.step settings flt s (.page limit) = some s') :
    1 ≤ n - 1 ∧ Within (n - 1) s'.place ∨ s'.place = .ended := by
  obtain ⟨before, page, hplace, hp, -, hnext⟩ := page_step hs
  rw [hplace] at h
  obtain ⟨c, rfl, hc⟩ := h
  rw [hnext]
  cases hn : page.next with
  | none => exact Or.inr rfl
  | some id =>
      obtain ⟨⟨hpos, hlt⟩, -⟩ := next_spec (hp ▸ hn)
      have hlt := hlt c rfl
      have hpos : (1 : ℤ) ≤ id := Int.ofNat_le.mpr hpos
      exact Or.inl ⟨by omega, id, rfl, by omega⟩

/-- The task has been listed, or the walk has yet to come to it. -/
def Covers (i : TaskId) (s : Sys) : Prop :=
  match s.place with
  | .reading before => i ∈ s.listed.map TaskSummary.id ∨ ∀ b, before = some b → (i : ℤ) < b
  | .ended => i ∈ s.listed.map TaskSummary.id

theorem Covers.step (h : Covers i s) (hl : s.place = .ended ∨ s.Lists flt i)
    (hs : Listing.step settings flt s action = some s') : Covers i s' := by
  cases action with
  | commit db =>
      cases hs
      exact h
  | page limit =>
      obtain ⟨before, page, hplace, hp, hlisted, hnext⟩ := page_step hs
      have hi : ∃ t, s.db.tasks.get i = some t ∧ flt.selects t = true :=
        Option.any_eq_true _ _ |>.mp (hl.resolve_left (by rw [hplace]; nofun))
      rw [Covers, hplace] at h
      have hcover : i ∈ (s.listed ++ page.items).map TaskSummary.id ∨
          ∃ id, page.next = some id ∧ i < id := by
        rw [List.map_append, List.mem_append]
        rcases h with h | h
        · exact Or.inl (Or.inl h)
        · rcases @page_complete settings s.db { flt with before := before, limit := limit } i hi h with hm | hn
          · exact Or.inl (Or.inr (hp ▸ hm))
          · exact Or.inr (hp ▸ hn)
      rw [Covers, hnext, hlisted]
      cases hn : page.next with
      | none =>
          rw [hn] at hcover
          exact hcover.resolve_right nofun
      | some id =>
          rw [hn] at hcover
          refine hcover.imp_right fun hlt b hb => ?_
          obtain ⟨id', he, hlt⟩ := hlt
          cases he
          cases hb
          exact Int.ofNat_lt.mpr hlt

end Fronta.Listing
