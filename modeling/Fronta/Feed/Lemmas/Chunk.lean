import Fronta.Feed.Chunk
import Mathlib.Data.List.Nodup

/-!
# A chunk projects what its marker stops to await
-/

namespace Fronta.Feed

open Sql

variable {tasks : Table Row} {types : Option (List Name)} {m : Marker} {st : State}
  {after i : TaskId} {limit : ℕ} {t : Row} {since : Option Time}

theorem lookup_fresh {states : List State} (st : State) :
    (Marker.fresh since states).pending.lookup st = if st ∈ states then some 0 else none := by
  rw [Marker.fresh, AList.lookup_to_alist]
  induction states with
  | nil => simp
  | cons s states ih =>
      rw [List.map_cons]
      by_cases h : st = s
      · subst h; simp
      · rw [List.dlookup_cons_ne _ _ h, ih]
        simp [h]

theorem awaits_fresh {states : List State} (hi : 0 < i) :
    awaits (some (Marker.fresh since states)) st i = decide (st ∈ states) := by
  simp only [awaits, Option.any_some, lookup_fresh]
  by_cases h : st ∈ states <;> simp [h, hi]

theorem first_lookup (h : m.first = some (st, after)) : m.pending.lookup st = some after := by
  obtain ⟨st', -, hm⟩ := Option.bind_eq_some_iff.mp h
  obtain ⟨a, ha, he⟩ := Option.map_eq_some_iff.mp hm
  obtain ⟨rfl, rfl⟩ := Prod.mk.inj he
  exact ha

theorem eq_empty_of_keys {pending : AList fun _ : State => TaskId} (h : pending.keys = []) :
    pending = ∅ :=
  AList.ext (by simpa [AList.keys, List.keys] using h)

theorem first_eq_none (h : m.first = none) : m.pending = ∅ := by
  rcases hk : m.pending.keys.argmin State.value with _ | st
  · exact eq_empty_of_keys (List.argmin_eq_none.mp hk)
  · have hmem := List.argmin_mem hk
    obtain ⟨after, ha⟩ := Option.isSome_iff_exists.mp (AList.lookup_isSome.mpr
      (AList.mem_keys.mpr hmem))
    simp [Marker.first, hk, ha] at h

theorem mem_projected_all :
    (i, t) ∈ tasks.entries.filter (fun x =>
        x.2.state = st && after < x.1 && listed types x.2 && finishedSince since x.2) ↔
      tasks.get i = some t ∧ t.state = st ∧ after < i ∧ listed types t = true ∧
        finishedSince since t = true := by
  simp [List.mem_filter, Table.mem_entries, and_assoc]

theorem projected_sorted :
    (projected tasks types st after since limit).Pairwise fun x y => x.1 < y.1 :=
  (tasks.entries_sorted.filter _).sublist (List.take_sublist _ _)

theorem finishedSince_sinceOf (h : t.state = st) :
    finishedSince (m.sinceOf st) t = inWindow m.since t := by
  subst h
  cases hs : t.state <;> simp [Marker.sinceOf, inWindow, State.terminal, hs, finishedSince]

theorem le_foldl_max {l : List ℕ} {a b : ℕ} (h : a ∈ l ∨ a ≤ b) : a ≤ l.foldl max b := by
  induction l generalizing b with
  | nil => simpa using h
  | cons c l ih =>
      refine ih ?_
      rcases h with h | h
      · rcases List.mem_cons.mp h with rfl | h
        · exact Or.inr (le_max_right _ _)
        · exact Or.inl h
      · exact Or.inr (le_max_of_le_left h)

theorem foldl_max_mem {l : List ℕ} {b : ℕ} : l.foldl max b ∈ l ∨ l.foldl max b = b := by
  induction l generalizing b with
  | nil => exact Or.inr rfl
  | cons c l ih =>
      rcases ih (b := max b c) with h | h
      · exact Or.inl (List.mem_cons_of_mem _ h)
      · rcases max_choice b c with hm | hm
        · exact Or.inr (h.trans hm)
        · exact Or.inl (by rw [List.foldl_cons, h, hm]; exact List.mem_cons_self)

/-- The marker after a chunk awaits the other states as before, and of the chunk's state the rows after
the last one, if the chunk was full. -/
theorem awaits_advance {rows : List (TaskId × Row)} {st' : State} :
    awaits (m.advance st rows limit) st' i =
      if st' = st then decide (limit ≤ rows.length) && (rows.map Prod.fst).foldl max 0 < i
      else awaits (some m) st' i := by
  have hpending : ∀ pending : AList fun _ : State => TaskId,
      awaits (if pending.keys = [] then none else some { m with pending := pending }) st' i =
        (pending.lookup st').any fun after => after < i := by
    intro pending
    split
    · rename_i he; simp [awaits, eq_empty_of_keys he]
    · rfl
  rw [Marker.advance, hpending]
  by_cases hlen : rows.length < limit
  · rw [if_pos hlen]
    by_cases h : st' = st
    · subst h; simp [AList.lookup_erase, Nat.not_le.mpr hlen]
    · rw [AList.lookup_erase_ne h, if_neg h]; rfl
  · rw [if_neg hlen]
    by_cases h : st' = st
    · subst h; simp [AList.lookup_insert, Nat.not_lt.mp hlen]
    · rw [AList.lookup_insert_ne h, if_neg h]; rfl

/-- A chunk projects the matching rows that its marker awaits and that the next one does not. -/
theorem mem_chunk : (i, t) ∈ (chunk tasks types m limit).1 ↔
    tasks.get i = some t ∧ listed types t = true ∧ inWindow m.since t = true ∧
      awaits (some m) t.state i = true ∧
      awaits (chunk tasks types m limit).2 t.state i = false := by
  unfold chunk
  cases hf : m.first with
  | none =>
      have := first_eq_none hf
      simp [awaits, this]
  | some x =>
      obtain ⟨st, after⟩ := x
      have hlook := first_lookup hf
      dsimp only
      let all := tasks.entries.filter fun x =>
        x.2.state = st && after < x.1 && listed types x.2 && finishedSince (m.sinceOf st) x.2
      have hrows : projected tasks types st after (m.sinceOf st) limit = all.take limit := rfl
      have hall : (i, t) ∈ all ↔ tasks.get i = some t ∧ t.state = st ∧ after < i ∧
          listed types t = true ∧ inWindow m.since t = true := by
        rw [mem_projected_all]
        constructor
        · rintro ⟨h₁, h₂, h₃, h₄, h₅⟩; exact ⟨h₁, h₂, h₃, h₄, finishedSince_sinceOf h₂ ▸ h₅⟩
        · rintro ⟨h₁, h₂, h₃, h₄, h₅⟩; exact ⟨h₁, h₂, h₃, h₄, (finishedSince_sinceOf h₂).symm ▸ h₅⟩
      rw [awaits_advance, hrows]
      constructor
      · intro hm
        obtain ⟨h₁, h₂, h₃, h₄, h₅⟩ := hall.mp (List.mem_of_mem_take hm)
        refine ⟨h₁, h₄, h₅, ?_, ?_⟩
        · rw [awaits, Option.any_some, h₂, hlook, Option.any_some]
          exact decide_eq_true h₃
        rw [if_pos h₂, Bool.and_eq_false_iff, decide_eq_false_iff_not, decide_eq_false_iff_not]
        exact Or.inr (Nat.not_lt.mpr (le_foldl_max (Or.inl (List.mem_map_of_mem hm))))
      · rintro ⟨h₁, h₄, h₅, ha, hn⟩
        by_cases h₂ : t.state = st
        · rw [awaits, Option.any_some, h₂, hlook, Option.any_some] at ha
          have h₃ : after < i := of_decide_eq_true ha
          have hmem := hall.mpr ⟨h₁, h₂, h₃, h₄, h₅⟩
          rw [if_pos h₂, Bool.and_eq_false_iff, decide_eq_false_iff_not,
            decide_eq_false_iff_not] at hn
          rw [← List.take_append_drop limit all] at hmem
          rcases List.mem_append.mp hmem with hm | hm
          · exact hm
          · -- a row beyond a full chunk has an id above its cursor
            exfalso
            have hlong : limit < all.length := by
              by_contra hle
              rw [List.drop_eq_nil_of_le (Nat.not_lt.mp hle)] at hm
              cases hm
            have hfull : limit ≤ (all.take limit).length :=
              (List.length_take_of_le hlong.le).ge
            rcases hn with hn | hn
            · exact hn hfull
            · refine hn ?_
              have hsorted : all.Pairwise fun x y => x.1 < y.1 := tasks.entries_sorted.filter _
              rw [← List.take_append_drop limit all, List.pairwise_append] at hsorted
              rcases foldl_max_mem (l := (all.take limit).map Prod.fst) (b := 0) with h | h
              · obtain ⟨x, hx, he⟩ := List.mem_map.mp h
                rw [← he]
                exact hsorted.2.2 x hx _ hm
              · rw [h]; exact Nat.zero_lt_of_lt h₃
        · rw [if_neg h₂] at hn
          rw [hn] at ha; cases ha

theorem chunk_nodup : ((chunk tasks types m limit).1.map Prod.fst).Nodup := by
  unfold chunk
  cases hf : m.first with
  | none => exact List.nodup_nil
  | some x =>
      rw [List.Nodup, List.pairwise_map]
      exact projected_sorted.imp fun h => Nat.ne_of_lt h

theorem since_chunk {m' : Marker} (h : (chunk tasks types m limit).2 = some m') :
    m'.since = m.since := by
  unfold chunk at h
  cases hf : m.first with
  | none => simp [hf] at h
  | some x =>
      simp only [hf, Marker.advance] at h
      rw [← Option.some.inj (Option.ite_none_left_eq_some.mp h).2]

theorem awaits_of_chunk (hl : 1 ≤ limit)
    (h : awaits (chunk tasks types m limit).2 st i = true) : awaits (some m) st i = true := by
  unfold chunk at h
  cases hf : m.first with
  | none => simp [hf, awaits] at h
  | some x =>
      obtain ⟨st', after⟩ := x
      simp only [hf] at h
      rw [awaits_advance] at h
      split at h
      · rename_i he
        subst he
        simp only [Bool.and_eq_true, decide_eq_true_eq] at h
        obtain ⟨hlen, hlt⟩ := h
        have hlook := first_lookup hf
        -- the cursor only moves up to a projected row
        obtain ⟨x, hx⟩ := List.exists_mem_of_length_pos (Nat.lt_of_lt_of_le hl hlen)
        have hafter := (mem_projected_all.mp (List.mem_of_mem_take hx)).2.2.1
        have hle := le_foldl_max (b := 0) (Or.inl (List.mem_map_of_mem (f := Prod.fst) hx))
        rw [awaits, Option.any_some, hlook, Option.any_some]
        exact decide_eq_true ((Nat.lt_of_lt_of_le hafter hle).trans hlt)
      · exact h

end Fronta.Feed
