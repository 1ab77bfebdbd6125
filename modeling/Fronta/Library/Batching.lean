import Mathlib.Data.List.Nodup

/-!
# Batches of distinct keys

The longest batch that the front of a queue gives: as many entries as there is room for, up to the first
one whose key the batch has already.
-/

namespace Batching

universe u v

variable {α : Type u} {κ : Type v} [DecidableEq κ] (key : α → κ) (limit : ℕ)

/-- Move entries to the batch while there is room and the next key is new. -/
def collect (ids : List κ) (batch : List α) : List α → List α × List α
  | [] => (batch, [])
  | x :: queue =>
      if batch.length < limit then
        if key x ∈ ids then (batch, x :: queue)
        else collect (key x :: ids) (batch ++ [x]) queue
      else (batch, x :: queue)

/-- No entry is lost, added or moved. -/
theorem collect_append (ids : List κ) (batch queue : List α) :
    (collect key limit ids batch queue).1 ++ (collect key limit ids batch queue).2 =
      batch ++ queue := by
  induction queue generalizing ids batch with
  | nil => rfl
  | cons x queue ih =>
      unfold collect
      split
      · split
        · rfl
        · rw [ih, List.append_assoc, List.singleton_append]
      · rfl

theorem collect_length (ids : List κ) (batch queue : List α) (h : batch.length ≤ limit) :
    (collect key limit ids batch queue).1.length ≤ limit := by
  induction queue generalizing ids batch with
  | nil => exact h
  | cons x queue ih =>
      unfold collect
      split
      · rename_i hl
        split
        · exact h
        · refine ih _ _ ?_
          rw [List.length_append, List.length_singleton]
          exact hl
      · exact h

theorem collect_nodup {ids : List κ} {batch : List α} (queue : List α) (h : (batch.map key).Nodup)
    (hi : ∀ x ∈ batch, key x ∈ ids) : ((collect key limit ids batch queue).1.map key).Nodup := by
  induction queue generalizing ids batch with
  | nil => exact h
  | cons x queue ih =>
      unfold collect
      split
      · split
        · exact h
        · rename_i hx
          refine ih ?_ fun y hy => ?_
          · rw [List.map_append, List.map_singleton, List.nodup_append]
            refine ⟨h, List.nodup_singleton _, fun k hk k' hk' he => hx ?_⟩
            obtain ⟨y, hy, rfl⟩ := List.mem_map.mp hk
            rw [← List.mem_singleton.mp hk', ← he]
            exact hi y hy
          · rcases List.mem_append.mp hy with hy | hy
            · exact List.mem_cons_of_mem _ (hi y hy)
            · rw [List.mem_singleton.mp hy]
              exact List.mem_cons_self
      · exact h

theorem collect_subset (ids : List κ) (batch queue : List α) :
    batch ⊆ (collect key limit ids batch queue).1 := by
  induction queue generalizing ids batch with
  | nil => exact fun x hx => hx
  | cons x queue ih =>
      unfold collect
      split
      · split
        · exact fun y hy => hy
        · exact fun y hy => ih _ _ (List.mem_append_left _ hy)
      · exact fun y hy => hy

variable {limit}

/-- A batch takes the first entry of its queue. -/
theorem mem_collect (x : α) (queue : List α) (h : 0 < limit) :
    x ∈ (collect key limit [] [] (x :: queue)).1 := by
  unfold collect
  rw [if_pos (by simpa using h), if_neg List.not_mem_nil]
  exact collect_subset key limit _ _ _ (List.mem_append_right _ List.mem_cons_self)

variable {key}

/-- The batch that a queue gives. -/
theorem collect_spec {queue batch rest : List α} (h : 0 < limit) (hq : queue ≠ [])
    (hc : collect key limit [] [] queue = (batch, rest)) :
    batch ++ rest = queue ∧ batch.length ≤ limit ∧ (batch.map key).Nodup ∧
      rest.length < queue.length := by
  have hp := collect_append key limit [] [] queue
  have hl := collect_length key limit [] [] queue (Nat.zero_le limit)
  have hn : ((collect key limit [] [] queue).1.map key).Nodup :=
    collect_nodup key limit queue List.nodup_nil nofun
  obtain ⟨x, xs, rfl⟩ := List.exists_cons_of_ne_nil hq
  have hx := List.length_pos_of_mem (mem_collect key x xs h)
  rw [hc] at hp hl hn hx
  have ha := congrArg List.length hp
  rw [List.length_append, List.nil_append] at ha
  exact ⟨hp, hl, hn, by dsimp only at ha hx; omega⟩

end Batching
