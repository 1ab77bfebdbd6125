import Fronta.Listing.Lemmas.Walk

/-!
# A walk over the pages

Cursors descend, so a walk ends, and what stays in the tables is behind the cursor or before it.
-/

namespace Fronta.Listing

open Runs Sql

variable {settings : Settings} {flt : TaskFilter} {db : Db} {s s' : Sys} {actions : List Action}

/-- A walk that has ended reads no page. -/
theorem pages_of_ended (h : run (step settings flt) s actions = some s') (he : s.place = .ended) :
    actions.countP Action.isPage = 0 := by
  induction actions generalizing s with
  | nil => rfl
  | cons action actions ih =>
      obtain ⟨t, ht, hrest⟩ := run_cons.mp h
      cases action with
      | commit db =>
          cases ht
          exact ih hrest he
      | page limit =>
          obtain ⟨before, -, hplace, -⟩ := page_step ht
          rw [he] at hplace
          cases hplace

/-- At a cursor `n` a walk reads at most `n` more pages. -/
theorem pages_le {n : ℤ} (hn : 1 ≤ n) (h : run (step settings flt) s actions = some s')
    (hw : Within n s.place) : (actions.countP Action.isPage : ℤ) ≤ n := by
  induction actions generalizing s n with
  | nil => exact le_trans Int.one_nonneg hn
  | cons action actions ih =>
      obtain ⟨t, ht, hrest⟩ := run_cons.mp h
      cases action with
      | commit db =>
          cases ht
          exact ih hn hrest hw
      | page limit =>
          have hcount : (Action.page limit :: actions).countP Action.isPage =
              actions.countP Action.isPage + 1 := List.countP_cons_of_pos rfl
          rw [hcount]
          rcases hw.page ht with ⟨hpos, hw⟩ | he
          · have := ih hpos hrest hw
            omega
          · rw [pages_of_ended hrest he]
            omega

/-- Ids descend over the whole walk, so no task is listed twice. A walk that has ended has listed every task
once that satisfied the filters before each step of the walk. At a cursor `c` the walk reads at most `c` more
pages, and a walk that has not ended can read one. -/
theorem pagination (h : run (step settings flt) (init db) actions = some s) :
    (s.listed.map TaskSummary.id).Pairwise (· > ·) ∧
    (s.listed.map TaskSummary.id).Nodup ∧
    (s.place = .ended → ∀ i,
      Along (step settings flt) (fun t _ => t.place = .ended ∨ t.Lists flt i) (init db) actions →
        (s.listed.map TaskSummary.id).count i = 1) ∧
    (∀ c, s.place = .reading (some c) → ∀ later s', run (step settings flt) s later = some s' →
      (later.countP Action.isPage : ℤ) ≤ c) ∧
    (s.place ≠ .ended → ∀ limit, ∃ s', step settings flt s (.page limit) = some s') := by
  have hi : Inv s :=
    invariant (C := fun _ _ => True) (fun _ _ _ hi _ hs => hi.step hs) inv_init (Along.trivial _ _) h
  have hnodup : (s.listed.map TaskSummary.id).Nodup := hi.sorted.imp fun hlt => Nat.ne_of_gt hlt
  refine ⟨hi.sorted, hnodup, fun he i hl => ?_, fun c hc later s' hr => ?_, fun hne limit => ?_⟩
  · have hstart : Covers i (init db) := Or.inr fun _ hb => by cases hb
    have hcover : Covers i s := invariant (fun _ _ _ hc hl hs => Covers.step hc hl hs) hstart hl h
    rw [Covers, he] at hcover
    exact List.count_eq_one_of_mem hnodup hcover
  · exact pages_le (hi.positive c hc) hr (by rw [hc]; exact ⟨c, rfl, le_refl c⟩)
  · cases hplace : s.place with
    | reading before =>
        simp only [step, hplace]
        exact ⟨_, rfl⟩
    | ended => exact absurd hplace hne

section Runs

/-- A task with the default policy. -/
def task : NewTask := { type := "t", inputJson := "{}", policy := default }

def three : Db := .execAll .init (List.replicate 3 (.enqueue 0 task))

def purged : Db := three.execAll [.requestCancel 1 3, .purgeTasks 9 5 1 fun _ => false]

/-- Two full pages and an empty one. The row under the cursor goes after the first page, a task comes after the
second one. -/
theorem pagination_moved :
    let actions : List Action :=
      [.page 1, .commit purged, .page 500, .commit (purged.exec (.enqueue 9 task)), .page 0]
    ∃ s, run (step ⟨2, by decide⟩ { type := some "t" }) (init three) actions = some s ∧
      s.listed.map TaskSummary.id = [3, 2, 1] ∧ s.place = .ended ∧
      (s.listed.map TaskSummary.id).count 1 = 1 := by
  intro actions
  have hrun : (run (step ⟨2, by decide⟩ { type := some "t" }) (init three) actions).any (fun s =>
      s.listed.map TaskSummary.id = [3, 2, 1] ∧ s.place = .ended) = true := by decide +kernel
  obtain ⟨s, hs, hp⟩ := Option.any_eq_true _ _ |>.mp hrun
  have hp := of_decide_eq_true hp
  exact ⟨s, hs, hp.1, hp.2, (pagination hs).2.2.1 hp.2 1 (by decide +kernel)⟩

end Runs

end Fronta.Listing
