import Fronta.Startup.System
import Mathlib.Data.Fin.VecNotation
import Mathlib.Order.WithBot

/-!
# Startups that block each other

Two open publications never hold the same row. So a deadlock is a circle of lists that cross, and every such
circle is met by some run.
-/

namespace Fronta.Startup

open Runs Waits

variable {W N : Type} {definitions : W → List N} {s s' : Sys W}

/-! ## Held rows -/

/-- Nobody publishes more than they have, and nobody holds what another one holds. -/
structure Inv (definitions : W → List N) (s : Sys W) : Prop where
  bounded : ∀ w count, s w = .published count → count ≤ (definitions w).length
  apart : ∀ w w', w ≠ w' → (s.held definitions w).Disjoint (s.held definitions w')

theorem inv_init : Inv definitions (Sys.init : Sys W) where
  bounded w count h := by cases h; exact Nat.zero_le _
  apart w w' _ := by simp [Sys.held, Sys.init, List.Disjoint]

variable [DecidableEq W]

theorem held_update_of_ne {w w' : W} {p : Publication} (h : w' ≠ w) :
    Sys.held definitions (Function.update s w p) w' = s.held definitions w' := by
  simp [Sys.held, Function.update_of_ne h]

/-- The end of a transaction releases its rows. -/
theorem Inv.ended (h : Inv definitions s) (w : W) :
    Inv definitions (Function.update s w .ended) where
  bounded w' count hc := by
    by_cases hw : w' = w
    · subst hw
      simp at hc
    · rw [Function.update_of_ne hw] at hc
      exact h.bounded w' count hc
  apart w₁ w₂ hne := by
    by_cases h₁ : w₁ = w
    · simp [h₁, Sys.held, List.Disjoint]
    · by_cases h₂ : w₂ = w
      · simp [h₂, Sys.held, List.Disjoint]
      · rw [held_update_of_ne h₁, held_update_of_ne h₂]
        exact h.apart w₁ w₂ hne

theorem Inv.published (h : Inv definitions s) {w : W} {count : ℕ} (hw : s w = .published count)
    (hlt : count < (definitions w).length) (hfree : ∀ w', ¬s.Waiting definitions w w') :
    Inv definitions (Function.update s w (.published (count + 1))) where
  bounded w' count' hc := by
    by_cases he : w' = w
    · subst he
      simp only [Function.update_self, Publication.published.injEq] at hc
      exact hc ▸ hlt
    · rw [Function.update_of_ne he] at hc
      exact h.bounded w' count' hc
  apart := by
    have hheld : ∀ w' n, w' ≠ w →
        n ∈ Sys.held definitions (Function.update s w (.published (count + 1))) w →
        n ∉ s.held definitions w' := by
      intro w' n hne hn hn'
      simp only [Sys.held, Function.update_self, List.take_add_one, List.mem_append, Option.mem_toList] at hn
      rcases hn with hn | hn
      · exact h.apart w w' hne.symm (by simpa [Sys.held, hw] using hn) hn'
      · exact hfree w' ⟨hne.symm, n, by simpa [Sys.next, hw] using hn, hn'⟩
    intro w₁ w₂ hne n hn₁ hn₂
    by_cases h₁ : w₁ = w
    · subst h₁
      rw [held_update_of_ne hne.symm] at hn₂
      exact hheld w₂ n hne.symm hn₁ hn₂
    · rw [held_update_of_ne h₁] at hn₁
      by_cases h₂ : w₂ = w
      · subst h₂
        exact hheld w₁ n h₁ hn₂ hn₁
      · rw [held_update_of_ne h₂] at hn₂
        exact h.apart w₁ w₂ hne hn₁ hn₂

variable [DecidableEq N] [Fintype W]

theorem Inv.step (h : Inv definitions s) {action : Action W}
    (hs : Sys.step definitions s action = some s') : Inv definitions s' := by
  cases action with
  | publish w =>
      simp only [Sys.step] at hs
      split at hs
      · rename_i count hw
        obtain ⟨hg, hs⟩ := Option.ite_none_right_eq_some.mp hs
        cases hs
        exact h.published hw hg.1 hg.2
      · cases hs
  | commit w =>
      obtain ⟨-, hs⟩ := Option.ite_none_right_eq_some.mp hs
      cases hs
      exact h.ended w
  | abort w =>
      obtain ⟨-, hs⟩ := Option.ite_none_left_eq_some.mp hs
      cases hs
      exact h.ended w

/-! ## Lists that cross -/

/-- How many definitions an open transaction has published. -/
def countOf (s : Sys W) (w : W) : ℕ :=
  match s w with
  | .published count => count
  | .ended => 0

omit [DecidableEq W] [DecidableEq N] [Fintype W] in
theorem take_countOf (w : W) : (definitions w).take (countOf s w) = s.held definitions w := by
  unfold countOf Sys.held
  cases s w <;> simp

omit [DecidableEq W] [DecidableEq N] [Fintype W] in
/-- A deadlock shows lists that cross. -/
theorem Inv.crossed (h : Inv definitions s) (hd : Deadlock (s.Waiting definitions)) :
    Crossed definitions := by
  refine ⟨countOf s, fun w => ?_, fun w w' hne => ?_, hd.mono fun w w' hw => ?_⟩
  · unfold countOf
    split
    · exact h.bounded w _ ‹_›
    · exact Nat.zero_le _
  · rw [take_countOf, take_countOf]
    exact h.apart w w' hne
  · obtain ⟨hne, n, hn, hn'⟩ := hw
    refine ⟨hne, n, ?_, by rwa [take_countOf]⟩
    unfold Sys.next at hn
    unfold countOf
    cases hs : s w with
    | published count => simpa [hs] using hn
    | ended => simp [hs] at hn

section Circle

variable {count : W → ℕ} (hle : ∀ w, count w ≤ (definitions w).length)
  (hd : ∀ w w', w ≠ w' →
    ((definitions w).take (count w)).Disjoint ((definitions w').take (count w')))
include hle hd

/-- Within beginnings that have no common name no upsert waits. -/
theorem publish_step {k : W → ℕ} (hk : ∀ w, k w ≤ count w) {w : W} (hw : k w < count w) :
    Sys.step definitions (fun w => .published (k w)) (.publish w) =
      some fun w' => .published (Function.update k w (k w + 1) w') := by
  have hlt : k w < (definitions w).length := lt_of_lt_of_le hw (hle w)
  have hfree : ∀ w', ¬Sys.Waiting definitions (fun w => .published (k w)) w w' := by
    rintro w' ⟨hne, n, hn, hn'⟩
    simp only [Sys.next, Option.mem_def] at hn
    have hin : n ∈ (definitions w).take (count w) := by
      rw [List.getElem?_eq_getElem hlt, Option.some.injEq] at hn
      exact List.mem_take_iff_getElem.mpr ⟨k w, lt_min hw hlt, hn⟩
    exact hd w w' hne hin (List.take_subset_take_left _ (hk w') hn')
  simp only [Sys.step, if_pos (And.intro hlt hfree), Option.some.injEq]
  funext w'
  by_cases he : w' = w
  · subst he; simp
  · simp [Function.update_of_ne he]

theorem reachable_raise {k : W → ℕ} (hk : ∀ w, k w ≤ count w) (w : W)
    (hr : Reachable (Sys.step definitions) Sys.init fun w => .published (k w)) (n : ℕ)
    (hn : k w + n ≤ count w) : Reachable (Sys.step definitions) Sys.init
      fun w' => .published (Function.update k w (k w + n) w') := by
  induction n with
  | zero => simpa using hr
  | succ n ih =>
      have hk' : ∀ w', Function.update k w (k w + n) w' ≤ count w' := by
        intro w'
        by_cases he : w' = w
        · subst he
          rw [Function.update_self]
          exact (Nat.le_succ _).trans hn
        · rw [Function.update_of_ne he]
          exact hk w'
      have hs := publish_step hle hd hk' (w := w) (by rw [Function.update_self]; exact hn)
      simp only [Function.update_self, Function.update_idem] at hs
      exact (ih ((Nat.le_succ _).trans hn)).next hs

/-- Such beginnings can all be open at once. -/
theorem reachable_of_disjoint (ws : List W) : Reachable (Sys.step definitions) Sys.init
    fun w => .published (if w ∈ ws then count w else 0) := by
  induction ws with
  | nil =>
      simp only [List.not_mem_nil, if_false]
      exact .init _
  | cons w ws ih =>
      have hk : ∀ w', (if w' ∈ ws then count w' else 0) ≤ count w' := by
        intro w'
        split
        · exact Nat.le_refl _
        · exact Nat.zero_le _
      have hr := reachable_raise hle hd hk w ih (count w - if w ∈ ws then count w else 0)
        (Nat.add_sub_cancel' (hk w)).le
      rw [Nat.add_sub_cancel' (hk w)] at hr
      convert hr using 3 with w'
      by_cases he : w' = w
      · subst he; simp
      · simp [he]

end Circle

/-- Every circle of crossing lists is met by some run. -/
theorem reachable_of_crossed (h : Crossed definitions) :
    ∃ s, Reachable (Sys.step definitions) Sys.init s ∧ Deadlock (s.Waiting definitions) := by
  obtain ⟨count, hle, hd, hdead⟩ := h
  have hr := reachable_of_disjoint hle hd Finset.univ.toList
  simp only [Finset.mem_toList, Finset.mem_univ, if_true] at hr
  exact ⟨_, hr, hdead⟩

/-- No run of the startups reaches a deadlock if and only if no lists cross. -/
theorem startups_never_block :
    (∀ s, Reachable (Sys.step definitions) Sys.init s → ¬Deadlock (s.Waiting definitions)) ↔
      ¬Crossed definitions := by
  refine ⟨fun h hc => ?_, fun h s hs hd => h ?_⟩
  · obtain ⟨s, hs, hd⟩ := reachable_of_crossed hc
    exact h s hs hd
  · exact (hs.invariant inv_init fun _ _ _ hi hs => hi.step hs).crossed hd

omit [DecidableEq W] [DecidableEq N] [Fintype W] in
/-- Lists in a common order do not cross. -/
theorem not_crossed_of_sorted {α : Type} [LinearOrder α] {rank : N → α}
    (h : ∀ w, (definitions w).Pairwise fun m n => rank m < rank n) : ¬Crossed definitions := by
  rintro ⟨count, -, -, hd⟩
  let top : W → WithBot α := fun w => ((definitions w)[count w]?).map rank
  refine not_deadlock top ?_ hd
  rintro w₁ w₂ w₃ ⟨-, n, hn, hn'⟩ ⟨-, m, hm, -⟩
  rw [Option.mem_def] at hn hm
  obtain ⟨i, hi, rfl⟩ := List.mem_take_iff_getElem.mp hn'
  obtain ⟨hlt, rfl⟩ := List.getElem?_eq_some_iff.mp hm
  have hlt' := List.pairwise_iff_getElem.mp (h w₂) i (count w₂) (lt_min_iff.mp hi).2 hlt
    (lt_min_iff.mp hi).1
  simp only [top, hn, hm, Option.map_some]
  exact WithBot.coe_lt_coe.mpr hlt'

section Runs

/-- One worker lists `a` before `b` and the other one `b` before `a`. -/
def opposed : Fin 2 → List String := ![["a", "b"], ["b", "a"]]

/-- Each of two workers has published its first definition and waits for the other one. -/
theorem opposed_lists_block :
    ∃ s, Reachable (Sys.step opposed) Sys.init s ∧ Deadlock (s.Waiting opposed) := by
  have hrun : (run (Sys.step opposed) Sys.init [.publish 0, .publish 1]).any (fun s =>
      s.Waiting opposed 0 1 ∧ s.Waiting opposed 1 0) = true := by decide +kernel
  obtain ⟨s, hs, hp⟩ := Option.any_eq_true _ _ |>.mp hrun
  have hp := of_decide_eq_true hp
  exact ⟨s, ⟨_, hs⟩, deadlock_of_pair hp.1 hp.2⟩

end Runs

end Fronta.Startup
