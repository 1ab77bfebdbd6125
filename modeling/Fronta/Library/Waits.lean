import Mathlib.Logic.Relation
import Mathlib.Order.Defs.PartialOrder

/-!
# Waiting for one another

A deadlock is a cycle of the relation that says who waits for whom. Whoever waits for somebody of a higher
rank is in no cycle.
-/

namespace Waits

universe u v

variable {τ : Type u} {α : Type v} {W V : τ → τ → Prop} {p q : τ}

/-- Somebody waits, perhaps through others, for themselves. -/
def Deadlock (W : τ → τ → Prop) : Prop := ∃ p, Relation.TransGen W p p

theorem Deadlock.mono (h : Deadlock W) (hw : ∀ p q, W p q → V p q) : Deadlock V := by
  obtain ⟨p, hp⟩ := h
  exact ⟨p, Relation.TransGen.mono hw p p hp⟩

theorem deadlock_of_pair (hp : W p q) (hq : W q p) : Deadlock W := ⟨p, .tail (.single hp) hq⟩

theorem rank_lt [Preorder α] {rank : τ → α} (h : ∀ p q r, W p q → W q r → rank p < rank q)
    (hp : Relation.TransGen W p q) : ∀ r, W q r → rank p < rank q := by
  induction hp with
  | single hw => exact fun r hr => h _ _ r hw hr
  | tail _ hw ih => exact fun r hr => lt_trans (ih _ hw) (h _ _ r hw hr)

/-- Where those who wait wait for higher ranks, or for somebody who does not wait, there is no deadlock. -/
theorem not_deadlock [Preorder α] (rank : τ → α) (h : ∀ p q r, W p q → W q r → rank p < rank q) :
    ¬Deadlock W := by
  rintro ⟨p, hp⟩
  obtain ⟨q, hq, -⟩ := Relation.TransGen.head'_iff.mp hp
  exact lt_irrefl _ (rank_lt h hp q hq)

end Waits
