import Fronta.Library.Runs
import Mathlib.Data.List.Forall2
import Mathlib.Logic.Function.Basic

/-!
# Refinement

A machine refines another one if each of its steps is a run of the other between the meanings of its states. A family
of machines moves one member at a time, so any number of members that each make one move make them in some order.
-/

namespace Refinement

open Runs

variable {σ α τ β ι : Type}

/-! ## Machines -/

/-- Every step from a state of `I` stays there, and is a run of moves that the action may make. -/
def Refines (step : σ → α → Option σ) (spec : τ → β → Option τ) (abs : σ → τ) (I : σ → Prop)
    (makes : α → β → Prop) : Prop :=
  ∀ s a s', I s → step s a = some s' →
    I s' ∧ ∃ bs, (∀ b ∈ bs, makes a b) ∧ run spec (abs s) bs = some (abs s')

variable {step : σ → α → Option σ} {spec : τ → β → Option τ} {abs : σ → τ} {I : σ → Prop} {makes : α → β → Prop}
  {s s' : σ} {as : List α}

/-- A run refines action by action. -/
theorem Refines.run (h : Refines step spec abs I makes) (hi : I s) (hr : Runs.run step s as = some s') :
    I s' ∧ ∃ moves : List (List β), List.Forall₂ (fun a bs => ∀ b ∈ bs, makes a b) as moves ∧
      Runs.run spec (abs s) moves.flatten = some (abs s') := by
  induction as generalizing s with
  | nil =>
      rw [run_nil, Option.some.injEq] at hr
      exact ⟨hr ▸ hi, [], .nil, by rw [hr]; rfl⟩
  | cons a as ih =>
      obtain ⟨s₁, hs, hr⟩ := run_cons.mp hr
      obtain ⟨hi₁, bs, hbs, hrun⟩ := h _ _ _ hi hs
      obtain ⟨hi', moves, hall, hmoves⟩ := ih hi₁ hr
      exact ⟨hi', bs :: moves, .cons hbs hall, run_append.mpr ⟨_, hrun, hmoves⟩⟩

/-! ## Families -/

variable [DecidableEq ι]

/-- One member moves. -/
def family (spec : τ → β → Option τ) (s : ι → τ) (x : ι × β) : Option (ι → τ) :=
  (spec (s x.1) x.2).map (Function.update s x.1)

/-- Members that each stay or make one move make their moves one after another. -/
theorem family_run {s s' : ι → τ} {l : List ι} {p : ι → β → Prop} (hnd : l.Nodup)
    (hout : ∀ i, i ∉ l → s' i = s i)
    (hin : ∀ i ∈ l, s' i = s i ∨ ∃ b, p i b ∧ spec (s i) b = some (s' i)) :
    ∃ moves : List (ι × β), (∀ x ∈ moves, p x.1 x.2) ∧ Runs.run (family spec) s moves = some s' := by
  induction l generalizing s with
  | nil => exact ⟨[], fun x hx => absurd hx List.not_mem_nil, by rw [funext fun i => hout i List.not_mem_nil]; rfl⟩
  | cons i l ih =>
      obtain ⟨hi, hl⟩ := List.nodup_cons.mp hnd
      have hrest : ∃ moves : List (ι × β), (∀ x ∈ moves, p x.1 x.2) ∧
          Runs.run (family spec) (Function.update s i (s' i)) moves = some s' := by
        refine ih hl (fun j hj => ?_) fun j hj => ?_
        · by_cases hji : j = i
          · rw [hji, Function.update_self]
          · rw [Function.update_of_ne hji]
            exact hout j fun hm => (List.mem_cons.mp hm).elim hji hj
        · have hji : j ≠ i := fun he => hi (he ▸ hj)
          rw [Function.update_of_ne hji]
          exact hin j (List.mem_cons_of_mem _ hj)
      rcases hin i List.mem_cons_self with he | ⟨b, hp, hb⟩
      · rw [he, Function.update_eq_self] at hrest
        exact hrest
      · obtain ⟨moves, hm, hrun⟩ := hrest
        refine ⟨(i, b) :: moves, List.forall_mem_cons.mpr ⟨hp, hm⟩, run_cons.mpr ⟨_, ?_, hrun⟩⟩
        rw [family, hb]
        rfl

end Refinement
