import Fronta.Library.Runs

/-!
# Events that wake a loop

A loop clears an event, looks at its work and waits for the event. Whoever adds work sets the event. If the event
is not set, the loop has looked since everything that would have set it.
-/

namespace Wakeups

open Runs

universe u v

variable {σ : Type u} {α : Type v}

/-- How the actions of a system use an event. -/
structure Flag (step : σ → α → Option σ) where
  isSet : σ → Bool
  sets : σ → α → Bool
  clears : σ → α → Bool
  isSet_of_sets {s s' : σ} {a : α} : step s a = some s' → sets s a = true → isSet s' = true
  isSet_kept {s s' : σ} {a : α} : step s a = some s' → clears s a = false → isSet s = true → isSet s' = true

namespace Flag

variable {step : σ → α → Option σ} {s s' : σ} {as bs : List α} (e : Flag step)

/-- No action of the run sets the event. -/
def Quiet : σ → List α → Prop := Along step fun s a => e.sets s a = false

/-- The run has a clear and goes on from it with these actions. -/
def ClearedBefore (s : σ) (as after : List α) (t : σ) : Prop :=
  ∃ before a t₀, as = before ++ a :: after ∧ run step s before = some t₀ ∧ step t₀ a = some t ∧ e.clears t₀ a = true

/-- The run has a clear. -/
def Cleared (s : σ) (as : List α) : Prop := ∃ after t, e.ClearedBefore s as after t

/-- The run has a clear and after it a quiet rest. -/
def Looked (s : σ) (as : List α) : Prop := ∃ after t, e.ClearedBefore s as after t ∧ e.Quiet t after

variable {e}

theorem Quiet.append (h : e.Quiet s as) (hr : run step s as = some s') (h' : e.Quiet s' bs) :
    e.Quiet s (as ++ bs) := by
  induction as generalizing s with
  | nil =>
      cases hr
      exact h'
  | cons a as ih =>
      obtain ⟨s₁, hs, hr⟩ := run_cons.mp hr
      refine ⟨h.1, fun s₂ hs₂ => ?_⟩
      cases hs.symm.trans hs₂
      exact ih (h.2 _ hs) hr

theorem Quiet.of_append (h : e.Quiet s (as ++ bs)) (hr : run step s as = some s') : e.Quiet s' bs := by
  induction as generalizing s with
  | nil =>
      cases hr
      exact h
  | cons a as ih =>
      obtain ⟨s₁, hs, hr⟩ := run_cons.mp hr
      exact ih (h.2 _ hs) hr

theorem ClearedBefore.append (h : e.ClearedBefore s as bs s') (cs : List α) :
    e.ClearedBefore s (as ++ cs) (bs ++ cs) s' := by
  obtain ⟨before, a, t, rfl, hr, hs, hc⟩ := h
  exact ⟨before, a, t, List.append_assoc _ _ _, hr, hs, hc⟩

/-- The rest of the run leads from the clear to its end. -/
theorem ClearedBefore.run {t : σ} (h : e.ClearedBefore s as bs t) (hr : Runs.run step s as = some s') :
    Runs.run step t bs = some s' := by
  obtain ⟨before, a, t₀, rfl, hr₀, hs, -⟩ := h
  obtain ⟨_, hr₁, hr⟩ := run_append.mp hr
  cases hr₀.symm.trans hr₁
  obtain ⟨_, hs₁, hr⟩ := run_cons.mp hr
  cases hs.symm.trans hs₁
  exact hr

theorem Cleared.append (h : e.Cleared s as) (bs : List α) : e.Cleared s (as ++ bs) := by
  obtain ⟨after, t, h⟩ := h
  exact ⟨after ++ bs, t, h.append bs⟩

theorem Cleared.last {a : α} {t : σ} (hr : run step s as = some t) (hs : step t a = some s')
    (hc : e.clears t a = true) : e.Cleared s (as ++ [a]) :=
  ⟨[], s', as, a, t, rfl, hr, hs, hc⟩

variable (e) in
/-- An event that is not set was cleared after everything that sets it, or nothing has set it. -/
theorem quiet_of_unset (hr : run step s as = some s') (hset : e.isSet s' = false) :
    e.Quiet s as ∨ e.Looked s as := by
  induction as using List.reverseRecOn generalizing s' with
  | nil => exact Or.inl trivial
  | append_singleton as a ih =>
      obtain ⟨t, ht, hr⟩ := run_append.mp hr
      obtain ⟨t', hs, hr⟩ := run_cons.mp hr
      cases hr
      have hsets : e.sets t a = false := by
        cases h : e.sets t a with
        | false => rfl
        | true => rw [e.isSet_of_sets hs h] at hset; cases hset
      have hlast : e.Quiet t [a] := ⟨hsets, fun _ _ => trivial⟩
      cases hclears : e.clears t a with
      | true => exact Or.inr ⟨[], _, ⟨as, a, t, rfl, ht, hs, hclears⟩, trivial⟩
      | false =>
          have hunset : e.isSet t = false := by
            cases h : e.isSet t with
            | false => rfl
            | true => rw [e.isSet_kept hs hclears h] at hset; cases hset
          rcases ih ht hunset with hq | ⟨after, u, hu, hq⟩
          · exact Or.inl (hq.append ht hlast)
          · exact Or.inr ⟨after ++ [a], u, hu.append [a], hq.append (hu.run ht) hlast⟩

/-- Once a loop has cleared its event, an event that is not set tells that it has looked. -/
theorem Cleared.looked (h : e.Cleared s as) (hr : run step s as = some s') (hset : e.isSet s' = false) :
    e.Looked s as := by
  rcases e.quiet_of_unset hr hset with hq | hl
  · obtain ⟨after, t, before, a, t₀, rfl, hr₀, hs, hc⟩ := h
    exact ⟨after, t, ⟨before, a, t₀, rfl, hr₀, hs, hc⟩, (hq.of_append hr₀).2 _ hs⟩
  · exact hl

end Flag

end Wakeups
