import Mathlib.Data.List.Induction

/-!
# Runs of a partial step function

`step s a` is the state after action `a`, or `none` where `a` cannot happen in `s`. An invariant is
checked against one step and holds along every run.
-/

namespace Runs

universe u v

variable {σ : Type u} {α : Type v} {step : σ → α → Option σ} {s s' : σ} {as bs : List α}

/-- Take the actions in order. -/
def run (step : σ → α → Option σ) : σ → List α → Option σ
  | s, [] => some s
  | s, a :: as => (step s a).bind fun s' => run step s' as

@[simp] theorem run_nil : run step s [] = some s := rfl

theorem run_cons {a : α} :
    run step s (a :: as) = some s' ↔ ∃ s₁, step s a = some s₁ ∧ run step s₁ as = some s' := by
  simp [run, Option.bind_eq_some_iff]

theorem run_append :
    run step s (as ++ bs) = some s' ↔ ∃ s₁, run step s as = some s₁ ∧ run step s₁ bs = some s' := by
  induction as generalizing s with
  | nil => simp
  | cons a as ih =>
      simp only [List.cons_append, run_cons, ih]
      constructor
      · rintro ⟨s₁, h₁, s₂, h₂, h₃⟩; exact ⟨s₂, ⟨s₁, h₁, h₂⟩, h₃⟩
      · rintro ⟨s₂, ⟨s₁, h₁, h₂⟩, h₃⟩; exact ⟨s₁, h₁, s₂, h₂, h₃⟩

/-- Every step of the run meets `C`. -/
def Along (step : σ → α → Option σ) (C : σ → α → Prop) : σ → List α → Prop
  | _, [] => True
  | s, a :: as => C s a ∧ ∀ s', step s a = some s' → Along step C s' as

instance Along.decidable {C : σ → α → Prop} [∀ s a, Decidable (C s a)] :
    ∀ (s : σ) (as : List α), Decidable (Along step C s as)
  | _, [] => isTrue True.intro
  | s, a :: as =>
      match h : step s a with
      | none => decidable_of_iff (C s a) (by simp [Along, h])
      | some s' =>
          have : Decidable (Along step C s' as) := Along.decidable s' as
          decidable_of_iff (C s a ∧ Along step C s' as) (by simp [Along, h])

theorem Along.trivial : ∀ (s : σ) (as : List α), Along step (fun _ _ => True) s as
  | _, [] => True.intro
  | _, _ :: as => ⟨True.intro, fun s' _ => Along.trivial s' as⟩

theorem Along.of_forall {P : α → Prop} (h : ∀ a ∈ as, P a) (s : σ) : Along step (fun _ a => P a) s as := by
  induction as generalizing s with
  | nil => trivial
  | cons a as ih =>
      exact ⟨h a List.mem_cons_self, fun s' _ => ih (fun b hb => h b (List.mem_cons_of_mem _ hb)) s'⟩

/-- What holds along a run holds along its parts. -/
theorem Along.append {C : σ → α → Prop} (h : Along step C s (as ++ bs)) (hr : run step s as = some s') :
    Along step C s as ∧ Along step C s' bs := by
  induction as generalizing s with
  | nil =>
      cases hr
      exact ⟨True.intro, h⟩
  | cons a as ih =>
      obtain ⟨s₁, hs, hr⟩ := run_cons.mp hr
      obtain ⟨has, hbs⟩ := ih (h.2 _ hs) hr
      refine ⟨⟨h.1, fun s₂ hs₂ => ?_⟩, hbs⟩
      cases hs.symm.trans hs₂
      exact has

/-- What steps that meet `C` preserve, runs of such steps preserve. -/
theorem invariant {C : σ → α → Prop} {I : σ → Prop}
    (hstep : ∀ s a s', I s → C s a → step s a = some s' → I s') (hs : I s)
    (hc : Along step C s as) (hr : run step s as = some s') : I s' := by
  induction as generalizing s with
  | nil => rw [run_nil, Option.some.injEq] at hr; exact hr ▸ hs
  | cons a as ih =>
      obtain ⟨s₁, h₁, h₂⟩ := run_cons.mp hr
      exact ih (hstep _ _ _ hs hc.1 h₁) (hc.2 _ h₁) h₂

/-- `s` is reached from `init` by some run. -/
def Reachable (step : σ → α → Option σ) (init s : σ) : Prop := ∃ as, run step init as = some s

theorem Reachable.init (s : σ) : Reachable step s s := ⟨[], rfl⟩

theorem Reachable.next {init : σ} {a : α} (h : Reachable step init s) (hs : step s a = some s') :
    Reachable step init s' := by
  obtain ⟨as, has⟩ := h
  exact ⟨as ++ [a], run_append.mpr ⟨s, has, run_cons.mpr ⟨s', hs, rfl⟩⟩⟩

theorem Reachable.run {init : σ} (h : Reachable step init s) (hr : run step s as = some s') :
    Reachable step init s' := by
  obtain ⟨bs, hbs⟩ := h
  exact ⟨bs ++ as, run_append.mpr ⟨s, hbs, hr⟩⟩

/-- An invariant of every step from a reachable state holds in every reachable state. -/
theorem Reachable.invariant {I : σ → Prop} {init : σ} (h : Reachable step init s) (hi : I init)
    (hstep : ∀ s a s', I s → step s a = some s' → I s') : I s := by
  obtain ⟨as, has⟩ := h
  exact Runs.invariant (C := fun _ _ => True) (fun s a s' h _ => hstep s a s' h) hi
    (Along.trivial _ _) has

/-! ## The past of a run -/

/-- Some state of the run meets `P`. -/
def Past (step : σ → α → Option σ) (P : σ → Prop) (s : σ) (as : List α) : Prop :=
  ∃ bs cs s', as = bs ++ cs ∧ run step s bs = some s' ∧ P s'

variable {P : σ → Prop}

theorem Past.now (hr : run step s as = some s') (h : P s') : Past step P s as :=
  ⟨as, [], s', by simp, hr, h⟩

theorem Past.append (h : Past step P s as) (bs : List α) : Past step P s (as ++ bs) := by
  obtain ⟨cs, ds, s', rfl, hr, hp⟩ := h
  exact ⟨cs, ds ++ bs, s', List.append_assoc _ _ _, hr, hp⟩

/-- An invariant that may speak of the run so far. -/
theorem history {I : List α → σ → Prop} (hi : I [] s)
    (hstep : ∀ as a t t', run step s as = some t → I as t → step t a = some t' → I (as ++ [a]) t')
    (hr : run step s as = some s') : I as s' := by
  induction as using List.reverseRecOn generalizing s' with
  | nil =>
      rw [run_nil, Option.some.injEq] at hr
      exact hr ▸ hi
  | append_singleton as a ih =>
      obtain ⟨t, ht, hr⟩ := run_append.mp hr
      obtain ⟨t', hs, hr⟩ := run_cons.mp hr
      rw [run_nil, Option.some.injEq] at hr
      exact hstep as a t s' ht (ih ht) (hr ▸ hs)

end Runs
