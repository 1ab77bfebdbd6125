import Fronta.Lifecycle.System

/-!
# Where a cancellation is

From its delivery to the end of `run` a cancellation is on its way up, or waits for a cleanup.
-/

namespace Fronta.Lifecycle

variable {s s' : Sys} {late : Option Raised} {wait : Wait} {lifespan : Bool} {action : Action}

/-- Something is raised on the way to the end of `run`. -/
def Stage.carries : Stage → Bool
  | .opening | .looping | .ended (.returned _) => false
  | .draining late _ _ => late.isSome
  | .stopping c => c.outcome.isSome
  | .leaving raised => raised.isSome
  | .closing c => c.outcome.isSome
  | .ended _ => true

/-- `run` has not returned. -/
def Stage.awaits : Stage → Bool
  | .ended (.returned _) => false
  | _ => true

/-- A cancellation of `run` is swallowed, on its way to the task, or on its way up. -/
def Carried (s : Sys) : Prop :=
  s.cancelled = true → s.swallowed = true ∨ s.cancelling = true ∧ s.stage.awaits = true ∨ s.stage.carries = true

/-- The drain keeps what was raised before it. -/
structure Goes (s : Sys) (late : Option Raised) (s' : Sys) : Prop where
  cancelled : s'.cancelled = s.cancelled
  swallowed : s'.swallowed = s.swallowed
  cancelling : s'.cancelling = s.cancelling
  carries : s'.stage.carries = late.isSome
  awaits : s'.stage.awaits = true

theorem Goes.carried (h : Goes s late s')
    (hc : s.cancelled = true → s.swallowed = true ∨ s.cancelling = true ∨ late.isSome) : Carried s' := by
  intro hn
  rw [h.swallowed, h.cancelling, h.carries]
  exact (hc (h.cancelled ▸ hn)).imp id (Or.imp (fun hg => ⟨hg, h.awaits⟩) id)

theorem goes_drained : Goes s late (s.drained late) := ⟨rfl, rfl, rfl, rfl, rfl⟩

theorem goes_drainCut : Goes s late (s.drainCut late) := by
  unfold Sys.drainCut
  split
  · exact goes_drained
  · exact ⟨rfl, rfl, rfl, rfl, rfl⟩

theorem goes_drainBudget : Goes s late (s.drainBudget late) := by
  unfold Sys.drainBudget
  split
  · exact goes_drainCut
  · exact ⟨rfl, rfl, rfl, rfl, rfl⟩

theorem goes_drainSettle : Goes s late (s.drainSettle late) := by
  unfold Sys.drainSettle
  split
  · exact goes_drained
  · split
    · exact goes_drainBudget
    · exact ⟨rfl, rfl, rfl, rfl, rfl⟩

theorem goes_stopAll : Goes s late (s.stopAll.drainSettle late) := by
  have h : Goes s.stopAll late (s.stopAll.drainSettle late) := goes_drainSettle
  exact ⟨h.cancelled, h.swallowed, h.cancelling, h.carries, h.awaits⟩

theorem goes_drain : Goes s late (s.drain late) := by
  unfold Sys.drain
  split
  · exact ⟨rfl, rfl, rfl, rfl, rfl⟩
  · exact goes_stopAll

theorem goes_resume : Goes s late (s.resume late wait) := by
  cases wait with
  | grace => exact goes_stopAll
  | settle => exact goes_drainBudget
  | budget => exact goes_drainCut
  | cut => exact goes_drained

theorem goes_failed {e : Raised} : Goes s (some e) (s.failed e) := by
  have h : Goes _ (some e) (s.failed e) := goes_drain
  exact ⟨h.cancelled, h.swallowed, h.cancelling, h.carries, h.awaits⟩

/-- Wherever something is raised, something is on its way up. -/
theorem carries_interrupt {e : Raised} (h : s.interrupt e = some s') : s'.stage.carries = true := by
  unfold Sys.interrupt at h
  cases hs : s.stage with
  | opening | stopping | closing =>
      rw [hs] at h
      cases h
      rfl
  | looping =>
      rw [hs] at h
      cases h
      exact goes_failed.carries
  | draining late wait tasks =>
      rw [hs] at h
      cases late with
      | none =>
          cases h
          exact goes_failed.carries
      | some _ =>
          cases h
          exact goes_drained.carries
  | leaving | ended =>
      rw [hs] at h
      cases h

theorem carried_of_flags (h : Carried s) (hc : s'.cancelled = s.cancelled) (hw : s'.swallowed = s.swallowed)
    (hg : s'.cancelling = s.cancelling) (ha : s.cancelling = true → s.stage.awaits = true → s'.stage.awaits = true)
    (hs : s.stage.carries = true → s'.stage.carries = true) : Carried s' := by
  intro hn
  rw [hw, hg]
  exact (h (hc ▸ hn)).imp id (Or.imp (fun ⟨hg, hst⟩ => ⟨hg, ha hg hst⟩) hs)

theorem flags_shutdownOnce : s.shutdownOnce.cancelled = s.cancelled ∧ s.shutdownOnce.swallowed = s.swallowed ∧
    s.shutdownOnce.cancelling = s.cancelling ∧ s.shutdownOnce.stage = s.stage := by
  unfold Sys.shutdownOnce
  split <;> exact ⟨rfl, rfl, rfl, rfl⟩

theorem carried_shutdownOnce (h : Carried s) : Carried s.shutdownOnce := by
  obtain ⟨hc, hw, hg, hs⟩ := @flags_shutdownOnce s
  exact carried_of_flags h hc hw hg (fun _ hn => hs ▸ hn) fun hn => hs ▸ hn

theorem carried_step (h : Carried s) (hs : s.step lifespan action = some s') : Carried s' := by
  cases action with
  | worker a =>
      obtain ⟨-, hs⟩ := Option.ite_none_right_eq_some.mp hs
      obtain ⟨w, -, rfl⟩ := Option.map_eq_some_iff.mp hs
      exact h
  | attemptDone x fatal =>
      obtain ⟨w, -, rfl⟩ := Option.map_eq_some_iff.mp hs
      split_ifs
      · exact carried_shutdownOnce h
      · exact h
  | signal =>
      obtain ⟨-, hs⟩ := Option.ite_none_left_eq_some.mp hs
      cases hs
      exact h
  | cancel =>
      obtain ⟨he, hs⟩ := Option.ite_none_left_eq_some.mp hs
      have hawaits : s.stage.awaits = true := by
        cases hst : s.stage with
        | ended o => exact absurd (by rw [Sys.isEnded, hst]) he
        | _ => rfl
      cases hs
      exact fun _ => Or.inr (Or.inl ⟨rfl, hawaits⟩)
  | loopEnds l =>
      obtain ⟨-, hs⟩ := Option.ite_none_right_eq_some.mp hs
      cases hs
      exact h
  | loopDies l =>
      obtain ⟨-, hs⟩ := Option.ite_none_right_eq_some.mp hs
      cases hs
      exact carried_shutdownOnce h
  | opened =>
      obtain ⟨⟨hop, -⟩, hs⟩ := Option.ite_none_right_eq_some.mp hs
      cases hs
      exact carried_of_flags h rfl rfl rfl (fun _ _ => rfl) fun hn => by rw [hop] at hn; cases hn
  | fails =>
      have hcarries : s'.stage.carries = true := by
        simp only [Sys.step] at hs
        split at hs
        · exact carries_interrupt (Option.ite_none_left_eq_some.mp hs).2
        · exact carries_interrupt (Option.ite_none_left_eq_some.mp hs).2
        · exact carries_interrupt (Option.ite_none_left_eq_some.mp hs).2
        · cases hs
      exact fun _ => Or.inr (Or.inr hcarries)
  | deliver => exact fun _ => Or.inr (Or.inr (carries_interrupt (Option.ite_none_right_eq_some.mp hs).2))
  | swallow =>
      have hswallowed : s'.swallowed = true := by
        simp only [Sys.step] at hs
        split at hs
        · obtain ⟨-, hs⟩ := Option.ite_none_right_eq_some.mp hs
          cases hs
          rfl
        · obtain ⟨-, hs⟩ := Option.ite_none_right_eq_some.mp hs
          cases hs
          rfl
        · cases hs
      exact fun _ => Or.inl hswallowed
  | endLoop =>
      obtain ⟨⟨hl, hg, -, -⟩, hs⟩ := Option.ite_none_right_eq_some.mp hs
      cases hs
      refine goes_drain.carried fun hc => ?_
      rcases h hc with hw | hn | hn
      · exact Or.inl hw
      · exact Or.inr (Or.inl hn.1)
      · rw [hl] at hn
        cases hn
  | wake =>
      simp only [Sys.step] at hs
      split at hs
      · rename_i hd
        obtain ⟨-, hs⟩ := Option.ite_none_right_eq_some.mp hs
        cases hs
        refine goes_resume.carried fun hc => ?_
        have hc := h hc
        rw [hd] at hc
        exact hc.imp id (Or.imp And.left id)
      · cases hs
  | stop =>
      simp only [Sys.step] at hs
      split at hs
      · rename_i c hst
        have hcarries : ∀ operation, s.stage.carries = true →
            (Stage.stopping { c with operation := operation }).carries = true :=
          fun _ hn => by rw [hst] at hn; exact hn
        split at hs
        · split_ifs at hs
          · cases hs
            exact carried_of_flags h rfl rfl rfl (fun _ _ => rfl) (hcarries _)
          · cases hs
            exact carried_of_flags h rfl rfl rfl (fun _ _ => rfl) (hcarries _)
        · obtain ⟨-, hs⟩ := Option.ite_none_right_eq_some.mp hs
          cases hs
          exact carried_of_flags h rfl rfl rfl (fun _ _ => rfl) (hcarries _)
        · obtain ⟨-, hs⟩ := Option.ite_none_right_eq_some.mp hs
          cases hs
          exact carried_of_flags h rfl rfl rfl (fun _ _ => rfl) (hcarries _)
        · cases hs
      · cases hs
  | stopped =>
      simp only [Sys.step] at hs
      split at hs
      · rename_i c hst
        obtain ⟨-, hs⟩ := Option.ite_none_right_eq_some.mp hs
        split_ifs at hs
        · cases hs
          exact carried_of_flags h rfl rfl rfl (fun _ _ => rfl) fun hn => by rw [hst] at hn; exact hn
        · cases hs
          exact carried_of_flags h rfl rfl rfl (fun _ _ => rfl) fun hn => by rw [hst] at hn; exact hn
      · cases hs
  | leave raised' =>
      simp only [Sys.step] at hs
      split at hs
      · rename_i raised hl
        cases hs
        intro hc
        cases raised' with
        | some e => exact Or.inr (Or.inr rfl)
        | none =>
            refine Or.inl ?_
            rcases h hc with hw | hn | hn
            · simp [Sys.left, hw]
            · simp [Sys.left, hn.1]
            · rw [hl] at hn
              have hn : raised.isSome = true := hn
              simp [Sys.left, hn]
      · cases hs
  | release =>
      simp only [Sys.step] at hs
      split at hs
      · rename_i c hst
        split at hs
        · cases hs
          refine carried_of_flags h rfl rfl rfl (fun _ _ => ?_) fun hn => ?_
          · dsimp only
            split_ifs <;> rfl
          · rw [hst] at hn
            dsimp only
            split_ifs
            · rfl
            · exact hn
        · cases hs
      · cases hs
  | releaseFails =>
      simp only [Sys.step] at hs
      split at hs
      · rename_i c hst
        split at hs
        · cases hs
          exact carried_of_flags h rfl rfl rfl (fun _ _ => rfl) fun hn => by rw [hst] at hn; exact hn
        · cases hs
      · cases hs
  | closed =>
      simp only [Sys.step] at hs
      split at hs
      · rename_i c hst
        obtain ⟨hg, hs⟩ := Option.ite_none_left_eq_some.mp hs
        split at hs
        · cases hs
          refine carried_of_flags h rfl rfl rfl (fun hn => absurd hn hg) fun hn => ?_
          rw [hst] at hn
          obtain ⟨e, he⟩ := Option.isSome_iff_exists.mp hn
          dsimp only
          rw [he]
          rfl
        · cases hs
          exact carried_of_flags h rfl rfl rfl (fun _ _ => rfl) fun _ => rfl
        · cases hs
      · cases hs

end Fronta.Lifecycle
