import Fronta.Polling.Lemmas.Steps

/-!
# No wake-up is lost

A loop that waits with its event unset has looked since everything that would have woken it, and what it found then
still holds.
-/

namespace Fronta.Polling

open Runs Sql Sys

/-- While the loop waits and its event is not set, no shutdown was requested and nothing has set the event since
its last pass. That pass found no free slot and there still is none, or the tables after every commit that was
announced to the worker had nothing for it, or its claim failed. Every wait ends within the poll interval. -/
theorem no_wakeup_lost {w : Env} {concurrency : ℕ} {db : Db} {actions : List Action} {s : Sys} {finding : Finding}
    {timeout : ℚ} (h : run (step w) (init w concurrency db) actions = some s)
    (hp : s.phase = .waiting finding timeout) :
    (s.wake = false → s.worker.stopping = false ∧ s.Finds finding ∧
      (event w).Looked (init w concurrency db) actions) ∧
    ∃ jitter : ℚ, 4 / 5 ≤ jitter ∧ jitter ≤ 6 / 5 ∧
      timeout = min w.pollIntervalS (min w.pollIntervalS (min (1 / 20) w.pollIntervalS * 2 ^ s.idle) * jitter) := by
  have hi : Inv w s := invariant (C := fun _ _ => True) (fun _ _ _ hi _ hs => inv_step hi hs) inv_init
    (Along.trivial _ _) h
  have hphase := hi.phase
  unfold PhaseOk at hphase
  rw [hp] at hphase
  obtain ⟨hfound, jitter, hj, rfl⟩ := hphase
  refine ⟨fun hw => ?_, jitter, ?_⟩
  · obtain ⟨hst, hf⟩ := hfound.resolve_left (by simp [hw])
    refine ⟨hst, hf, ?_⟩
    rcases cleared_of_run h with hc | htop | hstop
    · exact hc.looked h hw
    · rw [hp] at htop
      cases htop
    · rw [hst] at hstop
      cases hstop
  · simp only [uniform, Bool.and_eq_true, decide_eq_true_eq] at hj
    exact ⟨hj.1, hj.2, by rw [hi.delay]; rfl⟩

section Runs

/-- One type and a poll every second. -/
def polling : Env := ⟨["t"], 1, one_pos⟩

/-- The worker sleeps beside a full slot, misses the task that it was told of to another worker and polls once. -/
theorem no_wakeup_lost_beaten : ∃ s, run (step polling) (init polling 1 .init)
    [.begin 1, .execute 0 (fun _ => 0) 30 "w" (fun _ => 7) [], .answer 1, .notice "t" 1, .awake, .begin 1,
      .execute 1 (fun _ => 1) 30 "w" (fun _ => 7) [], .answer 1, .timeout, .begin 1,
      .execute 2 (fun _ => 2) 30 "w" (fun _ => 7) [], .answer 1] = some s ∧
    s.wake = false ∧ ∀ commit ∈ s.heard, commit ≤ 2 := by
  have hrun : (run (step polling) (init polling 1 .init)
      [.begin 1, .execute 0 (fun _ => 0) 30 "w" (fun _ => 7) [], .answer 1, .notice "t" 1, .awake, .begin 1,
        .execute 1 (fun _ => 1) 30 "w" (fun _ => 7) [], .answer 1, .timeout, .begin 1,
        .execute 2 (fun _ => 2) 30 "w" (fun _ => 7) [], .answer 1]).any (fun s =>
      s.phase = .waiting (.nothing 2) (1 / 10) ∧ s.wake = false) = true := by decide +kernel
  obtain ⟨s, hs, hp⟩ := Option.any_eq_true _ _ |>.mp hrun
  obtain ⟨hphase, hw⟩ := of_decide_eq_true hp
  exact ⟨s, hs, hw, ((no_wakeup_lost hs hphase).1 hw).2.1⟩

end Runs

end Fronta.Polling
