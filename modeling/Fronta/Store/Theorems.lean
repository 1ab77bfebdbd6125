import Fronta.Store.Lemmas.Backoff
import Fronta.Store.Lemmas.Refinement
import Fronta.Store.Lemmas.Statements

/-!
# The lifecycle of a task

The invariant of every stored row over all sequences of statements from an empty queue, what a single
statement may do to a row, and when a failed task is tried again.
-/

namespace Fronta

/-- Every sequence of statements from empty tables keeps the lifecycle invariant. The attempt counter
counts claims, a pending cancel leaves the queue only through a requeue, succeeded rows are final, and
rows go only when terminal and past the retention. -/
theorem lifecycle_run (ops : List Op) :
    (∀ id t, (Db.init.execAll ops).tasks.get id = some t →
      (t.state = .running ↔ t.token.isSome) ∧
      (t.token.isSome ↔ t.leaseUntil.isSome) ∧
      (t.state.terminal ↔ t.finishedAt.isSome) ∧
      (t.state = .queued → t.cancelRequestedAt = none) ∧
      (t.result.isSome ↔ t.state = .succeeded) ∧
      t.failures ≤ t.maxAttempts ∧ t.failures ≤ t.attempt ∧
      (t.state.active → t.failures < t.maxAttempts) ∧
      (t.state = .running → 1 ≤ t.attempt)) ∧
    (∀ op id t t', (Db.init.execAll ops).tasks.get id = some t →
      ((Db.init.execAll ops).exec op).tasks.get id = some t' →
      t'.attempt = t.attempt + (if op.claims id t then 1 else 0) ∧
      (t.cancelRequestedAt.isSome → t'.state = .queued → op.requeues id)) ∧
    (∀ ops' id t, (Db.init.execAll ops).tasks.get id = some t → t.state = .succeeded →
      (Db.init.execAll (ops ++ ops')).tasks.get id = none ∨
      (Db.init.execAll (ops ++ ops')).tasks.get id = some t) ∧
    (∀ op id t, (Db.init.execAll ops).tasks.get id = some t →
      ((Db.init.execAll ops).exec op).tasks.get id = none →
      ∃ now retentionS batch busy, op = .purgeTasks now retentionS batch busy ∧
        t.state.terminal ∧ ∃ finished, t.finishedAt = some finished ∧ finished < now - retentionS) := by
  have hrows := Db.rowsOk_init.execAll ops
  refine ⟨?_, ?_, ?_, ?_⟩
  · intro id t ht
    have h := hrows id t ht
    exact ⟨h.running_token, h.token_lease, h.terminal_finished, h.queued_uncancelled,
      h.result_succeeded, h.failures_le_maxAttempts, h.failures_le_attempt, h.active_budget,
      h.running_attempt⟩
  · intro op id t t' ht ht'
    have h := hrows id t ht
    cases Db.exec_origin ht' with
    | kept hk hc =>
        rw [ht, Option.some.injEq] at hk; subst hk
        refine ⟨by simp [hc], fun hp hq => ?_⟩
        simp [h.queued_uncancelled hq] at hp
    | moved hk hm ha =>
        rw [ht, Option.some.injEq] at hk; subst hk
        refine ⟨?_, fun hp hq => Op.requeues_of_performs hm (RowOp.queued_of_cancel_pending h hp ha hq)⟩
        rw [Op.claims_of_performs hm ha, RowOp.apply_attempt ha]
    | inserted _ hi => exact absurd hi (Nat.ne_of_lt (Sql.Table.lt_of_get ht))
  · intro ops' id t ht hs
    rw [Db.execAll_append]
    exact Db.execAll_succeeded (Sql.Table.lt_of_get ht) (Or.inr ⟨ht, hs⟩)
  · intro op id t ht hn
    obtain ⟨now, retentionS, batch, busy, rfl, hp⟩ := Db.exec_removed ht hn
    simp only [Row.purgeable, Bool.and_eq_true, Option.any_eq_true, decide_eq_true_eq] at hp
    exact ⟨now, retentionS, batch, busy, rfl, hp.1, hp.2⟩

/-! ## Refinement -/

section Refinement

open Runs

/-- Every sequence of statements does to the tasks what a run of the queue does, statement by statement. -/
theorem queue_refined (ops : List Op) : ∃ moves : List (List (TaskId × Queue.Move)),
    List.Forall₂ (fun op ms => ∀ m ∈ ms, op.makes m) ops moves ∧
      run Queue.step Queue.empty moves.flatten = some (Db.init.execAll ops).queue := by
  have href : Refinement.Refines Db.step Queue.step Db.queue Db.RowsOk Op.makes := by
    intro db op db' hok hs
    cases hs
    exact ⟨hok.exec op, Db.exec_refines hok op⟩
  exact (href.run Db.rowsOk_init Db.run_step).2

/-- A task is claimed at most as often as its budget allows, once more for every release, and a budget more for
every requeue. -/
theorem starts_bounded (ops : List Op) (id : TaskId) : ∀ t, (Db.init.execAll ops).tasks.get id = some t →
    t.attempt ≤ t.maxAttempts * (ops.countP (·.requeues id) + 1) + ops.countP (·.releases id) := by
  intro t ht
  have hempty : ∀ t ∈ Db.init.queue id, Queue.Within 0 0 t := fun t ht => by cases ht
  have h := (Db.within_execAll Db.rowsOk_init hempty t.task (Db.queue_of_some ht)).started
  rw [Nat.zero_add, Nat.zero_add] at h
  rwa [Nat.mul_succ]

/-- A task that is claimed, released and claimed again. -/
theorem starts_bounded_returned :
    let ops : List Op := [.enqueue 0 ⟨"t", "null", default, 0, none, none, none, none⟩,
      .claim 1 (fun _ => 1) 30 "w" (fun _ => 7) [1], .complete 2 (fun _ => 0) [⟨1, 7, .release, none, by simp⟩],
      .claim 3 (fun _ => 3) 30 "w" (fun _ => 8) [1]]
    ∃ t, (Db.init.execAll ops).tasks.get 1 = some t ∧ t.attempt = 2 ∧
      t.attempt ≤ t.maxAttempts * (ops.countP (·.requeues 1) + 1) + ops.countP (·.releases 1) := by
  intro ops
  have hrun : ((Db.init.execAll ops).tasks.get 1).any (fun t => t.attempt = 2) = true := by decide +kernel
  obtain ⟨t, ht, hp⟩ := Option.any_eq_true _ _ |>.mp hrun
  exact ⟨t, ht, of_decide_eq_true hp, starts_bounded ops 1 t ht⟩

end Refinement

/-! ## Retries -/

section Retries

open Runs

/-- When failure `n` of the current budget requeues the task, on either path, the retry waits between half of
the nominal delay and all of it. The nominal delay never decreases, and is the contract's for the first 65
failures. -/
theorem retry_delay {task : NewTask} {created now jitter : ℚ} {ops : List RowOp} {op : RowOp} {t : Row}
    {n : ℕ} (hr : run Row.counted (Row.enqueued created task, 0) (ops ++ [op]) = some (t, n))
    (hop : op = .reap now jitter ∨ ∃ c, op = .complete now jitter c ∧ c.kind = .fail)
    (hq : t.state = .queued) (hj : 0 ≤ jitter) (hj' : jitter < 1) :
    t.runAt - now = task.policy.backoff.delay n jitter ∧
      task.policy.backoff.nominal n / 2 ≤ t.runAt - now ∧
      t.runAt - now ≤ task.policy.backoff.nominal n ∧
      Monotone task.policy.backoff.nominal ∧
      (n ≤ 65 → task.policy.backoff.nominal n = task.policy.backoff.contract n) := by
  obtain ⟨⟨before, m⟩, hbefore, hstep⟩ := run_append.mp hr
  obtain ⟨_, hs, hlast⟩ := run_cons.mp hstep
  cases hlast
  obtain ⟨t', ha, he⟩ := Option.map_eq_some_iff.mp hs
  obtain ⟨hm, hb⟩ := Row.failures_of_run hbefore
  obtain ⟨rfl, hn⟩ := Prod.mk.inj he
  have hrun : t'.runAt = before.backoffAt now jitter ∧ n = m + 1 := by
    rcases hop with rfl | ⟨c, rfl, hk⟩
    · exact ⟨RowOp.runAt_reap ha hq, by simpa [RowOp.isRequeue, RowOp.charges_reap ha hq] using hn.symm⟩
    · exact ⟨RowOp.runAt_fail hk ha hq, by simpa [RowOp.isRequeue, RowOp.charges, hk] using hn.symm⟩
  have hdelay : t'.runAt - now = task.policy.backoff.delay n jitter := by
    rw [hrun.1, Row.backoffAt_eq, hb, hm, hrun.2, add_sub_cancel_left]
  have hmem := task.policy.backoff.delay_mem (n := n) hj hj'
  rw [hdelay]
  exact ⟨rfl, hmem.1, hmem.2, task.policy.backoff.nominal_mono, task.policy.backoff.nominal_eq_contract⟩

/-- One percent more for every retry, and a budget of 100. -/
def slow : NewTask where
  type := "t"
  inputJson := "null"
  policy := { (default : Policy) with
    maxAttempts := 100
    attemptTimeoutS := 60
    backoff := { (default : Backoff) with
      factor := 101 / 100
      one_le_factor := by decide +kernel
      factor_le := by decide +kernel }
    one_le_maxAttempts := by decide }

/-- A claim and a failure of the attempt. -/
def failure (k : ℕ) : List RowOp :=
  [.claim 0 0 30 "w" k, .complete 0 0 ⟨1, k, .fail, none, by simp⟩]

theorem retry_delay_first : ∃ t, run Row.counted (Row.enqueued 0 slow, 0) (failure 0) = some (t, 1) ∧
    t.state = .queued ∧ t.runAt - 0 = slow.policy.backoff.delay 1 0 := by
  have hrun : (run Row.counted (Row.enqueued 0 slow, 0) (failure 0)).any (fun x =>
      x.2 = 1 ∧ x.1.state = .queued) = true := by decide +kernel
  obtain ⟨⟨t, n⟩, hs, hp⟩ := Option.any_eq_true _ _ |>.mp hrun
  obtain ⟨rfl, hq⟩ := of_decide_eq_true hp
  have h := @retry_delay _ _ _ _ [.claim 0 0 30 "w" 0] _ _ _ hs (Or.inr ⟨_, rfl, rfl⟩) hq (le_refl 0) one_pos
  exact ⟨t, hs, hq, h.1⟩

/-- Failure 66 waits less than half of what the contract says. -/
theorem late_retry_is_early : ∃ t,
    run Row.counted (Row.enqueued 0 slow, 0) ((List.range 66).flatMap failure) = some (t, 66) ∧
      t.state = .queued ∧ t.runAt < slow.policy.backoff.contract 66 / 2 := by
  have hrun : (run Row.counted (Row.enqueued 0 slow, 0) ((List.range 66).flatMap failure)).any (fun x =>
      x.2 = 66 ∧ x.1.state = .queued ∧ x.1.runAt < slow.policy.backoff.contract 66 / 2) = true := by
    decide +kernel
  obtain ⟨⟨t, n⟩, hs, hp⟩ := Option.any_eq_true _ _ |>.mp hrun
  obtain ⟨rfl, hq, hlt⟩ := of_decide_eq_true hp
  exact ⟨t, hs, hq, hlt⟩

end Retries

end Fronta
