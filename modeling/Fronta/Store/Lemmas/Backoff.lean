import Fronta.Library.Runs
import Fronta.Store.Transitions
import Mathlib.Algebra.Order.Field.Rat
import Mathlib.Tactic.Linarith

/-!
# The delay of retries

The failures since the last requeue are counted beside the row, and the column agrees with the count.
-/

namespace Fronta

open Runs

/-! ## Nominal delays -/

namespace Backoff

/-- `min(cap_s, base_s * factor**min(n-1, 64))` -/
def nominal (b : Backoff) (n : ℕ) : ℚ := min b.capS (b.baseS * b.factor ^ min (n - 1) 64)

/-- `min(cap_s, base_s * factor**(n-1))` -/
def contract (b : Backoff) (n : ℕ) : ℚ := min b.capS (b.baseS * b.factor ^ (n - 1))

/-- The delay of retry `n` for a draw of the jitter. -/
def delay (b : Backoff) (n : ℕ) (jitter : ℚ) : ℚ := b.nominal n * (1 / 2 + 1 / 2 * jitter)

variable (b : Backoff)

theorem nominal_nonneg (n : ℕ) : 0 ≤ b.nominal n := by
  have hcap : 0 ≤ b.capS := b.base_nonneg.trans b.base_le_cap
  have hfactor : 0 ≤ b.factor := zero_le_one.trans b.one_le_factor
  exact le_min hcap (mul_nonneg b.base_nonneg (pow_nonneg hfactor _))

theorem nominal_mono : Monotone b.nominal := by
  intro m n h
  refine min_le_min_left _ (mul_le_mul_of_nonneg_left ?_ b.base_nonneg)
  exact pow_le_pow_right₀ b.one_le_factor (by omega)

theorem nominal_eq_contract {n : ℕ} (h : n ≤ 65) : b.nominal n = b.contract n := by
  rw [nominal, contract, min_eq_left (by omega : n - 1 ≤ 64)]

theorem delay_mem {n : ℕ} {jitter : ℚ} (h : 0 ≤ jitter) (h' : jitter < 1) :
    b.nominal n / 2 ≤ b.delay n jitter ∧ b.delay n jitter ≤ b.nominal n := by
  have hn := b.nominal_nonneg n
  unfold delay
  constructor
  · have := mul_nonneg hn h
    linarith
  · have := mul_nonneg hn (sub_nonneg.mpr h'.le)
    linarith

end Backoff

/-! ## Failures of the current budget -/

/-- The operation records a failure. -/
def RowOp.charges (op : RowOp) (t : Row) : Bool :=
  match op with
  | complete _ _ c => c.kind = .fail || c.kind = .failFinal
  | reap _ _ => t.cancelRequestedAt = none
  | _ => false

/-- A row and the failures recorded since the last requeue. -/
def Row.counted (x : Row × ℕ) (op : RowOp) : Option (Row × ℕ) :=
  (op.apply x.1).map fun t =>
    (t, if op.isRequeue then 0 else if op.charges x.1 then x.2 + 1 else x.2)

namespace RowOp

variable {op : RowOp} {t t' : Row} {now jitter : ℚ}

theorem backoff_apply (h : op.apply t = some t') : t'.backoff = t.backoff := by
  cases op <;>
    simp only [apply, Row.claim, Row.heartbeat, Row.setProgress, Row.complete, Row.requestCancel,
      Row.reap, Row.requeue, Option.ite_none_right_eq_some, Option.some.injEq] at h <;>
    obtain ⟨-, rfl⟩ := h <;>
    rfl

theorem failures_apply (h : op.apply t = some t') : t'.failures =
    if op.isRequeue then 0 else if op.charges t then t.failures + 1 else t.failures := by
  cases op with
  | complete now jitter c =>
      simp only [apply, Row.complete, Option.ite_none_right_eq_some, Option.some.injEq] at h
      obtain ⟨-, rfl⟩ := h
      by_cases hk : c.kind = .fail ∨ c.kind = .failFinal <;> simp [isRequeue, charges, hk]
  | reap now jitter =>
      simp only [apply, Row.reap, Option.ite_none_right_eq_some, Option.some.injEq] at h
      obtain ⟨-, rfl⟩ := h
      simp [isRequeue, charges]
  | _ =>
      simp only [apply, Row.claim, Row.heartbeat, Row.setProgress, Row.requestCancel, Row.requeue,
        Option.ite_none_right_eq_some, Option.some.injEq] at h
      obtain ⟨-, rfl⟩ := h
      simp [isRequeue, charges]

theorem runAt_fail {c : Completion} (hk : c.kind = .fail) (h : t.complete now jitter c = some t')
    (hq : t'.state = .queued) : t'.runAt = t.backoffAt now jitter := by
  simp only [Row.complete, Option.ite_none_right_eq_some, Option.some.injEq] at h
  obtain ⟨-, rfl⟩ := h
  simp only [Row.outcome, hk] at hq ⊢
  split_ifs at hq with hc hf
  simp [not_not.mp hc, hf]

theorem runAt_reap (h : t.reap now jitter = some t') (hq : t'.state = .queued) :
    t'.runAt = t.backoffAt now jitter := by
  simp only [Row.reap, Option.ite_none_right_eq_some, Option.some.injEq] at h
  obtain ⟨-, rfl⟩ := h
  simp only at hq ⊢
  split_ifs at hq with hc hf
  simp [not_not.mp hc, hf]

theorem charges_reap (h : t.reap now jitter = some t') (hq : t'.state = .queued) :
    (reap now jitter).charges t = true := by
  simp only [Row.reap, Option.ite_none_right_eq_some, Option.some.injEq] at h
  obtain ⟨-, rfl⟩ := h
  simp only at hq
  split_ifs at hq with hc hf
  simpa [charges] using not_not.mp hc

end RowOp

theorem Row.backoffAt_eq {t : Row} {now jitter : ℚ} :
    t.backoffAt now jitter = now + t.backoff.delay (t.failures + 1) jitter := rfl

/-- The column counts the failures of the current budget, and the policy stays. -/
theorem Row.failures_of_run {task : NewTask} {created : Time} {ops : List RowOp} {t : Row} {n : ℕ}
    (h : run Row.counted (Row.enqueued created task, 0) ops = some (t, n)) :
    t.failures = n ∧ t.backoff = task.policy.backoff := by
  refine Reachable.invariant (I := fun x => x.1.failures = x.2 ∧ x.1.backoff = task.policy.backoff) ⟨ops, h⟩
    ⟨rfl, rfl⟩ fun x op x' hx hs => ?_
  obtain ⟨t', ha, rfl⟩ := Option.map_eq_some_iff.mp hs
  exact ⟨by rw [RowOp.failures_apply ha, hx.1], (RowOp.backoff_apply ha).trans hx.2⟩

end Fronta
