import Fronta.Store.Statements

/-!
# What the row transitions preserve

The invariant of one row, and one lemma for each transition.
-/

namespace Fronta

namespace Row

/-- What every stored row satisfies. `running_failures` is the strengthening that the budget needs. -/
structure Lifecycle (t : Row) : Prop where
  running_token : t.state = .running ↔ t.token.isSome
  token_lease : t.token.isSome ↔ t.leaseUntil.isSome
  terminal_finished : t.state.terminal ↔ t.finishedAt.isSome
  queued_uncancelled : t.state = .queued → t.cancelRequestedAt = none
  result_succeeded : t.result.isSome ↔ t.state = .succeeded
  one_le_maxAttempts : 1 ≤ t.maxAttempts
  failures_le_maxAttempts : t.failures ≤ t.maxAttempts
  failures_le_attempt : t.failures ≤ t.attempt
  active_budget : t.state.active → t.failures < t.maxAttempts
  running_failures : t.state = .running → t.failures < t.attempt

variable {t t' : Row} {now jitter clock leaseS : ℚ}

theorem Lifecycle.running_attempt (h : t.Lifecycle) (hr : t.state = .running) : 1 ≤ t.attempt :=
  Nat.lt_of_le_of_lt (Nat.zero_le _) (h.running_failures hr)

theorem Lifecycle.result_none (h : t.Lifecycle) (hs : t.state ≠ .succeeded) : t.result = none := by
  cases hr : t.result with
  | none => rfl
  | some r => exact absurd (h.result_succeeded.mp (by simp [hr])) hs

theorem lifecycle_enqueued (now : Time) (task : NewTask) : (enqueued now task).Lifecycle where
  running_token := by simp [enqueued]
  token_lease := by simp [enqueued]
  terminal_finished := by simp [enqueued, State.terminal]
  queued_uncancelled := fun _ => rfl
  result_succeeded := by simp [enqueued]
  one_le_maxAttempts := task.policy.one_le_maxAttempts
  failures_le_maxAttempts := Nat.zero_le _
  failures_le_attempt := Nat.le_refl _
  active_budget := fun _ => task.policy.one_le_maxAttempts
  running_failures := by simp [enqueued]

theorem Lifecycle.claim {worker : Name} {token : Token} (h : t.Lifecycle)
    (hc : t.claim now clock leaseS worker token = some t') : t'.Lifecycle := by
  simp only [Row.claim, Option.ite_none_right_eq_some, Option.some.injEq] at hc
  obtain ⟨hq, rfl⟩ := hc
  have hf := h.failures_le_attempt
  have hb := h.active_budget (by simp [hq, State.active, State.terminal])
  exact {
    running_token := by simp
    token_lease := by simp
    terminal_finished := by
      have := h.terminal_finished
      simp only [hq, State.terminal] at this
      simpa [State.terminal] using this
    queued_uncancelled := by simp
    result_succeeded := by simp [h.result_none (by simp [hq])]
    one_le_maxAttempts := h.one_le_maxAttempts
    failures_le_maxAttempts := h.failures_le_maxAttempts
    failures_le_attempt := Nat.le_succ_of_le hf
    active_budget := fun _ => hb
    running_failures := fun _ => Nat.lt_succ_of_le hf }

theorem Lifecycle.heartbeat {token : Token} (h : t.Lifecycle)
    (hc : t.heartbeat clock leaseS token = some t') : t'.Lifecycle := by
  simp only [Row.heartbeat, Option.ite_none_right_eq_some, Option.some.injEq] at hc
  obtain ⟨⟨hr, ht⟩, rfl⟩ := hc
  exact { h with token_lease := by simp [ht] }

theorem Lifecycle.setProgress {token : Token} {progress : Jsonb} (h : t.Lifecycle)
    (hc : t.setProgress token progress = some t') : t'.Lifecycle := by
  simp only [Row.setProgress, Option.ite_none_right_eq_some, Option.some.injEq] at hc
  obtain ⟨-, rfl⟩ := hc
  exact { h with }

/-- The end of an attempt: the row gives up its token and charges at most one failure. -/
theorem Lifecycle.ended (h : t.Lifecycle) (hr : t.state = .running) (ht : t'.token = none)
    (hl : t'.leaseUntil = none) (ha : t'.attempt = t.attempt) (hm : t'.maxAttempts = t.maxAttempts)
    (hs : t'.state ≠ .running) (hf : t'.failures ≤ t.failures + 1)
    (hfin : t'.state.terminal ↔ t'.finishedAt.isSome)
    (hq : t'.state = .queued → t'.cancelRequestedAt = none ∧ t'.failures < t'.maxAttempts)
    (hres : t'.result.isSome ↔ t'.state = .succeeded) : t'.Lifecycle := by
  have hlt := h.running_failures hr
  have hb := h.active_budget (by simp [hr, State.active, State.terminal])
  exact {
    running_token := by simp [ht, hs]
    token_lease := by simp [ht, hl]
    terminal_finished := hfin
    queued_uncancelled := fun h => (hq h).1
    result_succeeded := hres
    one_le_maxAttempts := hm ▸ h.one_le_maxAttempts
    failures_le_maxAttempts := by omega
    failures_le_attempt := by omega
    active_budget := by
      intro hact
      cases hst : t'.state with
      | queued => exact (hq hst).2
      | running => exact absurd hst hs
      | _ => simp [hst, State.active, State.terminal] at hact
    running_failures := fun h => absurd h hs }

theorem Lifecycle.complete {c : Completion} (h : t.Lifecycle)
    (hc : t.complete now jitter c = some t') : t'.Lifecycle := by
  simp only [Row.complete, Option.ite_none_right_eq_some, Option.some.injEq] at hc
  obtain ⟨⟨hr, -, hk⟩, rfl⟩ := hc
  have hb := h.active_budget (by simp [hr, State.active, State.terminal])
  have hn := h.result_none (by simp [hr])
  have hd := c.succeed_data
  -- Where the row goes depends on the kind, on a pending cancel and on the rest of the budget.
  have hcancel := em (t.cancelRequestedAt = none)
  have hlast := Nat.lt_or_ge (t.failures + 1) t.maxAttempts
  refine h.ended hr rfl rfl rfl rfl ?_ ?_ ?_ ?_ ?_
  all_goals
    cases hkind : c.kind <;> rcases hcancel with hcancel | hcancel <;>
      rcases hlast with hlast | hlast <;>
      simp_all [Row.outcome, State.terminal, Option.isSome_iff_ne_none, Nat.not_lt.mpr]

theorem Lifecycle.requestCancel (h : t.Lifecycle) (hc : t.requestCancel now = some t') :
    t'.Lifecycle := by
  simp only [Row.requestCancel, Option.ite_none_right_eq_some, Option.some.injEq] at hc
  obtain ⟨hs, rfl⟩ := hc
  have htok := h.running_token
  have hlease := h.token_lease
  have hfin := h.terminal_finished
  have hres := h.result_succeeded
  have hb := h.active_budget
  rcases hs with hs | hs <;> simp only [hs] at htok hfin hres hb
  · constructor <;> simp_all [State.terminal, State.active, h.one_le_maxAttempts,
      h.failures_le_maxAttempts, h.failures_le_attempt]
  · constructor <;> simp_all [State.terminal, State.active, h.one_le_maxAttempts,
      h.failures_le_maxAttempts, h.failures_le_attempt, h.running_failures]

theorem Lifecycle.reap (h : t.Lifecycle) (hc : t.reap now jitter = some t') : t'.Lifecycle := by
  simp only [Row.reap, Row.reapable, Option.ite_none_right_eq_some, Option.some.injEq,
    Bool.and_eq_true, decide_eq_true_eq] at hc
  obtain ⟨⟨hr, -⟩, rfl⟩ := hc
  have hb := h.active_budget (by simp [hr, State.active, State.terminal])
  have hn := h.result_none (by simp [hr])
  have hcancel := em (t.cancelRequestedAt = none)
  have hlast := Nat.lt_or_ge (t.failures + 1) t.maxAttempts
  refine h.ended hr rfl rfl rfl rfl ?_ ?_ ?_ ?_ ?_
  all_goals
    rcases hcancel with hcancel | hcancel <;> rcases hlast with hlast | hlast <;>
      simp_all [State.terminal, Option.isSome_iff_ne_none, Nat.not_lt.mpr]

theorem Lifecycle.requeue (h : t.Lifecycle) (hc : t.requeue now = some t') : t'.Lifecycle := by
  simp only [Row.requeue, Option.ite_none_right_eq_some, Option.some.injEq] at hc
  obtain ⟨hs, rfl⟩ := hc
  have hn := h.result_none (by rcases hs with hs | hs <;> simp [hs])
  have hm := h.one_le_maxAttempts
  constructor <;> simp_all [State.terminal, State.active]
  omega

end Row

end Fronta
