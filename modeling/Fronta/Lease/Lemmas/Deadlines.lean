import Fronta.Lease.Lemmas.Bound

/-!
# Deadlines and late dispatches

A check of an attempt past its deadline stops it. A handler is started soon after its claim or after a
confirmed renewal, as long as nobody stops an attempt for another reason while its renewal is refused.
-/

namespace Fronta.Lease

open Sql
open Worker (Cause Ref)

variable {w : Env} {s s' : Sys} {action : Action} {x : Ref} {a a' : Attempt} {refs : List Ref}
  {waiter : Waiter}

/-! ## Checks -/

/-- The attempt was checked: past its deadline it has a cause, LOST unless it had one. -/
def Checked (w : Env) (now : Time) (a a' : Attempt) : Prop :=
  a'.overdue w.leaseS now = true → a'.cause = some (a.cause.getD .lost)

/-- At most a stop of what is overdue. -/
def Stopped (a a' : Attempt) : Prop :=
  a'.renewedAt = a.renewedAt ∧ (a'.cause = a.cause ∨ a'.cause = some (a.cause.getD .lost))

theorem Checked.stop {now : Time} {b : Attempt} (h : Checked w now a b) (hs : Stopped b a') :
    Checked w now a a' := by
  intro ho
  have hb : b.overdue w.leaseS now = true := by rwa [Attempt.overdue, ← hs.1]
  rcases hs.2 with hc | hc
  · rw [hc, h hb]
  · rw [hc, h hb, Option.getD_some]

theorem Stopped.check {now : Time} {b : Attempt} (hs : Stopped a b) (h : Checked w now b a') :
    Checked w now a a' := by
  intro ho
  rw [h ho]
  rcases hs.2 with hc | hc <;> rw [hc]
  rfl

theorem renewAttempts_sent : (s.renewAttempts w refs waiter).2 = !(s.live w refs).isEmpty := by
  unfold Sys.renewAttempts
  dsimp only
  split <;> simp_all

theorem renewAttempts_mapped : (s.renewAttempts w refs waiter).1.mapped = s.mapped := by
  unfold Sys.renewAttempts
  dsimp only
  split <;> rfl

theorem renewAttempts_monotonic : (s.renewAttempts w refs waiter).1.monotonic w = s.monotonic w := by
  rw [Sys.monotonic, (renewAttempts_rest refs waiter).2.2.2]
  rfl

/-- A handler that was started was started in time. -/
def Timely (w : Env) (a : Attempt) : Prop :=
  ∀ τ, a.started = some τ → τ - a.claimedAt ≤ w.heartbeatS ∨
    ∃ r ∈ a.confirmed, a.claimedAt ≤ r.1 ∧ r.1 ≤ r.2 ∧ r.2 ≤ τ

/-- What the late dispatches of a state have behind them. -/
structure Refreshing (w : Env) (s : Sys) : Prop where
  confirmed : ∀ x a, s.objects.get x = some a → ∀ r ∈ a.confirmed,
    a.claimedAt ≤ r.1 ∧ r.1 ≤ r.2 ∧ r.2 ≤ s.monotonic w
  waiting : ∀ c call x, s.calls.get c = some call → call.waiter = .attempt x → x ∈ call.attempts ∧
    ∀ a, s.objects.get x = some a → w.heartbeatS < s.monotonic w - a.claimedAt

theorem refreshing_init : Refreshing w Sys.init :=
  ⟨(fun _ _ h => by cases h), fun _ _ _ h => by cases h⟩

theorem renewed_confirmed {started now : Time} {beat : Option (Option Time)} {r : Time × Time}
    (h : r ∈ (a.renewed started now beat).confirmed) :
    r ∈ a.confirmed ∨ beat.isSome ∧ r = (started, now) := by
  unfold Attempt.renewed at h
  split at h
  · exact Or.inl h
  · have : r ∈ a.confirmed ++ [(started, now)] := by
      dsimp only at h
      split at h <;> exact h
    rcases List.mem_append.mp this with h | h
    · exact Or.inl h
    · exact Or.inr ⟨rfl, List.mem_singleton.mp h⟩

theorem Refreshing.step (h : Core w s) (hb : Bounded w s) (hr : Refreshing w s)
    (hs : s.step w action = some s') : Refreshing w s' where
  confirmed x a ha r hm := by
    have hmono := monotonic_le (w := w) (clock_rest (rest_step hs))
    rcases attempt_step hs ha with ⟨-, k, issuedAt, rows, row, -, -, -, rfl⟩ | ⟨b, hx, hc⟩
    · cases hm
    · have hold : ∀ {r}, r ∈ b.confirmed → b.claimedAt ≤ r.1 ∧ r.1 ≤ r.2 ∧ r.2 ≤ s'.monotonic w :=
        fun hm => by
          obtain ⟨h₁, h₂, h₃⟩ := hr.confirmed x b hx _ hm
          exact ⟨h₁, h₂, h₃.trans hmono⟩
      rw [hc.same.2.2]
      cases hc with
      | quiet hq => exact hold (hq.confirmed ▸ hm)
      | start => exact hold hm
      | @reply c call beats b' a hcall hst hw hheard hq =>
          have hm' : r ∈ b'.confirmed := by
            rcases hq with hq | ⟨-, -, rfl⟩
            · exact hq.confirmed ▸ hm
            · exact hm
          rcases hheard with ⟨-, rfl⟩ | ⟨hx', rfl⟩
          · exact hold hm'
          · rcases renewed_confirmed hm' with hm' | ⟨-, rfl⟩
            · exact hold hm'
            · exact ⟨((hb.sent c call hcall x hx').2 b hx).2, (h.sent c call hcall).1, hmono⟩
  waiting c call x hc hw := by
    have hmono := monotonic_le (w := w) (clock_rest (rest_step hs))
    rcases call_step hs hc with ⟨-, refs, waiter, hren, hlive, rfl⟩ | ⟨call₀, hc₀, hmade, -⟩
    · cases hren with
      | @begin y b hy hp hlate =>
          cases hw
          obtain ⟨z, hz⟩ := List.exists_mem_of_ne_nil _ hlive
          have hzx := List.mem_singleton.mp (List.mem_filter.mp hz).1
          subst hzx
          refine ⟨hz, fun a ha => ?_⟩
          rcases attempt_step hs ha with ⟨hle, -⟩ | ⟨b', hb', hc⟩
          · exact absurd (Table.lt_of_get hy) (Nat.not_lt.mpr hle)
          · cases hy.symm.trans hb'
            rw [hc.same.2.2]
            linarith only [hlate, hmono]
      | send => cases hw
    · rw [hmade.waiter] at hw
      obtain ⟨hx, hlate⟩ := hr.waiting c call₀ x hc₀ hw
      rw [hmade.attempts]
      refine ⟨hx, fun a ha => ?_⟩
      rcases attempt_step hs ha with ⟨hle, -⟩ | ⟨b, hb', hc⟩
      · exact absurd (hb.sent c call₀ hc₀ x hx).1 (Nat.not_lt.mpr hle)
      · have := hlate b hb'
        rw [hc.same.2.2]
        linarith only [this, hmono]

/-- A step that disturbs no late dispatch starts handlers in time. -/
theorem Timely.step (h : Core w s) (hb : Bounded w s) (hr : Refreshing w s)
    (ht : ∀ x a, s.objects.get x = some a → Timely w a) (hs : s.step w action = some s')
    (hok : s.undisturbed action = true) : ∀ x a, s'.objects.get x = some a → Timely w a := by
  intro x a ha τ hτ
  rcases attempt_step hs ha with ⟨-, k, issuedAt, rows, row, -, -, -, rfl⟩ | ⟨b, hx, hc⟩
  · cases hτ
  rw [hc.same.2.2]
  cases hc with
  | quiet hq =>
      rw [hq.started] at hτ
      rw [hq.confirmed]
      exact ht x b hx τ hτ
  | start _ hfresh =>
      cases hτ
      exact Or.inl hfresh
  | @reply c call beats b' a hcall hst hw hheard hq =>
      have hgrown : ∀ r ∈ b.confirmed, r ∈ b'.confirmed := by
        intro r hm
        rcases hheard with ⟨-, rfl⟩ | ⟨-, rfl⟩
        · exact hm
        · unfold Attempt.renewed
          split
          · exact hm
          · dsimp only
            split <;> exact List.mem_append_left _ hm
      rcases hq with hq | ⟨hwaiter, hcause, rfl⟩
      · rw [hq.started, hheard.same.2.2.2] at hτ
        rw [hq.confirmed]
        exact (ht x b hx τ hτ).imp_right fun ⟨r, hm, hle⟩ => ⟨r, hgrown r hm, hle⟩
      · cases hτ
        refine Or.inr ?_
        obtain ⟨hx', -⟩ := hr.waiting c call x hcall hwaiter
        rcases hheard with ⟨hn, -⟩ | ⟨-, rfl⟩
        · exact absurd hx' hn
        -- the reply has renewed the lease, or an earlier one has
        cases hbeat : beats.lookup b.row with
        | some flag =>
            refine ⟨(call.started, s.monotonic w), ?_, ((hb.sent c call hcall x hx').2 b hx).2,
              (h.sent c call hcall).1, le_rfl⟩
            simp only [Attempt.start, Attempt.renewed]
            split <;> exact List.mem_append_right _ (List.mem_singleton_self _)
        | none =>
            rw [hbeat] at hcause
            have hok : b.cause = none ∨ b.cause = some .lost ∨ b.confirmed ≠ [] := by
              simpa [Sys.undisturbed, hcall, hst, hwaiter, hx, hbeat, or_assoc] using hok
            rcases hok with hc | hc | hc
            · exact absurd (by simp [Attempt.renewed, Attempt.stop, hc]) hcause
            · exact absurd (by simp [Attempt.renewed, Attempt.stop, hc]) hcause
            · obtain ⟨r, hm⟩ := List.exists_mem_of_ne_nil _ hc
              have hm' := hgrown r hm
              rw [hbeat] at hm'
              exact ⟨r, hm', hr.confirmed x b hx r hm⟩

end Fronta.Lease
