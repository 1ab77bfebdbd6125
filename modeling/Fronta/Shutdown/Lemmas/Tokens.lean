import Fronta.Completions.Lemmas.Steps
import Fronta.Orphans.Lemmas.Release
import Fronta.Shutdown.System

/-!
# Tokens that do not come back

A token that was given out and is not on its row stays away from it, and a row keeps its cancel request for as
long as it keeps its token.
-/

namespace Fronta

open Sql

theorem RowOp.apply_cancel {op : RowOp} {t t' : Row} (ha : op.apply t = some t') (ht : t'.token ≠ none)
    (hc : t.cancelRequestedAt ≠ none) : t'.cancelRequestedAt ≠ none := by
  cases op <;>
    simp only [apply, Row.claim, Row.heartbeat, Row.setProgress, Row.complete, Row.requestCancel,
      Row.reap, Row.requeue, Option.ite_none_right_eq_some, Option.some.injEq] at ha <;>
    obtain ⟨-, rfl⟩ := ha <;> simp_all

theorem Db.exec_cancel {db : Db} {op : Op} {i : TaskId} {t t' : Row} (h : db.tasks.get i = some t)
    (h' : (db.exec op).tasks.get i = some t') (ht : t'.token ≠ none) (hc : t.cancelRequestedAt ≠ none) :
    t'.cancelRequestedAt ≠ none := by
  cases exec_origin h' with
  | kept hk =>
      cases h.symm.trans hk
      exact hc
  | moved hk _ ha =>
      cases h.symm.trans hk
      exact RowOp.apply_cancel ha ht hc
  | inserted _ _ he =>
      subst he
      exact absurd rfl ht

namespace Orphans.Sys

variable {s s' : Sys} {action : Action} {i : TaskId} {token : Token} {t' : Row}

/-- The worker's part of a step. -/
theorem act_spec {action : Worker.Sys.Action} (h : s.step (.worker action) = some s') :
    ∃ w, s.worker.step action = some w ∧ s.admits action = true ∧
      s.fresh ((executes action).elim [] Fencing.Sys.tokensOf) = true ∧
      s' = { s with
        worker := w
        issued := s.issued ++ (executes action).elim [] Fencing.Sys.tokensOf } := by
  cases moves_of_step h with
  | worker hw ha hf => exact ⟨_, hw, ha, hf, rfl⟩

theorem issued_step (h : s.step action = some s') (hi : token ∈ s.issued) : token ∈ s'.issued := by
  cases moves_of_step h with
  | worker => exact List.mem_append_left _ hi
  | _ => exact hi

/-- A token that is on its row after a step, and was issued before, was there before, and so was a cancel
request. -/
theorem token_step (h : s.step action = some s') (hi : token ∈ s.issued)
    (ht : s'.worker.db.tasks.get i = some t') (htok : t'.token = some token) :
    ∃ t, s.worker.db.tasks.get i = some t ∧ t.token = some token ∧ t'.worker = t.worker ∧
      (t.cancelRequestedAt ≠ none → t'.cancelRequestedAt ≠ none) := by
  have hsame : s'.worker.db = s.worker.db → ∃ t, s.worker.db.tasks.get i = some t ∧
      t.token = some token ∧ t'.worker = t.worker ∧
      (t.cancelRequestedAt ≠ none → t'.cancelRequestedAt ≠ none) := fun hdb =>
    ⟨t', hdb ▸ ht, htok, rfl, id⟩
  cases moves_of_step h with
  | worker hw _ hf =>
      rcases Worker.Sys.db_step hw with hdb | ⟨op, hdb, hop⟩
      · exact hsame hdb
      · have hnew : token ∉ Fencing.Sys.tokensOf op := fun hm =>
          (List.nodup_append.mp (of_decide_eq_true hf)).2.2 _ hi _ (hop ▸ hm) rfl
        have ht : (s.worker.db.exec op).tasks.get i = some t' := hdb ▸ ht
        obtain ⟨t, ht₀, htok₀, hw⟩ := Db.exec_same_token hnew ht htok
        exact ⟨t, ht₀, htok₀, hw, Db.exec_cancel ht₀ ht (by simp [htok])⟩
  | commit =>
      rcases Db.applyOutcomes_cases ht with ht | ⟨t, c, -, -, -, -, -, ha⟩
      · exact ⟨t', ht, htok, rfl, id⟩
      · -- an applied outcome clears the token
        obtain ⟨-, ha⟩ := Option.ite_none_right_eq_some.mp ha
        cases ha
        cases htok
  | _ => exact hsame rfl

end Orphans.Sys

end Fronta
