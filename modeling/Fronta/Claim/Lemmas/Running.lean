import Fronta.Claim.System
import Fronta.Store.Lemmas.Statements

/-!
# Running rows and their identity

Only a claim adds running rows, and no statement changes the type or the concurrency key of a row.
-/

namespace Fronta

open Sql

theorem RowOp.running_of_apply {move : RowOp} {t t' : Row} (ha : move.apply t = some t')
    (hr : t'.state = .running) (hn : move.isClaim = false) : t.state = .running := by
  cases move <;>
    simp only [apply, Row.claim, Row.heartbeat, Row.setProgress, Row.complete, Row.requestCancel,
      Row.reap, Row.requeue, Option.ite_none_right_eq_some, Option.some.injEq] at ha <;>
    obtain ⟨hw, rfl⟩ := ha <;> simp_all [isClaim, Row.reapable]
  case requestCancel now =>
    split at hr
    · cases hr
    · exact hr

namespace Claim

/-- The id is taken, and a row stored under it has this type and key. -/
def RowFits (tasks : Table Row) (id : TaskId) (y : Name × Option String) : Prop :=
  id < tasks.next ∧ ∀ t, tasks.get id = some t → (t.type, t.concurrencyKey) = y

variable {db : Db} {op : Op} {id : TaskId} {y : Name × Option String} {t t' : Row}

theorem RowFits.exec (h : RowFits db.tasks id y) (op : Op) : RowFits (db.exec op).tasks id y := by
  refine ⟨h.1.trans_le Db.exec_next_le, fun t' ht' => ?_⟩
  cases Db.exec_origin ht' with
  | kept ht => exact h.2 t' ht
  | moved ht _ ha =>
      obtain ⟨h₁, -, h₂⟩ := RowOp.apply_identity ha
      rw [h₁, h₂]
      exact h.2 _ ht
  | inserted _ hi => exact absurd hi (Nat.ne_of_lt h.1)

/-- A row that runs after a statement other than a claim ran before it. -/
theorem exec_running (ho : Sys.others op = true) (h : (db.exec op).tasks.get id = some t')
    (hr : t'.state = .running) : ∃ t, db.tasks.get id = some t ∧ t.state = .running ∧
      t.type = t'.type ∧ t.concurrencyKey = t'.concurrencyKey := by
  cases Db.exec_origin h with
  | kept ht => exact ⟨t', ht, hr, rfl, rfl⟩
  | moved ht hp ha =>
      obtain ⟨h₁, -, h₂⟩ := RowOp.apply_identity ha
      refine ⟨_, ht, RowOp.running_of_apply ha hr ?_, h₁.symm, h₂.symm⟩
      rw [← Op.claims_of_performs hp ha]
      cases op <;> first | rfl | cases ho
  | inserted _ _ he => rw [he] at hr; cases hr

/-- Statements other than a claim add no running row of any kind. -/
theorem exec_count_le (ho : Sys.others op = true) (q : Name × Option String → Bool) :
    (db.exec op).tasks.count (fun t => q (t.type, t.concurrencyKey) && t.state = .running) ≤
      db.tasks.count fun t => q (t.type, t.concurrencyKey) && t.state = .running := by
  refine Table.count_le fun i t' ht' hp => ?_
  simp only [Bool.and_eq_true, decide_eq_true_eq] at hp
  obtain ⟨t, ht, hr, h₁, h₂⟩ := exec_running ho ht' hp.2
  exact ⟨t, ht, by simp [h₁, h₂, hp.1, hr]⟩

/-- The ids of the admitted rows with `q`. -/
theorem exists_admitted {tasks : Table Row} {ids : List TaskId}
    {reserved : List (Name × Option String)} (h : List.Forall₂ (RowFits tasks) ids reserved)
    (q : Name × Option String → Bool) : ∃ l : List TaskId, l.length = (reserved.filter q).length ∧
      ∀ id ∈ ids, ∀ t, tasks.get id = some t → q (t.type, t.concurrencyKey) = true → id ∈ l := by
  induction h with
  | nil => exact ⟨[], rfl, by simp⟩
  | @cons i y ids reserved hi _ ih =>
      obtain ⟨l, hl, hm⟩ := ih
      cases hq : q y with
      | true =>
          refine ⟨i :: l, by simp [hq, hl], fun id hid t ht hqt => ?_⟩
          rcases List.mem_cons.mp hid with rfl | hid
          · exact List.mem_cons_self
          · exact List.mem_cons_of_mem _ (hm id hid t ht hqt)
      | false =>
          refine ⟨l, by simp [hq, hl], fun id hid t ht hqt => ?_⟩
          rcases List.mem_cons.mp hid with rfl | hid
          · rw [hi.2 t ht, hq] at hqt; cases hqt
          · exact hm id hid t ht hqt

theorem exists_reserved {tasks : Table Row} {ids : List TaskId}
    {reserved : List (Name × Option String)} (h : List.Forall₂ (RowFits tasks) ids reserved)
    (hid : id ∈ ids) : ∃ y ∈ reserved, RowFits tasks id y := by
  induction h with
  | nil => cases hid
  | cons hi _ ih =>
      rcases List.mem_cons.mp hid with rfl | hid
      · exact ⟨_, List.mem_cons_self, hi⟩
      · obtain ⟨y, hy, hf⟩ := ih hid
        exact ⟨y, List.mem_cons_of_mem _ hy, hf⟩

/-- A claim adds at most the rows that it reserved. -/
theorem claim_count_le {ids : List TaskId} {reserved : List (Name × Option String)} (now : Time)
    (clock : TaskId → Time) (leaseS : ℚ) (worker : Name) (tokens : TaskId → Token)
    (h : List.Forall₂ (RowFits db.tasks) ids reserved) (q : Name × Option String → Bool) :
    (db.claim now clock leaseS worker tokens ids).2.tasks.count
        (fun t => q (t.type, t.concurrencyKey) && t.state = .running) ≤
      db.tasks.count (fun t => q (t.type, t.concurrencyKey) && t.state = .running) +
        (reserved.filter q).length := by
  obtain ⟨l, hl, hm⟩ := exists_admitted h q
  rw [← hl]
  refine Table.count_le_add fun i t' ht' hp => ?_
  obtain ⟨t, ht, ⟨-, rfl⟩ | hf⟩ := Table.get_update_cases ht'
  · exact Or.inl ⟨_, ht, hp⟩
  · obtain ⟨hi, hc⟩ := Option.ite_none_right_eq_some.mp hf
    obtain ⟨h₁, -, h₂⟩ := RowOp.apply_identity
      (show RowOp.apply (.claim now (clock i) leaseS worker (tokens i)) _ = some _ from hc)
    simp only [Bool.and_eq_true] at hp
    rw [h₁, h₂] at hp
    exact Or.inr (hm i hi t ht hp.1)

/-! ## The two counts of the function -/

theorem running_eq (tasks : Table Row) (type : Name) : running tasks type =
    tasks.count fun t => (fun y : Name × Option String => decide (y.1 = type))
      (t.type, t.concurrencyKey) && t.state = .running := rfl

theorem runningKey_eq (tasks : Table Row) (type : Name) (key : String) :
    runningKey tasks type key =
      tasks.count fun t => (fun y : Name × Option String => decide (y = (type, some key)))
        (t.type, t.concurrencyKey) && t.state = .running := by
  simp [runningKey, Prod.ext_iff]

end Claim

end Fronta
