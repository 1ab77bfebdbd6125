import Fronta.Store.Lemmas.Lifecycle

/-!
# What one statement does to one row

Every statement leaves a row alone, takes it through one row transition, inserts it or purges it. The
run lemmas follow from this inversion.
-/

namespace Fronta

open Sql

/-! ## Row transitions -/

namespace RowOp

variable {op : RowOp} {t t' : Row}

theorem apply_lifecycle (h : t.Lifecycle) (ha : op.apply t = some t') : t'.Lifecycle := by
  cases op with
  | claim => exact h.claim ha
  | heartbeat => exact h.heartbeat ha
  | setProgress => exact h.setProgress ha
  | complete => exact h.complete ha
  | requestCancel => exact h.requestCancel ha
  | reap => exact h.reap ha
  | requeue => exact h.requeue ha

theorem apply_attempt (ha : op.apply t = some t') :
    t'.attempt = t.attempt + if op.isClaim then 1 else 0 := by
  cases op <;>
    simp only [apply, Row.claim, Row.heartbeat, Row.setProgress, Row.complete, Row.requestCancel,
      Row.reap, Row.requeue, Option.ite_none_right_eq_some, Option.some.injEq] at ha <;>
    obtain ⟨-, rfl⟩ := ha <;> simp [isClaim]

theorem apply_identity (ha : op.apply t = some t') :
    t'.type = t.type ∧ t'.key = t.key ∧ t'.concurrencyKey = t.concurrencyKey := by
  cases op <;>
    simp only [apply, Row.claim, Row.heartbeat, Row.setProgress, Row.complete, Row.requestCancel,
      Row.reap, Row.requeue, Option.ite_none_right_eq_some, Option.some.injEq] at ha <;>
    obtain ⟨-, rfl⟩ := ha <;> simp

theorem not_succeeded (ha : op.apply t = some t') : t.state ≠ .succeeded := by
  intro h
  cases op <;>
    simp [apply, Row.claim, Row.heartbeat, Row.setProgress, Row.complete, Row.requestCancel,
      Row.reap, Row.reapable, Row.requeue, h] at ha

theorem queued_of_cancel_pending (h : t.Lifecycle) (hp : t.cancelRequestedAt.isSome)
    (ha : op.apply t = some t') (hq : t'.state = .queued) : op.isRequeue = true := by
  have hn := h.queued_uncancelled
  cases op <;>
    simp only [apply, Row.claim, Row.heartbeat, Row.setProgress, Row.complete, Row.requestCancel,
      Row.reap, Row.requeue, Option.ite_none_right_eq_some, Option.some.injEq] at ha <;>
    obtain ⟨hw, rfl⟩ := ha <;> simp_all [isRequeue, Option.isSome_iff_ne_none]
  case complete now jitter c =>
    cases hk : c.kind <;> simp_all [Row.outcome]

theorem claim_queued (hc : op.isClaim) (ha : op.apply t = some t') : t.state = .queued := by
  cases op <;> simp_all [isClaim, apply, Row.claim]

end RowOp

/-! ## Statements -/

/-- The claim admits this row: it lists the id and the row is queued. -/
def Op.claims : Op → TaskId → Row → Bool
  | .claim _ _ _ _ _ ids, id, t => ids.contains id && t.state = .queued
  | _, _, _ => false

/-- The statement is a manual requeue of this task. -/
def Op.requeues : Op → TaskId → Bool
  | .requeue _ i, id => i = id
  | _, _ => false

/-- The transition that a statement applies to this task where the row admits it. -/
def Op.performs : Op → TaskId → RowOp → Prop
  | .claim now clock leaseS worker tokens ids, id, move =>
      id ∈ ids ∧ move = .claim now (clock id) leaseS worker (tokens id)
  | .heartbeat clock leaseS renewals, id, move =>
      ∃ token, (id, token) ∈ renewals ∧ move = .heartbeat (clock id) leaseS token
  | .setProgress i token progress, id, move => i = id ∧ move = .setProgress token progress
  | .complete now jitter completions, id, move =>
      ∃ c ∈ completions, c.id = id ∧ move = .complete now (jitter id) c
  | .releaseOrphans now jitter _ _, id, move =>
      ∃ c : Completion, c.kind = .release ∧ c.id = id ∧ move = .complete now (jitter id) c
  | .requestCancel now i, id, move => i = id ∧ move = .requestCancel now
  | .reap now jitter _ _, id, move => move = .reap now (jitter id)
  | .requeue now i, id, move => i = id ∧ move = .requeue now
  | _, _, _ => False

theorem Op.claims_of_performs {op : Op} {id : TaskId} {move : RowOp} {t t' : Row}
    (hp : op.performs id move) (ha : move.apply t = some t') : op.claims id t = move.isClaim := by
  cases op <;> simp only [Op.performs] at hp
  case claim =>
    obtain ⟨hi, rfl⟩ := hp
    simp [Op.claims, RowOp.isClaim, hi, RowOp.claim_queued rfl ha]
  all_goals simp only [Op.claims]
  case heartbeat => obtain ⟨_, _, rfl⟩ := hp; rfl
  case setProgress => obtain ⟨_, rfl⟩ := hp; rfl
  case complete => obtain ⟨_, _, _, rfl⟩ := hp; rfl
  case releaseOrphans => obtain ⟨_, _, _, rfl⟩ := hp; rfl
  case requestCancel => obtain ⟨_, rfl⟩ := hp; rfl
  case reap => subst hp; rfl
  case requeue => obtain ⟨_, rfl⟩ := hp; rfl

theorem Op.requeues_of_performs {op : Op} {id : TaskId} {move : RowOp}
    (hp : op.performs id move) (hr : move.isRequeue) : op.requeues id := by
  cases op <;> simp only [Op.performs] at hp
  case requeue => simp [Op.requeues, hp.1]
  case reap => subst hp; cases hr
  case claim => obtain ⟨_, rfl⟩ := hp; cases hr
  case heartbeat => obtain ⟨_, _, rfl⟩ := hp; cases hr
  case setProgress => obtain ⟨_, rfl⟩ := hp; cases hr
  case complete => obtain ⟨_, _, _, rfl⟩ := hp; cases hr
  case releaseOrphans => obtain ⟨_, _, _, rfl⟩ := hp; cases hr
  case requestCancel => obtain ⟨_, rfl⟩ := hp; cases hr

/-- Where a row comes from: the statement left it, moved it or inserted it. -/
inductive Db.RowOrigin (db : Db) (op : Op) (id : TaskId) (t' : Row) : Prop
  | kept : db.tasks.get id = some t' → op.claims id t' = false → Db.RowOrigin db op id t'
  | moved {t move} : db.tasks.get id = some t → op.performs id move →
      RowOp.apply move t = some t' → Db.RowOrigin db op id t'
  | inserted {now task} : op = .enqueue now task → id = db.tasks.next →
      t' = Row.enqueued now task → Db.RowOrigin db op id t'

namespace Db

variable {db : Db} {op : Op} {id : TaskId} {t t' : Row}

@[simp] theorem publish_tasks {now : Time} {l : List Applied} :
    (db.publish now l).tasks = db.tasks := rfl

@[simp] theorem publish_subscriptions {now : Time} {l : List Applied} :
    (db.publish now l).subscriptions = db.subscriptions := rfl

@[simp] theorem withEvents_tasks {now : Time} {f : TaskId → Row → Option Row} {p : Applied → Bool} :
    (db.withEvents now f p).2.tasks = db.tasks.update f := rfl

/-- An update by a statement other than a claim. -/
theorem RowOrigin.of_update {f : TaskId → Row → Option Row} (hop : ∀ i t, op.claims i t = false)
    (hf : ∀ t t', f id t = some t' → ∃ move, op.performs id move ∧ move.apply t = some t')
    (h : (db.tasks.update f).get id = some t') : db.RowOrigin op id t' := by
  obtain ⟨t, ht, ⟨-, rfl⟩ | hs⟩ := Table.get_update_cases h
  · exact .kept ht (hop _ _)
  · obtain ⟨move, hp, hm⟩ := hf t t' hs
    exact .moved ht hp hm

theorem outcomeOf_spec {outcomes : List Completion} {c : Completion}
    (h : outcomeOf outcomes id t = some c) : c ∈ outcomes ∧ c.id = id ∧ t.token = some c.token :=
  ⟨List.mem_of_find?_eq_some h, by simpa using List.find?_some h⟩

theorem mem_orphans {worker : Name} {live : List TaskId} {c : Completion}
    (h : c ∈ db.orphans worker live) : c.kind = .release ∧ c.id ∉ live ∧
      ∃ t, db.tasks.get c.id = some t ∧ t.worker = some worker ∧ t.state = .running ∧
        t.token = some c.token := by
  obtain ⟨⟨i, t⟩, hx, hc⟩ := List.mem_filterMap.mp h
  obtain ⟨token, ht, rfl⟩ := Option.map_eq_some_iff.mp hc
  have hx := List.mem_filter.mp (List.mem_of_mem_take hx)
  simp only [Bool.and_eq_true, decide_eq_true_eq, Bool.not_eq_true', List.contains_eq_mem,
    decide_eq_false_iff_not] at hx
  exact ⟨rfl, hx.2.2, t, Table.mem_entries.mp hx.1, hx.2.1.1, hx.2.1.2, ht⟩

theorem enqueue_tasks (db : Db) (now : Time) (task : NewTask) :
    ((db.enqueue now task).map Prod.snd).toOption.getD db = db ∨
      (((db.enqueue now task).map Prod.snd).toOption.getD db).tasks =
        db.tasks.insert (Row.enqueued now task) := by
  unfold Db.enqueue
  cases task.check with
  | error e => exact Or.inl rfl
  | ok u =>
      cases hk : db.findActiveByKey task.type task.key with
      | some i => exact Or.inl (by simp; rfl)
      | none => exact Or.inr (by simp; rfl)

theorem complete_cases (db : Db) (now : Time) (jitter : TaskId → ℚ) (completions : List Completion) :
    ((db.complete now jitter completions).map Prod.snd).toOption.getD db = db ∨
      ((db.complete now jitter completions).map Prod.snd).toOption.getD db =
        (db.applyOutcomes now jitter completions).2 := by
  unfold Db.complete
  split
  · exact Or.inl rfl
  · split
    · exact Or.inl rfl
    · exact Or.inr rfl

theorem requeue_cases (db : Db) (now : Time) (id : TaskId) :
    ((db.requeue now id).map Prod.snd).toOption.getD db = db ∨
      ((db.requeue now id).map Prod.snd).toOption.getD db =
        (db.withEvents now (fun i t => if i = id then t.requeue now else none) fun _ => true).2 := by
  unfold Db.requeue
  split
  · exact Or.inl rfl
  · split
    · exact Or.inl rfl
    · split
      · exact Or.inl rfl
      · exact Or.inr rfl

theorem exec_origin (h : (db.exec op).tasks.get id = some t') : db.RowOrigin op id t' := by
  cases op with
  | enqueue now task =>
      rcases enqueue_tasks db now task with he | he
      · exact .kept (by simpa [exec, he] using h) rfl
      · rw [exec, he] at h
        rcases Table.get_insert_cases h with ⟨hi, ht⟩ | hg
        · exact .inserted rfl hi ht
        · exact .kept hg rfl
  | claim now clock leaseS worker tokens ids =>
      obtain ⟨t, ht, ⟨hf, rfl⟩ | hf⟩ := Table.get_update_cases h
      · refine .kept ht ?_
        by_cases hi : id ∈ ids <;> simp_all [Op.claims, Row.claim]
      · obtain ⟨hi, hc⟩ := Option.ite_none_right_eq_some.mp hf
        exact .moved ht ⟨hi, rfl⟩ hc
  | heartbeat clock leaseS renewals =>
      refine .of_update (fun _ _ => rfl) ?_ h
      intro t t' hf
      obtain ⟨⟨i, token⟩, hfind, hr⟩ := Option.bind_eq_some_iff.mp hf
      have hi : i = id := by
        have := List.find?_some hfind
        simp only [Bool.and_eq_true, decide_eq_true_eq] at this
        exact this.1
      exact ⟨_, ⟨token, hi ▸ List.mem_of_find?_eq_some hfind, rfl⟩, hr⟩
  | setProgress i token progress =>
      refine .of_update (fun _ _ => rfl) ?_ h
      intro t t' hf
      obtain ⟨hi, hs⟩ := Option.ite_none_right_eq_some.mp hf
      exact ⟨_, ⟨hi.symm, rfl⟩, hs⟩
  | complete now jitter completions =>
      rcases complete_cases db now jitter completions with he | he
      · exact .kept (by simpa [exec, he] using h) rfl
      · rw [exec, he] at h
        refine .of_update (fun _ _ => rfl) ?_ h
        intro t t' hf
        obtain ⟨c, hc, hs⟩ := Option.bind_eq_some_iff.mp hf
        obtain ⟨hm, hi, -⟩ := outcomeOf_spec hc
        exact ⟨_, ⟨c, hm, hi, rfl⟩, hs⟩
  | releaseOrphans now jitter worker live =>
      refine .of_update (fun _ _ => rfl) ?_ h
      intro t t' hf
      obtain ⟨c, hc, hs⟩ := Option.bind_eq_some_iff.mp hf
      obtain ⟨hm, hi, -⟩ := outcomeOf_spec hc
      exact ⟨_, ⟨c, (mem_orphans hm).1, hi, rfl⟩, hs⟩
  | requestCancel now i =>
      refine .of_update (fun _ _ => rfl) ?_ h
      intro t t' hf
      obtain ⟨hi, hs⟩ := Option.ite_none_right_eq_some.mp hf
      exact ⟨_, ⟨hi.symm, rfl⟩, hs⟩
  | reap now jitter limit busy =>
      refine .of_update (fun _ _ => rfl) ?_ h
      intro t t' hf
      exact ⟨_, rfl, (Option.ite_none_right_eq_some.mp hf).2⟩
  | requeue now i =>
      rcases requeue_cases db now i with he | he
      · exact .kept (by simpa [exec, he] using h) rfl
      · rw [exec, he] at h
        refine .of_update (fun _ _ => rfl) ?_ h
        intro t t' hf
        obtain ⟨hi, hs⟩ := Option.ite_none_right_eq_some.mp hf
        exact ⟨_, ⟨hi.symm, rfl⟩, hs⟩
  | purgeTasks now retentionS batch busy => exact .kept (Table.get_erase_eq_some.mp h).1 rfl

theorem selectFree_spec {busy : TaskId → Bool} {p : Row → Bool} {key : Row → Option Time}
    {limit : ℕ} (hi : id ∈ db.selectFree busy p key limit) (ht : db.tasks.get id = some t) :
    p t = true ∧ busy id = false := by
  obtain ⟨⟨i, u⟩, hx, rfl⟩ := List.mem_map.mp hi
  have hx := List.mem_filter.mp (mem_of_mem_orderLimit hx)
  obtain rfl := Option.some.inj ((Table.mem_entries.mp hx.1).symm.trans ht)
  simpa using hx.2

/-- Only a purge removes a row, and only one that was terminal and past the retention. -/
theorem exec_removed (ht : db.tasks.get id = some t) (h : (db.exec op).tasks.get id = none) :
    ∃ now retentionS batch busy, op = .purgeTasks now retentionS batch busy ∧
      t.purgeable now retentionS = true := by
  have hup : ∀ f : TaskId → Row → Option Row, (db.tasks.update f).get id ≠ none := by
    intro f; simp [Table.get_update, ht]
  have hid : db.tasks.get id ≠ none := by simp [ht]
  cases op with
  | purgeTasks now retentionS batch busy =>
      refine ⟨now, retentionS, batch, busy, rfl, ?_⟩
      have hp : id ∈ db.selectFree busy (Row.purgeable now retentionS) Row.finishedAt batch := by
        by_contra hn
        have : (db.exec (.purgeTasks now retentionS batch busy)).tasks.get id = some t :=
          Table.get_erase_eq_some.mpr ⟨ht, by simpa using hn⟩
        rw [h] at this; cases this
      exact (selectFree_spec hp ht).1
  | enqueue now task =>
      rcases enqueue_tasks db now task with he | he
      · rw [exec, he] at h; exact absurd h hid
      · rw [exec, he, Table.get_insert_of_get ht] at h; cases h
  | complete now jitter completions =>
      rcases complete_cases db now jitter completions with he | he
      · rw [exec, he] at h; exact absurd h hid
      · rw [exec, he] at h; exact absurd h (hup _)
  | requeue now i =>
      rcases requeue_cases db now i with he | he
      · rw [exec, he] at h; exact absurd h hid
      · rw [exec, he] at h; exact absurd h (hup _)
  | _ => exact absurd h (hup _)

/-! ## Runs -/

@[simp] theorem execAll_nil : db.execAll [] = db := rfl

theorem execAll_append {ops ops' : List Op} :
    db.execAll (ops ++ ops') = (db.execAll ops).execAll ops' := List.foldl_append

/-- Every stored row satisfies the lifecycle invariant. -/
def RowsOk (db : Db) : Prop := ∀ id t, db.tasks.get id = some t → t.Lifecycle

theorem rowsOk_init : init.RowsOk := by intro id t h; cases h

theorem RowsOk.exec (h : db.RowsOk) (op : Op) : (db.exec op).RowsOk := by
  intro id t' ht'
  cases exec_origin ht' with
  | kept ht => exact h id t' ht
  | moved ht _ ha => exact RowOp.apply_lifecycle (h _ _ ht) ha
  | inserted _ _ he => exact he ▸ Row.lifecycle_enqueued _ _

theorem RowsOk.execAll (h : db.RowsOk) (ops : List Op) : (db.execAll ops).RowsOk := by
  induction ops generalizing db with
  | nil => exact h
  | cons op ops ih => exact ih (h.exec op)

theorem exec_next_le : db.tasks.next ≤ (db.exec op).tasks.next := by
  cases op with
  | enqueue now task =>
      rcases enqueue_tasks db now task with he | he
      · rw [exec, he]
      · rw [exec, he]; exact Nat.le_succ _
  | complete now jitter completions =>
      rcases complete_cases db now jitter completions with he | he
      · rw [exec, he]
      · rw [exec, he]; exact Nat.le_refl _
  | requeue now i =>
      rcases requeue_cases db now i with he | he
      · rw [exec, he]
      · rw [exec, he]; exact Nat.le_refl _
  | _ => exact Nat.le_refl _

/-- A succeeded row stays as it is until a purge removes it, and its id is not used again. -/
theorem execAll_succeeded {ops : List Op} (hlt : id < db.tasks.next)
    (h : db.tasks.get id = none ∨ db.tasks.get id = some t ∧ t.state = .succeeded) :
    (db.execAll ops).tasks.get id = none ∨ (db.execAll ops).tasks.get id = some t := by
  induction ops generalizing db with
  | nil => exact h.imp_right And.left
  | cons op ops ih =>
      refine ih (Nat.lt_of_lt_of_le hlt exec_next_le) ?_
      cases hx : (db.exec op).tasks.get id with
      | none => exact Or.inl rfl
      | some t' =>
          have hsome : db.tasks.get id ≠ none ∨ id = db.tasks.next := by
            cases exec_origin hx with
            | kept ht => exact Or.inl (by simp [ht])
            | moved ht => exact Or.inl (by simp [ht])
            | inserted _ hi => exact Or.inr hi
          rcases h with hn | ⟨ht, hs⟩
          · rcases hsome with hsome | hi
            · exact absurd hn hsome
            · exact absurd hi (Nat.ne_of_lt hlt)
          · refine Or.inr ⟨?_, hs⟩
            cases exec_origin hx with
            | kept ht' => rw [ht'] at ht; exact ht
            | moved ht' _ ha =>
                rw [ht'] at ht; cases ht
                exact absurd hs (RowOp.not_succeeded ha)
            | inserted _ hi => exact absurd hi (Nat.ne_of_lt hlt)

end Db

end Fronta
