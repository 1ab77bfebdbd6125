import Fronta.Feed.Lemmas.Acts

/-!
# What a statement does to its transaction

`Effect` lists the ways in which a statement changes what its transaction has read, written, announced
and inserted. The invariants of the ledger and of the backfill split on it.
-/

namespace Fronta

/-! ## Transitions that change the state -/

theorem Row.outcome_ne_running (kind : CompletionKind) (t : Row) : t.outcome kind ≠ .running := by
  cases kind <;> grind [Row.outcome]

namespace RowOp

variable {op : RowOp} {t t' : Row}

theorem publishes_iff (h : op.apply t = some t') : op.publishes t' = true ↔ t.state ≠ t'.state := by
  cases op <;>
    simp only [apply, Row.claim, Row.heartbeat, Row.setProgress, Row.complete, Row.requestCancel,
      Row.reap, Row.requeue, Option.ite_none_right_eq_some, Option.some.injEq] at h <;>
    obtain ⟨hw, rfl⟩ := h
  case claim => simp [publishes, hw]
  case heartbeat => simp [publishes]
  case setProgress => simp [publishes]
  case complete now jitter c => simpa [publishes, hw.1] using (Row.outcome_ne_running c.kind t).symm
  case requestCancel now => rcases hw with hw | hw <;> simp [publishes, hw]
  case reap now jitter =>
    simp only [Row.reapable, Bool.and_eq_true, decide_eq_true_eq] at hw
    simp only [publishes, true_iff, hw.1]
    repeat' split <;> simp
  case requeue now => rcases hw with hw | hw <;> simp [publishes, hw]

theorem apply_same (h : op.apply t = some t') (hs : t.state = t'.state) :
    t'.attempt = t.attempt ∧ t'.finishedAt = t.finishedAt := by
  have hp := publishes_iff h
  cases op <;>
    simp only [apply, Row.claim, Row.heartbeat, Row.setProgress, Row.complete, Row.requestCancel,
      Row.reap, Row.requeue, Option.ite_none_right_eq_some, Option.some.injEq] at h <;>
    obtain ⟨hw, rfl⟩ := h
  case heartbeat => exact ⟨rfl, rfl⟩
  case setProgress => exact ⟨rfl, rfl⟩
  case requestCancel now => rcases hw with hw | hw <;> simp_all
  all_goals exact absurd hs (hp.mp rfl)

/-- A task that ends is stamped with the statement's `now()`. -/
theorem apply_finished (h : op.apply t = some t') (hs : t.state ≠ t'.state)
    (ht : t'.state.terminal = true) : ∃ now, op.now = some now ∧ t'.finishedAt = some now := by
  have hp := (publishes_iff h).mpr hs
  cases op <;>
    simp only [apply, Row.claim, Row.heartbeat, Row.setProgress, Row.complete, Row.requestCancel,
      Row.reap, Row.requeue, Option.ite_none_right_eq_some, Option.some.injEq] at h <;>
    obtain ⟨hw, rfl⟩ := h
  case claim => simp [State.terminal] at ht
  case heartbeat => cases hp
  case setProgress => cases hp
  case complete now jitter c =>
    refine ⟨now, rfl, if_pos ?_⟩
    cases hk : c.kind <;> simp_all [Row.outcome] <;> by_contra hn <;> simp_all [State.terminal]
  case requestCancel now => rcases hw with hw | hw <;> simp_all [RowOp.now, publishes]
  case reap now jitter =>
    refine ⟨now, rfl, if_pos ?_⟩
    by_contra hn
    simp_all [State.terminal]
  case requeue now => simp [State.terminal] at ht

end RowOp

namespace Feed

open Sql

variable {s : Sys} {p : TxnId} {x : Txn} {o : Outcome} {action : TxnAction}

/-! ## Effects -/

/-- Nothing but the role and the deletions of a transaction differs. -/
structure Same (x y : Txn) : Prop where
  now : y.now = x.now
  repeatable : y.repeatable = x.repeatable
  snapshots : y.snapshots = x.snapshots
  rows : y.rows = x.rows
  changes : y.changes = x.changes
  notices : y.notices = x.notices
  inserted : y.inserted = x.inserted
  chunk : ∀ c, y.role = .chunk c → x.role = .chunk c

inductive Effect (s : Sys) (p : TxnId) (x : Txn) (action : TxnAction) (o : Outcome) : Prop
  | quiet : Same x o.txn → Effect s p x action o
  | look : x.notices = [] →
      o.txn = { x with snapshots := s.registrations :: x.snapshots } → Effect s p x action o
  | insert {snapshot rest task} : x.snapshots = snapshot :: rest →
      o.txn = x.write snapshot s.tasks.next none (.enqueued x.now task) true →
      (.task s.tasks.next, .update) ∈ o.locks → o.tasks = 1 → s.taken x task.type task.key = false →
      s.contested p task.type task.key = false → Effect s p x action o
  | update {snapshot rest id op t t'} : x.snapshots = snapshot :: rest → s.rowOf x id = some t →
      RowOp.apply op t = some t' → op.now.all (· = x.now) = true →
      o.txn = x.write snapshot id (some t) t' (op.publishes t') →
      (.task id, .update) ∈ o.locks → x.isPlain = true → s.free p (.task id) .update = true →
      (op.isRequeue = true → s.taken x t.type t.key = false ∧ s.contested p t.type t.key = false) →
      action = .transition id op → Effect s p x action o
  | purge {id} : o.txn = { x with rows := (id, none) :: x.rows } → x.isPlain = true → Effect s p x action o
  | skip {n rest} : x.notices = n :: rest → s.registrations.get n.generation = none →
      o.txn = { x with notices := rest } → Effect s p x action o
  | publish {n rest r} : x.notices = n :: rest → s.registrations.get n.generation = some r →
      o.txn = { x with
        notices := rest
        inserted := x.inserted ++ [(s.events.next,
          ⟨n.generation, n.applied.event r.name x.now, .transition n.snapshot⟩)] } →
      Effect s p x action o
  | fill {c limit} : x.role = .chunk c → 1 ≤ limit → c.update = none →
      o.txn = { x with
        role := .chunk { c with update := some (chunk s.tasks c.types c.marker limit).2 }
        inserted := (chunk s.tasks c.types c.marker limit).1.zipIdx.map fun y =>
          (s.events.next + y.2,
            ⟨c.generation, (y.1.2.applied y.1.1).event c.name x.now, .backfill c.generation⟩) } →
      Effect s p x action o

theorem effect_of_act (h : s.act p x action = some o) : Effect s p x action o := by
  cases acts_of_act h with
  | again => exact .quiet ⟨rfl, rfl, rfl, rfl, rfl, rfl, rfl, fun _ h => h⟩
  | look hn => exact .look hn rfl
  | present => exact .quiet ⟨rfl, rfl, rfl, rfl, rfl, rfl, rfl, fun _ h => h⟩
  | insert hs ht hc => exact .insert hs rfl List.mem_cons_self rfl ht hc
  | transition hs ht ha hnow hp hfree hkey =>
      exact .update hs ht ha hnow rfl List.mem_cons_self hp hfree hkey rfl
  | purgeTask _ hp => exact .purge rfl hp
  | purgeEvent => exact .quiet ⟨rfl, rfl, rfl, rfl, rfl, rfl, rfl, fun _ h => h⟩
  | skip hn hr => exact .skip hn hr rfl
  | publish hn hr => exact .publish hn hr rfl
  | fill hc hl hu => exact .fill hc hl hu rfl
  -- a delivery and a removal change nothing but their own progress
  | fetch | ack | passRegistration | dropRegistration | seeEvents | passEvent | dropEvent =>
      exact .quiet ⟨rfl, rfl, rfl, rfl, rfl, rfl, rfl, fun _ h => by cases h⟩

end Feed

end Fronta
