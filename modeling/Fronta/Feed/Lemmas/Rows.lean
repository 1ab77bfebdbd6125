import Fronta.Feed.Lemmas.Commit
import Fronta.Feed.Lemmas.Effects
import Fronta.Store.Lemmas.Statements

/-!
# Written rows and recorded changes

A row that a transaction has written either shows one of its changes or shows the committed state.
-/

namespace Fronta.Feed

open Runs Sql

variable {s s' : Sys} {p q : TxnId} {x : Txn} {o : Outcome} {action : TxnAction} {i : TaskId}
  {t t' : Row}

/-- The rows say the same about the progress of the task. -/
structure Alike (t t' : Row) : Prop where
  type : t'.type = t.type
  state : t'.state = t.state
  attempt : t'.attempt = t.attempt
  finishedAt : t'.finishedAt = t.finishedAt

theorem Alike.refl (t : Row) : Alike t t := ⟨rfl, rfl, rfl, rfl⟩

theorem Alike.trans {t'' : Row} (h : Alike t t') (h' : Alike t' t'') : Alike t t'' :=
  ⟨h'.type.trans h.type, h'.state.trans h.state, h'.attempt.trans h.attempt,
    h'.finishedAt.trans h.finishedAt⟩

theorem Alike.applied (h : Alike t t') : t'.applied i = t.applied i := by
  simp only [Row.applied, h.type, h.state, h.attempt]

theorem alike_of_apply {op : RowOp} (h : op.apply t = some t') (hs : t.state = t'.state) :
    Alike t t' :=
  have ⟨ha, hf⟩ := RowOp.apply_same h hs
  ⟨(RowOp.apply_identity h).1, hs.symm, ha, hf⟩

/-- Where the content of a written row comes from. A task that ended did so at the transaction's time. -/
inductive Traced (s : Sys) (x : Txn) (i : TaskId) (t : Row) : Prop
  | changed {c} : c ∈ x.changes → c.applied = t.applied i →
      (t.state.terminal = true → t.finishedAt = some x.now) → Traced s x i t
  | kept {t₀} : (∀ c ∈ x.changes, c.applied.id ≠ i) → s.tasks.get i = some t₀ → Alike t₀ t →
      Traced s x i t

structure RowsOk (s : Sys) (x : Txn) : Prop where
  traced : ∀ i t, x.rows.lookup i = some (some t) → Traced s x i t
  touched : ∀ c ∈ x.changes, (x.rows.lookup c.applied.id).isSome

theorem Traced.alike (h : Traced s x i t) (ha : Alike t t') : Traced s x i t' := by
  cases h with
  | changed hc he hf =>
      refine .changed hc (he.trans ha.applied.symm) fun ht => ?_
      rw [ha.finishedAt]
      exact hf (ha.state ▸ ht)
  | kept hn ht ht₀ => exact .kept hn ht (ht₀.trans ha)

theorem RowsOk.traced_rowOf (h : RowsOk s x) (hr : s.rowOf x i = some t) : Traced s x i t := by
  unfold Sys.rowOf at hr
  cases hl : x.rows.lookup i with
  | some v =>
      rw [hl, Option.getD_some] at hr
      exact h.traced i t (hl.trans (congrArg some hr))
  | none =>
      rw [hl, Option.getD_none] at hr
      refine .kept (fun c hc he => ?_) hr (.refl t)
      have := h.touched c hc
      rw [he, hl] at this; cases this

theorem Traced.frame (h : Traced s x i t) (ht : s'.tasks.get i = s.tasks.get i) : Traced s' x i t := by
  cases h with
  | changed hc he hf => exact .changed hc he hf
  | kept hn ht₀ ha => exact .kept hn (ht.trans ht₀) ha

theorem RowsOk.frame (hf : Frame s s' p) (hok : TxnOk s p x) (h : RowsOk s x) : RowsOk s' x :=
  ⟨fun i t hl => (h.traced i t hl).frame (hf.task i (hok.rows i _ hl)), h.touched⟩

theorem RowsOk.same {y : Txn} (h : RowsOk s x) (hn : y.now = x.now) (hr : y.rows = x.rows)
    (hc : y.changes = x.changes) : RowsOk s y where
  traced i t hl := by
    cases h.traced i t (hr ▸ hl) with
    | changed hm he hf => exact .changed (hc ▸ hm) he (hn ▸ hf)
    | kept hk ht ha => exact .kept (hc ▸ hk) ht ha
  touched c hm := by rw [hr]; exact h.touched c (hc ▸ hm)

/-- A write of one row keeps the trace of the others. -/
theorem RowsOk.write (h : RowsOk s x) {snapshot : Table Registration} {old : Option Row}
    {publishes : Bool} (ht : Traced s (x.write snapshot i old t publishes) i t) :
    RowsOk s (x.write snapshot i old t publishes) where
  traced j u hl := by
    rcases lookup_cons hl with ⟨rfl, hu⟩ | ⟨hj, hl⟩
    · cases hu; exact ht
    · cases h.traced j u hl with
      | changed hm he hf =>
          refine .changed ?_ he hf
          simp only [Txn.write]
          split
          · exact hm
          · exact List.mem_append_left _ hm
      | kept hk hu ha =>
          refine .kept (fun c hm => ?_) hu ha
          simp only [Txn.write] at hm
          split at hm
          · exact hk c hm
          · rcases List.mem_append.mp hm with hm | hm
            · exact hk c hm
            · cases List.mem_singleton.mp hm; exact Ne.symm hj
  touched c hm := by
    have hother : c ∈ x.changes → (((i, some t) :: x.rows).lookup c.applied.id).isSome := by
      intro hm
      by_cases hc : c.applied.id = i
      · rw [hc, List.lookup_cons_self]; rfl
      · rw [List.lookup_cons, beq_false_of_ne hc]; exact h.touched c hm
    simp only [Txn.write] at hm
    split at hm
    · exact hother hm
    · rcases List.mem_append.mp hm with hm | hm
      · exact hother hm
      · cases List.mem_singleton.mp hm
        simp [Txn.write, Row.applied]

theorem RowsOk.act (h : RowsOk s x) (ho : s.act p x action = some o) : RowsOk (s.move p o) o.txn := by
  have h' : RowsOk (s.move p o) x := ⟨fun i t hl => (h.traced i t hl).frame rfl, h.touched⟩
  cases effect_of_act ho with
  | quiet he => exact h'.same he.now he.rows he.changes
  | look _ he => rw [he]; exact h'.same rfl rfl rfl
  | @insert snapshot rest task _ he =>
      rw [he]
      refine h'.write (.changed (c := ⟨_, snapshot⟩) ?_ rfl fun ht => by cases ht)
      exact List.mem_append_right _ List.mem_cons_self
  | @update snapshot rest id op t t' _ hr ha hn he =>
      rw [he]
      have ht := h'.traced_rowOf (t := t) hr
      by_cases hs : t.state = t'.state
      · refine h'.write (Traced.alike (t := t) ?_ (alike_of_apply ha hs))
        cases ht with
        | changed hm he hf => exact .changed (by simpa [Txn.write, hs] using hm) he hf
        | kept hk ht₀ hl => exact .kept (by simpa [Txn.write, hs] using hk) ht₀ hl
      · refine h'.write (.changed (c := ⟨t'.applied id, snapshot⟩) ?_ rfl fun hterm => ?_)
        · simp [Txn.write, hs]
        · obtain ⟨now, hnow, hfin⟩ := RowOp.apply_finished ha hs hterm
          rw [hnow, Option.all_some, decide_eq_true_eq] at hn
          rw [hfin, hn]
          rfl
  | @purge id he =>
      rw [he]
      refine ⟨fun j u hl => ?_, fun c hm => ?_⟩
      · rcases lookup_cons hl with ⟨-, hu⟩ | ⟨-, hl⟩
        · cases hu
        · cases h'.traced j u hl with
          | changed hm he hf => exact .changed hm he hf
          | kept hk ht ha => exact .kept hk ht ha
      · by_cases hc : c.applied.id = id
        · rw [hc, List.lookup_cons_self]; rfl
        · rw [List.lookup_cons, beq_false_of_ne hc]; exact h.touched c hm
  | skip _ _ he => rw [he]; exact h'.same rfl rfl rfl
  | publish _ _ he => rw [he]; exact h'.same rfl rfl rfl
  | fill _ _ _ he => rw [he]; exact h'.same rfl rfl rfl

/-- Every open transaction's rows are traced. -/
def RowsInv (s : Sys) : Prop := ∀ p x, s.txns.get p = some x → RowsOk s x

theorem RowsInv.of_tasks (hi : RowsInv s) (ht : s'.tasks = s.tasks)
    (hx : ∀ p x, s'.txns.get p = some x → x.rows = [] ∧ x.changes = [] ∨ s.txns.get p = some x) :
    RowsInv s' := by
  intro p x hp
  rcases hx p x hp with ⟨hr, hc⟩ | hp
  · exact ⟨(fun i t hl => by rw [hr] at hl; cases hl), fun c hm => by rw [hc] at hm; cases hm⟩
  · exact ⟨fun i t hl => ((hi p x hp).traced i t hl).frame (by rw [ht]), (hi p x hp).touched⟩

theorem RowsInv.rollback (hi : RowsInv s) (c : Consumer) : RowsInv (rolledBack s c) := by
  unfold rolledBack
  cases c.txn with
  | none => exact hi
  | some q => exact hi.of_tasks rfl fun p x hx => Or.inr (get_finish.mp hx).1

theorem RowsInv.start (hi : RowsInv s) {now : Time} {repeatable : Bool} {role : Role}
    {locks : List (Target × Mode)} :
    RowsInv (s.start { now := now, repeatable := repeatable, role := role } locks) :=
  hi.of_tasks rfl fun _ _ hx => (get_start_cases hx).imp (fun he => by rw [he.2]; exact ⟨rfl, rfl⟩) id

theorem RowsInv.step (hb : Base s) (hi : RowsInv s) {action : Action} (h : Steps s action s') :
    RowsInv s' := by
  cases h with
  | begin => exact hi.start
  | @within p x action o hx ho =>
      intro q y hy
      rcases get_move_cases hy with ⟨rfl, rfl⟩ | ⟨-, hy⟩
      · exact (hi _ x hx).act ho
      · exact (hi q y hy).frame (frame_move s p q o) (hb.txns q y hy)
  | commit hx hc =>
      intro q y hy
      obtain ⟨hy, hq⟩ := get_finish.mp hy
      exact (hi q y hy).frame (hb.frame_commit hx hc hq) (hb.txns q y hy)
  | rollback => exact hi.of_tasks rfl fun p x hx => Or.inr (get_finish.mp hx).1
  | chunk => exact hi.start
  | refuse => exact (hi.rollback _).of_tasks rfl fun _ _ hx => Or.inr hx
  | @pull k now c =>
      have hentered : RowsInv ((rolledBack s c).enter k .ready (some (rolledBack s c).txns.next)) :=
        (hi.rollback c).of_tasks rfl fun _ _ hx => Or.inr hx
      exact hentered.start
  | unsubscribe => exact hi.start
  | _ => exact hi.of_tasks rfl fun _ _ hx => Or.inr hx

end Fronta.Feed
