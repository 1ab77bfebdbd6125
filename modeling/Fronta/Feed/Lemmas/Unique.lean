import Fronta.Feed.Lemmas.Commit
import Fronta.Feed.Lemmas.Effects
import Fronta.Feed.Lemmas.Visible
import Fronta.Store.Lemmas.Statements

/-!
# Active keys

What `tasks_active_key_uidx` guarantees: neither the committed table nor what any open transaction sees
has two active tasks with the same type and key. Rows that different transactions wrote are apart, since
a statement that makes a task active waits for the others.
-/

namespace Fronta

open Sql

theorem Row.keyed_iff {t : Row} {type : Name} {key : String} :
    t.keyed type key = true ↔ t.type = type ∧ t.key = some key ∧ t.state.active = true := by
  simp [Row.keyed, and_assoc]

theorem Row.keyed_congr {t t' : Row} {type : Name} {key : String} (ha : t.state.active = true)
    (htype : t'.type = t.type) (hkey : t'.key = t.key) (h : t'.keyed type key = true) :
    t.keyed type key = true := by
  obtain ⟨h₁, h₂, -⟩ := Row.keyed_iff.mp h
  exact Row.keyed_iff.mpr ⟨htype ▸ h₁, hkey ▸ h₂, ha⟩

theorem RowOp.active_of_apply {op : RowOp} {t t' : Row} (h : op.apply t = some t')
    (hr : op.isRequeue = false) : t.state.active = true := by
  cases op <;>
    simp only [apply, Row.claim, Row.heartbeat, Row.setProgress, Row.complete, Row.requestCancel,
      Row.reap, Row.reapable, Option.ite_none_right_eq_some, Bool.and_eq_true,
      decide_eq_true_eq] at h
  case requeue => cases hr
  case claim => rw [h.1]; rfl
  case heartbeat => rw [h.1.1]; rfl
  case setProgress => rw [h.1.1]; rfl
  case complete => rw [h.1.1]; rfl
  case requestCancel => rcases h.1 with hs | hs <;> rw [hs] <;> rfl
  case reap => rw [h.1.1]; rfl

namespace Feed

open Runs

variable {s s' : Sys} {p q : TxnId} {x y : Txn} {o : Outcome} {st : TxnAction} {action : Action}
  {i j id : TaskId} {t t' u : Row} {type : Name} {key : String} {T : Table Row}
  {w : List (TaskId × Option Row)} {v : Option Row}

/-- Active tasks with the same type and key are one task. -/
def KeysUnique (T : Table Row) : Prop :=
  ∀ type key i j t t', T.get i = some t → T.get j = some t' → t.keyed type key = true →
    t'.keyed type key = true → i = j

/-! ## What a statement writes -/

/-- The rows of a transaction after a statement: the row that becomes active had its key free. -/
inductive Wrote (s : Sys) (p : TxnId) (x : Txn) (rows : List (TaskId × Option Row)) : Prop
  | nothing : rows = x.rows → Wrote s p x rows
  | entered {id : TaskId} {t : Row} : rows = (id, some t) :: x.rows → 0 < id →
      s.taken x t.type t.key = false → s.contested p t.type t.key = false → Wrote s p x rows
  | moved {id : TaskId} {t t' : Row} : rows = (id, some t') :: x.rows → s.rowOf x id = some t →
      s.free p (.task id) .update = true → t.state.active = true → t'.type = t.type →
      t'.key = t.key → Wrote s p x rows
  | purged {id : TaskId} : rows = (id, none) :: x.rows → Wrote s p x rows

theorem pos_of_rowOf (hx : ∀ i t, x.rows.lookup i = some (some t) → 0 < i)
    (h : s.rowOf x id = some t) : 0 < id := by
  unfold Sys.rowOf at h
  cases hl : x.rows.lookup id with
  | none => rw [hl] at h; exact Table.pos_of_get h
  | some v =>
      rw [hl, Option.getD_some] at h
      exact hx id t (hl.trans (congrArg some h))

theorem wrote_of_act (hx : ∀ i t, x.rows.lookup i = some (some t) → 0 < i)
    (h : s.act p x st = some o) : Wrote s p x o.txn.rows := by
  cases effect_of_act h with
  | quiet he => exact .nothing he.rows
  | look _ he => rw [he]; exact .nothing rfl
  | insert _ he _ _ ht hc => rw [he]; exact .entered rfl s.tasks.pos ht hc
  | @update snapshot rest id op t t' _ ht ha _ he _ _ hf hr =>
      obtain ⟨htype, hkey, -⟩ := RowOp.apply_identity ha
      rw [he]
      cases hq : op.isRequeue with
      | true =>
          obtain ⟨hn, hc⟩ := hr hq
          exact .entered rfl (pos_of_rowOf hx ht) (htype ▸ hkey ▸ hn) (htype ▸ hkey ▸ hc)
      | false => exact .moved rfl ht hf (RowOp.active_of_apply ha hq) htype hkey
  | purge he => rw [he]; exact .purged rfl
  | skip _ _ he => rw [he]; exact .nothing rfl
  | publish _ _ he => rw [he]; exact .nothing rfl
  | fill _ _ _ he => rw [he]; exact .nothing rfl

/-! ## Tables with and without a transaction's rows -/

theorem get_overlay_eq_some :
    (T.overlay w).get i = some t ↔
      (w.lookup i = none ∧ T.get i = some t) ∨ (w.lookup i = some (some t) ∧ 0 < i ∧ i < T.next) := by
  constructor
  · intro h
    exact (Table.get_overlay_cases h).imp_right fun hw => ⟨hw, (T.overlay w).bounded i t h⟩
  · rintro (⟨hw, h⟩ | ⟨hw, hp, hn⟩)
    · rw [Table.get_overlay_of_none hw, h]
    · exact Table.get_overlay_of_some hw hp hn

/-- A row of the table or of the transaction, once one more row is written. -/
theorem get_overlay_cons {n : ℕ} (hw : ∀ i v, w.lookup i = some v → i < T.next)
    (h : ((T.reserve n).overlay ((id, v) :: w)).get i = some t) :
    (i = id ∧ v = some t) ∨ (i ≠ id ∧ (T.overlay w).get i = some t) := by
  rcases get_overlay_eq_some.mp h with ⟨hl, ht⟩ | ⟨hl, hp, -⟩
  · rw [List.lookup_cons] at hl
    split at hl
    · cases hl
    · rename_i hi
      exact Or.inr ⟨ne_of_beq_false hi, get_overlay_eq_some.mpr (Or.inl ⟨hl, ht⟩)⟩
  · rcases lookup_cons hl with ⟨rfl, hv⟩ | ⟨hi, hl⟩
    · exact Or.inl ⟨rfl, hv.symm⟩
    · exact Or.inr ⟨hi, get_overlay_eq_some.mpr (Or.inr ⟨hl, hp, hw i _ hl⟩)⟩

theorem KeysUnique.of_get (h : KeysUnique T) {T' : Table Row}
    (hg : ∀ i t, T'.get i = some t → T.get i = some t) : KeysUnique T' :=
  fun type key i j t t' hi hj => h type key i j t t' (hg i t hi) (hg j t' hj)

/-- No task has the key of the row that is written. -/
theorem KeysUnique.enter {n : ℕ} (h : KeysUnique (T.overlay w))
    (hw : ∀ i v, w.lookup i = some v → i < T.next)
    (hfree : ∀ type key i t', (T.overlay w).get i = some t' → t.keyed type key = true →
      t'.keyed type key = false) :
    KeysUnique ((T.reserve n).overlay ((id, some t) :: w)) := by
  intro type key i j u u' hi hj hu hu'
  rcases get_overlay_cons hw hi with ⟨rfl, ht⟩ | ⟨-, hi'⟩ <;>
    rcases get_overlay_cons hw hj with ⟨rfl, ht'⟩ | ⟨-, hj'⟩
  · rfl
  · cases ht
    rw [hfree type key j u' hj' hu] at hu'; cases hu'
  · cases ht'
    rw [hfree type key i u hi' hu'] at hu; cases hu
  · exact h type key i j u u' hi' hj' hu hu'

/-- The task that is written had this key already. -/
theorem KeysUnique.move {n : ℕ} (h : KeysUnique (T.overlay w))
    (hw : ∀ i v, w.lookup i = some v → i < T.next)
    (ht : (T.overlay w).get id = some t) (ha : t.state.active = true) (htype : t'.type = t.type)
    (hkey : t'.key = t.key) : KeysUnique ((T.reserve n).overlay ((id, some t') :: w)) := by
  have hold : ∀ type key, t'.keyed type key = true → t.keyed type key = true :=
    fun _ _ => Row.keyed_congr ha htype hkey
  intro type key i j u u' hi hj hu hu'
  rcases get_overlay_cons hw hi with ⟨rfl, he⟩ | ⟨-, hi'⟩ <;>
    rcases get_overlay_cons hw hj with ⟨rfl, he'⟩ | ⟨-, hj'⟩
  · rfl
  · cases he; exact h type key i j t u' ht hj' (hold _ _ hu) hu'
  · cases he'; exact h type key i j u t hi' ht hu (hold _ _ hu')
  · exact h type key i j u u' hi' hj' hu hu'

theorem KeysUnique.purge {n : ℕ} (h : KeysUnique (T.overlay w))
    (hw : ∀ i v, w.lookup i = some v → i < T.next) :
    KeysUnique ((T.reserve n).overlay ((id, none) :: w)) := by
  refine h.of_get fun i t hi => ?_
  rcases get_overlay_cons hw hi with ⟨-, ht⟩ | ⟨-, hi⟩
  · cases ht
  · exact hi

/-! ## The unique index -/

structure Unique (s : Sys) : Prop where
  committed : KeysUnique s.tasks
  seen : ∀ p x, s.txns.get p = some x → KeysUnique (s.tasks.overlay x.rows)
  apart : ∀ p q x y type key i j t t', p ≠ q → s.txns.get p = some x → s.txns.get q = some y →
    x.rows.lookup i = some (some t) → y.rows.lookup j = some (some t') → t.keyed type key = true →
    t'.keyed type key = false
  positive : ∀ p x, s.txns.get p = some x → ∀ i t, x.rows.lookup i = some (some t) → 0 < i

theorem taken_eq_false (h : s.taken x type (some key) = false)
    (ht : (s.tasks.overlay x.rows).get i = some t) : t.keyed type key = false := by
  simp only [Sys.taken, Option.any_some, Option.isSome_eq_false_iff, Option.isNone_iff_eq_none] at h
  exact Table.find_eq_none.mp h i t ht

theorem contested_eq_false (h : s.contested p type (some key) = false) (hq : q ≠ p)
    (hy : s.txns.get q = some y) (ht : y.rows.lookup i = some (some t)) : t.keyed type key = false := by
  simp only [Sys.contested, Option.any_some, List.any_eq_false, Bool.and_eq_true, decide_eq_true_eq,
    not_and, Bool.not_eq_true] at h
  obtain ⟨l₁, l₂, hl, -⟩ := List.lookup_eq_some_iff.mp ht
  have := h (q, y) (Table.mem_entries.mpr hy) hq
  exact this (i, some t) (by rw [hl]; simp)

theorem written_lt (hb : Base s) (hx : s.txns.get p = some x) (i : TaskId) (v : Option Row)
    (h : x.rows.lookup i = some v) : i < s.tasks.next :=
  hb.locks.task i _ _ ((hb.txns p x hx).rows i v h)

theorem Unique.rowOf (h : Unique s) (hb : Base s) (hx : s.txns.get p = some x)
    (ht : s.rowOf x i = some t) : (s.tasks.overlay x.rows).get i = some t := by
  unfold Sys.rowOf at ht
  cases hl : x.rows.lookup i with
  | none => rw [hl] at ht; exact get_overlay_eq_some.mpr (Or.inl ⟨hl, ht⟩)
  | some v =>
      rw [hl, Option.getD_some] at ht
      subst ht
      exact get_overlay_eq_some.mpr (Or.inr ⟨hl, h.positive p x hx i t hl, written_lt hb hx i _ hl⟩)

/-! ## Statements -/

theorem KeysUnique.reserve {n : ℕ} (h : KeysUnique (T.overlay w))
    (hw : ∀ i v, w.lookup i = some v → i < T.next) : KeysUnique ((T.reserve n).overlay w) := by
  refine h.of_get fun i t hi => get_overlay_eq_some.mpr ?_
  exact (get_overlay_eq_some.mp hi).imp_right fun ⟨hl, hp, _⟩ => ⟨hl, hp, hw i _ hl⟩

/-- What a statement writes stays apart from the rows of the others. -/
theorem Unique.apart_act (h : Unique s) (hb : Base s) (hx : s.txns.get p = some x)
    (ho : s.act p x st = some o) (hq : q ≠ p) (hy : s.txns.get q = some y)
    (hi : o.txn.rows.lookup i = some (some t)) (hj : y.rows.lookup j = some (some t'))
    (ht : t.keyed type key = true) : t'.keyed type key = false := by
  cases wrote_of_act (h.positive p x hx) ho with
  | nothing he => exact h.apart p q x y type key i j t t' hq.symm hx hy (he ▸ hi) hj ht
  | entered he _ _ hc =>
      rw [he] at hi
      rcases lookup_cons hi with ⟨rfl, hv⟩ | ⟨-, hi⟩
      · cases hv
        obtain ⟨rfl, hkey, -⟩ := Row.keyed_iff.mp ht
        exact contested_eq_false (hkey ▸ hc) hq hy hj
      · exact h.apart p q x y type key i j t t' hq.symm hx hy hi hj ht
  | @moved id t₀ t₁ he hr hf ha htype hkey =>
      rw [he] at hi
      rcases lookup_cons hi with ⟨rfl, hv⟩ | ⟨-, hi⟩
      · cases hv
        have ht₀ := Row.keyed_congr ha htype hkey ht
        unfold Sys.rowOf at hr
        cases hl : x.rows.lookup i with
        | some v =>
            rw [hl, Option.getD_some] at hr
            exact h.apart p q x y type key i j t₀ t' hq.symm hx hy (hl.trans (congrArg some hr)) hj ht₀
        | none =>
            rw [hl, Option.getD_none] at hr
            by_contra hk
            rw [Bool.not_eq_false] at hk
            -- the other one sees the committed row, which this one has just locked
            cases hly : y.rows.lookup i with
            | some v =>
                have hheld := (hb.txns q y hy).rows i v hly
                cases Locks.grantable_iff.mp hf _ _ hheld hq
            | none =>
                have hseen := get_overlay_eq_some.mpr (Or.inl ⟨hly, hr⟩)
                have hseen' := get_overlay_eq_some.mpr
                  (Or.inr ⟨hj, h.positive q y hy j t' hj, written_lt hb hy j _ hj⟩)
                have := h.seen q y hy type key i j t₀ t' hseen hseen' ht₀ hk
                subst this
                rw [hly] at hj; cases hj
      · exact h.apart p q x y type key i j t t' hq.symm hx hy hi hj ht
  | purged he =>
      rw [he] at hi
      rcases lookup_cons hi with ⟨-, hv⟩ | ⟨-, hi⟩
      · cases hv
      · exact h.apart p q x y type key i j t t' hq.symm hx hy hi hj ht

theorem Unique.move (h : Unique s) (hb : Base s) (hx : s.txns.get p = some x)
    (ho : s.act p x st = some o) : Unique (s.move p o) where
  committed := h.committed.of_get fun _ _ hi => hi
  seen q y hy := by
    rcases get_move_cases hy with ⟨rfl, rfl⟩ | ⟨-, hy⟩
    · have hw := written_lt hb hx
      have hseen := h.seen q x hx
      cases wrote_of_act (h.positive q x hx) ho with
      | nothing he => rw [he]; exact hseen.reserve hw
      | entered he _ hn _ =>
          rw [he]
          refine hseen.enter hw fun type key i t' hi ht => ?_
          obtain ⟨rfl, hkey, -⟩ := Row.keyed_iff.mp ht
          exact taken_eq_false (hkey ▸ hn) hi
      | moved he hr hf ha htype hkey =>
          rw [he]
          exact hseen.move hw (h.rowOf hb hx hr) ha htype hkey
      | purged he => rw [he]; exact hseen.purge hw
    · exact (h.seen q y hy).reserve (written_lt hb hy)
  apart p' q' y z type key i j t t' hne hy hz hi hj ht := by
    rcases get_move_cases hy with ⟨rfl, rfl⟩ | ⟨hp', hy'⟩ <;>
      rcases get_move_cases hz with ⟨rfl, rfl⟩ | ⟨hq', hz'⟩
    · exact absurd rfl hne
    · exact h.apart_act hb hx ho hq' hz' hi hj ht
    · by_contra hk
      rw [Bool.not_eq_false] at hk
      rw [h.apart_act hb hx ho hp' hy' hj hi hk] at ht; cases ht
    · exact h.apart p' q' y z type key i j t t' hne hy' hz' hi hj ht
  positive q y hy i t hi := by
    rcases get_move_cases hy with ⟨rfl, rfl⟩ | ⟨-, hy⟩
    · have hpos := h.positive q x hx
      cases wrote_of_act hpos ho with
      | nothing he => exact hpos i t (he ▸ hi)
      | entered he hp =>
          rw [he] at hi
          rcases lookup_cons hi with ⟨rfl, -⟩ | ⟨-, hi⟩
          · exact hp
          · exact hpos i t hi
      | moved he hr =>
          rw [he] at hi
          rcases lookup_cons hi with ⟨rfl, -⟩ | ⟨-, hi⟩
          · exact pos_of_rowOf hpos hr
          · exact hpos i t hi
      | purged he =>
          rw [he] at hi
          rcases lookup_cons hi with ⟨-, hv⟩ | ⟨-, hi⟩
          · cases hv
          · exact hpos i t hi
    · exact h.positive q y hy i t hi

/-! ## Commits -/

/-- The rows that a transaction sees once another one has committed: its own ones, those of the commit
and the others. -/
theorem get_after_commit (h : ((s.commit p x).tasks.overlay y.rows).get i = some t) :
    (y.rows.lookup i = some (some t) ∧ 0 < i ∧ i < s.tasks.next) ∨
      y.rows.lookup i = none ∧
        ((x.rows.lookup i = some (some t) ∧ 0 < i ∧ i < s.tasks.next) ∨
          x.rows.lookup i = none ∧ s.tasks.get i = some t) := by
  rcases get_overlay_eq_some.mp h with ⟨hl, ht⟩ | ⟨hl, hp, hn⟩
  · exact Or.inr ⟨hl, (get_overlay_eq_some.mp ht).symm⟩
  · exact Or.inl ⟨hl, hp, hn⟩

theorem Unique.commit (h : Unique s) (hx : s.txns.get p = some x) : Unique (s.commit p x) where
  committed := h.seen p x hx
  seen q y hy := by
    obtain ⟨hy, hq⟩ := get_finish.mp hy
    intro type key i j t t' hi hj ht ht'
    -- a row of the table is seen by both
    rcases get_after_commit hi with hi | ⟨hyi, hi | hi⟩ <;>
      rcases get_after_commit hj with hj | ⟨hyj, hj | hj⟩
    · exact h.seen q y hy type key i j t t' (get_overlay_eq_some.mpr (Or.inr hi))
        (get_overlay_eq_some.mpr (Or.inr hj)) ht ht'
    · rw [h.apart q p y x type key i j t t' hq hy hx hi.1 hj.1 ht] at ht'; cases ht'
    · exact h.seen q y hy type key i j t t' (get_overlay_eq_some.mpr (Or.inr hi))
        (get_overlay_eq_some.mpr (Or.inl ⟨hyj, hj.2⟩)) ht ht'
    · rw [h.apart p q x y type key i j t t' hq.symm hx hy hi.1 hj.1 ht] at ht'; cases ht'
    · exact h.seen p x hx type key i j t t' (get_overlay_eq_some.mpr (Or.inr hi))
        (get_overlay_eq_some.mpr (Or.inr hj)) ht ht'
    · exact h.seen p x hx type key i j t t' (get_overlay_eq_some.mpr (Or.inr hi))
        (get_overlay_eq_some.mpr (Or.inl hj)) ht ht'
    · exact h.seen q y hy type key i j t t' (get_overlay_eq_some.mpr (Or.inl ⟨hyi, hi.2⟩))
        (get_overlay_eq_some.mpr (Or.inr hj)) ht ht'
    · exact h.seen p x hx type key i j t t' (get_overlay_eq_some.mpr (Or.inl hi))
        (get_overlay_eq_some.mpr (Or.inr hj)) ht ht'
    · exact h.committed type key i j t t' hi.2 hj.2 ht ht'
  apart p' q' y z type key i j t t' hne hy hz :=
    h.apart p' q' y z type key i j t t' hne (get_finish.mp hy).1 (get_finish.mp hz).1
  positive q y hy := h.positive q y (get_finish.mp hy).1

/-! ## Runs -/

theorem Unique.of_txns (h : Unique s) (ht : s'.tasks = s.tasks)
    (hx : ∀ p x, s'.txns.get p = some x → x.rows = [] ∨ s.txns.get p = some x) : Unique s' where
  committed := ht ▸ h.committed
  seen p x hp := by
    rw [ht]
    rcases hx p x hp with hr | hp
    · rw [hr]
      refine h.committed.of_get fun i t hi => ?_
      rcases get_overlay_eq_some.mp hi with ⟨-, ht⟩ | ⟨hl, -⟩
      · exact ht
      · cases hl
    · exact h.seen p x hp
  apart p q x y type key i j t t' hne hp hq hi hj := by
    rcases hx p x hp with hr | hp
    · rw [hr] at hi; cases hi
    rcases hx q y hq with hr | hq
    · rw [hr] at hj; cases hj
    exact h.apart p q x y type key i j t t' hne hp hq hi hj
  positive p x hp i t hi := by
    rcases hx p x hp with hr | hp
    · rw [hr] at hi; cases hi
    · exact h.positive p x hp i t hi

theorem unique_init {catalog : Catalog} : Unique (Sys.init catalog) where
  committed _ _ _ _ _ _ h := by cases h
  seen _ _ h := by cases h
  apart _ _ _ _ _ _ _ _ _ _ _ h := by cases h
  positive _ _ h := by cases h

theorem Unique.start (h : Unique s) {now : Time} {repeatable : Bool} {role : Role}
    {locks : List (Target × Mode)} :
    Unique (s.start { now := now, repeatable := repeatable, role := role } locks) :=
  h.of_txns rfl fun _ _ hx => (get_start_cases hx).imp (fun he => by rw [he.2]) id

theorem Unique.rollback (h : Unique s) (c : Consumer) : Unique (rolledBack s c) :=
  h.of_txns (by unfold rolledBack; cases c.txn <;> rfl) fun _ _ hx => Or.inr (get_rolledBack hx)

theorem Unique.step (hb : Base s) (h : Unique s) (hs : Steps s action s') : Unique s' := by
  cases hs with
  | begin => exact h.start
  | within hx ho => exact h.move hb hx ho
  | commit hx => exact h.commit hx
  | rollback => exact h.of_txns rfl fun _ _ hx => Or.inr (get_finish.mp hx).1
  | chunk => exact h.start
  | refuse => exact (h.rollback _).of_txns rfl fun _ _ hx => Or.inr hx
  | @pull k now c =>
      have hentered : Unique ((rolledBack s c).enter k .ready (some (rolledBack s c).txns.next)) :=
        (h.rollback c).of_txns rfl fun _ _ hx => Or.inr hx
      exact hentered.start
  | unsubscribe => exact h.start
  | _ => exact h.of_txns rfl fun _ _ hx => Or.inr hx

theorem unique_of_reachable {catalog : Catalog} (h : Reachable Sys.step (Sys.init catalog) s) :
    Unique s :=
  (h.invariant (I := fun s => Base s ∧ Unique s) ⟨base_init, unique_init⟩
    fun _ _ _ hi hs => ⟨hi.1.step (steps_of_step hs), hi.2.step hi.1 (steps_of_step hs)⟩).2

end Feed

end Fronta
