import Fronta.Feed.Lemmas.Ledger
import Fronta.Feed.Lemmas.Unique
import Fronta.Feed.Spec

/-!
# How far a task has come

Without a requeue every change of state takes a task further: to the end of its attempt, to the end of its
life, or to its next attempt. So no state of one attempt is published twice.
-/

namespace Fronta

/-- Attempts in their order, and within an attempt running before queued before terminal. -/
def Applied.rank (a : Applied) : ℕ :=
  3 * a.attempt + match a.state with
    | .running => 0
    | .queued => 1
    | _ => 2

/-- How far the row of a task has come. -/
def Row.rank (t : Row) : ℕ := (t.applied 0).rank

theorem Row.rank_lt_of_ended {t t' : Row} (hr : t.state = .running) (hne : t.state ≠ t'.state)
    (ha : t'.attempt = t.attempt) : t.rank < t'.rank := by
  simp only [Row.rank, Row.applied, Applied.rank, hr, ha]
  cases hs : t'.state <;> simp_all

namespace RowOp

variable {op : RowOp} {t t' : Row}

theorem rank_lt_of_publishes (h : op.apply t = some t') (hr : op.isRequeue = false)
    (hp : op.publishes t' = true) : t.rank < t'.rank := by
  have hne := (publishes_iff h).mp hp
  cases op <;>
    simp only [apply, Row.claim, Row.heartbeat, Row.setProgress, Row.complete, Row.requestCancel,
      Row.reap, Option.ite_none_right_eq_some, Option.some.injEq] at h
  case claim now clock leaseS worker token =>
    obtain ⟨hq, rfl⟩ := h
    simp only [Row.rank, Row.applied, Applied.rank, hq]
    omega
  case heartbeat => cases hp
  case setProgress => cases hp
  case complete now jitter c =>
    obtain ⟨⟨hrun, -⟩, rfl⟩ := h
    exact Row.rank_lt_of_ended hrun hne rfl
  case requestCancel now =>
    obtain ⟨hs, rfl⟩ := h
    rcases hs with hs | hs
    · simp [Row.rank, Row.applied, Applied.rank, hs]
    · simp [publishes, hs] at hp
  case reap now jitter =>
    obtain ⟨hrun, rfl⟩ := h
    simp only [Row.reapable, Bool.and_eq_true, decide_eq_true_eq] at hrun
    exact Row.rank_lt_of_ended hrun.1 hne rfl
  case requeue => cases hr

theorem rank_le_of_apply (h : op.apply t = some t') (hr : op.isRequeue = false) : t.rank ≤ t'.rank := by
  cases hp : op.publishes t' with
  | true => exact Nat.le_of_lt (rank_lt_of_publishes h hr hp)
  | false =>
      have hs : t.state = t'.state := by
        by_contra hne
        simp [(publishes_iff h).mpr hne] at hp
      have ha := (apply_same h hs).1
      simp [Row.rank, Row.applied, Applied.rank, hs, ha]

end RowOp

namespace Feed

open Runs Sql

variable {s s' : Sys} {p q : TxnId} {x y : Txn} {o : Outcome} {st : TxnAction} {action : Action} {id : TaskId}
  {t t' : Row}

/-! ## Trails -/

/-- What transitions have inserted, with the registration that it went to. -/
def liveOf (ledger : List (Seq × Insertion)) : List (Generation × Applied) :=
  (ledger.filter fun n => n.2.origin.isTransition).map fun n => (n.2.generation, n.2.event.applied)

/-- What a transaction has inserted and announced. -/
def Txn.trail (x : Txn) : List (Generation × Applied) :=
  liveOf x.inserted ++ x.notices.map fun n => (n.generation, n.applied)

/-- What a registration hears of one task comes in the order of its ranks. -/
def Rises (a b : Generation × Applied) : Prop := a.1 = b.1 → a.2.id = b.2.id → a.2.rank < b.2.rank

@[simp] theorem liveOf_append (l m : List (Seq × Insertion)) : liveOf (l ++ m) = liveOf l ++ liveOf m := by
  simp [liveOf]

theorem mem_liveOf {l : List (Seq × Insertion)} {e : Generation × Applied} :
    e ∈ liveOf l ↔ ∃ n ∈ l, n.2.origin.isTransition = true ∧ e = (n.2.generation, n.2.event.applied) := by
  simp only [liveOf, List.mem_map, List.mem_filter]
  grind

theorem Numbered.trail (h : Numbered s p x) {e : Generation × Applied} (he : e ∈ x.trail) :
    s.locks.Holds (.task e.2.id) p .update := by
  rcases List.mem_append.mp he with he | he
  · obtain ⟨n, hn, ht, rfl⟩ := mem_liveOf.mp he
    exact h.owned n hn ht
  · obtain ⟨n, hn, rfl⟩ := List.mem_map.mp he
    exact h.announced n hn

theorem noticesOf_rises (snapshot : Table Registration) (a : Applied) :
    ((noticesOf snapshot a).map fun n => (n.generation, n.applied)).Pairwise Rises := by
  rw [noticesOf, List.map_map, List.pairwise_map]
  refine (snapshot.entries_sorted.filter _).imp fun {y z} h heq => ?_
  exact absurd heq (Nat.ne_of_lt h)

/-- Nothing that was announced for a task is beyond its row. -/
structure Trailed (s : Sys) (x : Txn) : Prop where
  rising : x.trail.Pairwise Rises
  reached : ∀ e ∈ x.trail, ∀ t, s.rowOf x e.2.id = some t → e.2.rank ≤ t.rank
  later : ∀ e ∈ liveOf s.ledger, ∀ n ∈ x.trail, Rises e n
  seen : ∀ e ∈ liveOf s.ledger, ∀ t, s.rowOf x e.2.id = some t → e.2.rank ≤ t.rank

structure Staged (s : Sys) : Prop where
  ledger : (liveOf s.ledger).Pairwise Rises
  given : ∀ e ∈ liveOf s.ledger, e.2.id < s.tasks.next
  reached : ∀ e ∈ liveOf s.ledger, ∀ t, s.tasks.get e.2.id = some t → e.2.rank ≤ t.rank
  txns : ∀ p x, s.txns.get p = some x → Trailed s x
  told : ∀ seq n, s.events.get seq = some n → (seq, n) ∈ s.ledger

theorem staged_init {catalog : Catalog} : Staged (Sys.init catalog) :=
  ⟨List.Pairwise.nil, (fun _ h => by cases h), (fun _ h => by cases h), (fun _ _ h => by cases h),
    fun _ _ h => by cases h⟩

/-! ## Statements -/

theorem rowOf_write {snapshot : Table Registration} {old : Option Row} {b : Bool} {i : TaskId} :
    s.rowOf (x.write snapshot id old t b) i = if i = id then some t else s.rowOf x i := by
  by_cases hi : i = id
  · simp [Sys.rowOf, Txn.write, hi]
  · have hb : (i == id) = false := by simpa using hi
    simp [Sys.rowOf, Txn.write, List.lookup_cons, hi, hb]

theorem trail_write {snapshot : Table Registration} {old : Option Row} {b : Bool} :
    (x.write snapshot id old t b).trail =
      x.trail ++ if b then (noticesOf snapshot (t.applied id)).map fun n => (n.generation, n.applied) else [] := by
  cases b <;> simp [Txn.trail, Txn.write]

theorem mem_trail_write {snapshot : Table Registration} {old : Option Row} {b : Bool}
    {e : Generation × Applied} (he : e ∈ (x.write snapshot id old t b).trail) :
    e ∈ x.trail ∨ (b = true ∧ e.2 = t.applied id) := by
  rw [trail_write] at he
  refine (List.mem_append.mp he).imp_right fun he => ?_
  cases b with
  | false => simp at he
  | true =>
      simp only [if_true] at he
      obtain ⟨n, hn, rfl⟩ := List.mem_map.mp he
      exact ⟨rfl, (mem_noticesOf.mp hn).1⟩

/-- A row is written that is further than all that was announced for the task. -/
theorem Trailed.write (h : Trailed s x) {snapshot : Table Registration} {old : Option Row} {b : Bool}
    (hx : ∀ e ∈ x.trail, e.2.id = id → e.2.rank ≤ t.rank ∧ (b = true → e.2.rank < t.rank))
    (hl : ∀ e ∈ liveOf s.ledger, e.2.id = id → e.2.rank ≤ t.rank ∧ (b = true → e.2.rank < t.rank)) :
    Trailed s (x.write snapshot id old t b) where
  rising := by
    rw [trail_write, List.pairwise_append]
    refine ⟨h.rising, ?_, fun e he n hn => ?_⟩
    · cases b with
      | false => exact List.Pairwise.nil
      | true => exact noticesOf_rises snapshot _
    · cases b with
      | false => simp at hn
      | true =>
          obtain ⟨m, hm, rfl⟩ := List.mem_map.mp hn
          intro _ hid
          rw [(mem_noticesOf.mp hm).1] at hid ⊢
          exact (hx e he hid).2 rfl
  reached := by
    intro e he u hu
    rw [rowOf_write] at hu
    rcases mem_trail_write he with he | ⟨-, he⟩
    · split at hu
      · rename_i hid
        cases hu
        exact (hx e he hid).1
      · exact h.reached e he u hu
    · rw [he] at hu ⊢
      have hid : (t.applied id).id = id := rfl
      rw [if_pos hid] at hu
      cases hu
      exact Nat.le_refl _
  later := by
    intro e he n hn
    rcases mem_trail_write hn with hn | ⟨hb, hn⟩
    · exact h.later e he n hn
    · intro _ hid
      rw [hn] at hid ⊢
      exact (hl e he hid).2 hb
  seen := by
    intro e he u hu
    rw [rowOf_write] at hu
    split at hu
    · rename_i hid
      cases hu
      exact (hl e he hid).1
    · exact h.seen e he u hu

theorem Trailed.sublist (h : Trailed s x) (ht : y.trail.Sublist x.trail)
    (hr : ∀ i t, s.rowOf y i = some t → s.rowOf x i = some t) : Trailed s y where
  rising := h.rising.sublist ht
  reached e he t hu := h.reached e (ht.subset he) t (hr _ t hu)
  later e he n hn := h.later e he n (ht.subset hn)
  seen e he t hu := h.seen e he t (hr _ t hu)

theorem Trailed.same (h : Trailed s x) (hi : y.inserted = x.inserted) (hn : y.notices = x.notices)
    (hr : y.rows = x.rows) : Trailed s y :=
  h.sublist (by rw [Txn.trail, Txn.trail, hi, hn]) fun i t => by simp [Sys.rowOf, hr]

/-- A statement that is no requeue keeps the order of what its transaction announces. -/
theorem Trailed.act (hb : Base s) (ho : Ordered s) (hs : Staged s) (hx : s.txns.get p = some x)
    (hq : ∀ id op, st = .transition id op → op.isRequeue = false) (h : s.act p x st = some o) :
    Trailed s o.txn := by
  have ht := hs.txns p x hx
  cases effect_of_act h with
  | quiet he => exact ht.same he.inserted he.notices he.rows
  | look _ he => rw [he]; exact ht.same rfl rfl rfl
  | insert _ he =>
      rw [he]
      refine ht.write (fun e hm hid => ?_) fun e hm hid => ?_
      · exact absurd (hb.locks.task _ _ _ ((ho.txns p x hx).trail hm)) (by rw [hid]; exact Nat.lt_irrefl _)
      · exact absurd (hs.given e hm) (by rw [hid]; exact Nat.lt_irrefl _)
  | @update snapshot rest id op t t' _ hrow ha _ he _ _ _ _ hst =>
      rw [he]
      have hle := RowOp.rank_le_of_apply ha (hq id op hst)
      have hlt := RowOp.rank_lt_of_publishes ha (hq id op hst)
      refine ht.write (fun e hm hid => ?_) fun e hm hid => ?_
      · have hreached := ht.reached e hm t (hid ▸ hrow)
        exact ⟨hreached.trans hle, fun hp => Nat.lt_of_le_of_lt hreached (hlt hp)⟩
      · have hreached := ht.seen e hm t (hid ▸ hrow)
        exact ⟨hreached.trans hle, fun hp => Nat.lt_of_le_of_lt hreached (hlt hp)⟩
  | @purge id he =>
      rw [he]
      refine ht.sublist (List.Sublist.refl _) fun i t hi => ?_
      by_cases hid : i = id
      · simp [Sys.rowOf, hid] at hi
      · have hne : (i == id) = false := by simpa using hid
        simpa [Sys.rowOf, List.lookup_cons, hne] using hi
  | skip hn _ he =>
      rw [he]
      refine ht.sublist ?_ fun i t hi => hi
      simp only [Txn.trail, hn, List.map_cons]
      exact (List.sublist_cons_self _ _).append_left _
  | @publish n rest r hn _ he =>
      rw [he]
      have htrail : ({ x with
          notices := rest
          inserted := x.inserted ++ [(s.events.next,
            ⟨n.generation, n.applied.event r.name x.now, .transition n.snapshot⟩)] } : Txn).trail = x.trail := by
        simp [Txn.trail, hn, liveOf, Origin.isTransition]
        rfl
      exact ht.sublist (by rw [htrail]) fun i t hi => hi
  | @fill c limit hc _ _ he =>
      have hrole := (hb.txns p x hx).role
      rw [hc] at hrole
      have hidle := (show ChunkOk s p x c from hrole).idle
      rw [he]
      refine ht.sublist ?_ fun i t hi => hi
      have hnil : liveOf ((chunk s.tasks c.types c.marker limit).1.zipIdx.map fun y =>
          (s.events.next + y.2, (⟨c.generation, (y.1.2.applied y.1.1).event c.name x.now,
            .backfill c.generation⟩ : Insertion))) = [] := by
        rw [liveOf, List.map_eq_nil_iff, List.filter_eq_nil_iff]
        intro n hn
        obtain ⟨y, -, rfl⟩ := List.mem_map.mp hn
        simp [Origin.isTransition]
      simp only [Txn.trail, hidle.2.2.1, hnil]
      exact List.nil_sublist _

/-! ## Runs -/

theorem Trailed.of_eq (h : Trailed s x) (hl : s'.ledger = s.ledger) (ht : s'.tasks.get = s.tasks.get) :
    Trailed s' x where
  rising := h.rising
  reached := by simpa only [Sys.rowOf, ht] using h.reached
  later := hl ▸ h.later
  seen := by simpa only [Sys.rowOf, ht, hl] using h.seen

theorem Staged.move (hb : Base s) (ho : Ordered s) (hs : Staged s) (hx : s.txns.get p = some x)
    (hq : ∀ id op, st = .transition id op → op.isRequeue = false) (h : s.act p x st = some o) :
    Staged (s.move p o) where
  ledger := hs.ledger
  given e he := Nat.lt_add_right _ (hs.given e he)
  reached := hs.reached
  txns q y hy := by
    rcases get_move_cases hy with ⟨rfl, rfl⟩ | ⟨-, hy⟩
    · exact (Trailed.act hb ho hs hx hq h).of_eq rfl rfl
    · exact (hs.txns q y hy).of_eq rfl rfl
  told := hs.told

theorem rowOf_of_commit {i : TaskId} (h : (s.commit p x).tasks.get i = some t) : s.rowOf x i = some t := by
  rcases Table.get_overlay_cases h with ⟨hl, hg⟩ | hl
  · simp [Sys.rowOf, hl, hg]
  · simp [Sys.rowOf, hl]

theorem Staged.commit (hb : Base s) (ho : Ordered s) (hs : Staged s) (hx : s.txns.get p = some x)
    (hc : x.complete = true) : Staged (s.commit p x) := by
  have ht := hs.txns p x hx
  have hsub : (liveOf x.inserted).Sublist x.trail := List.sublist_append_left _ _
  have hledger : liveOf (s.commit p x).ledger = liveOf s.ledger ++ liveOf x.inserted := liveOf_append _ _
  constructor
  · rw [hledger, List.pairwise_append]
    exact ⟨hs.ledger, ht.rising.sublist hsub, fun e he n hn => ht.later e he n (hsub.subset hn)⟩
  · rw [hledger]
    intro e he
    rcases List.mem_append.mp he with he | he
    · exact hs.given e he
    · exact hb.locks.task _ _ _ ((ho.txns p x hx).trail (hsub.subset he))
  · rw [hledger]
    intro e he t hu
    rcases List.mem_append.mp he with he | he
    · exact ht.seen e he t (rowOf_of_commit hu)
    · exact ht.reached e (hsub.subset he) t (rowOf_of_commit hu)
  · intro q y hy
    obtain ⟨hy, hne⟩ := get_finish.mp hy
    have hty := hs.txns q y hy
    have hframe := hb.frame_commit hx hc hne
    have hapart : ∀ e ∈ liveOf x.inserted, ¬ s.locks.Holds (.task e.2.id) q .update := fun e he hh =>
      hne (hb.locks.sound.exclusive ((ho.txns p x hx).trail (hsub.subset he)) hh)
    have hrow : ∀ i, s.locks.Holds (.task i) q .update → (s.commit p x).rowOf y i = s.rowOf y i := by
      intro i hh
      simp only [Sys.rowOf, hframe.task i hh]
    constructor
    · exact hty.rising
    · intro e he t hu
      rw [hrow _ ((ho.txns q y hy).trail he)] at hu
      exact hty.reached e he t hu
    · rw [hledger]
      intro e he n hn
      rcases List.mem_append.mp he with he | he
      · exact hty.later e he n hn
      · intro _ hid
        exact absurd (hid ▸ (ho.txns q y hy).trail hn) (hapart e he)
    · rw [hledger]
      intro e he t hu
      unfold Sys.rowOf at hu
      cases hl : y.rows.lookup e.2.id with
      | some v =>
          have hh := (hb.txns q y hy).rows _ v hl
          rcases List.mem_append.mp he with he | he
          · refine hty.seen e he t ?_
            rw [hl, Option.getD_some] at hu
            simp [Sys.rowOf, hl, hu]
          · exact absurd hh (hapart e he)
      | none =>
          rw [hl, Option.getD_none] at hu
          rcases List.mem_append.mp he with he | he
          · exact ht.seen e he t (rowOf_of_commit hu)
          · exact ht.reached e (hsub.subset he) t (rowOf_of_commit hu)
  · intro seq n hn
    obtain ⟨-, hn | hn⟩ := get_commit_event_cases hn
    · exact List.mem_append_left _ (hs.told seq n hn)
    · exact List.mem_append_right _ hn

/-- The transactions of a state are those of the other one, or have announced nothing. -/
theorem Staged.of_eq (hs : Staged s) (hl : s'.ledger = s.ledger) (ht : s'.tasks = s.tasks)
    (he : s'.events = s.events) (hx : ∀ q y, s'.txns.get q = some y →
      (y.inserted = [] ∧ y.notices = [] ∧ y.rows = []) ∨ s.txns.get q = some y) : Staged s' where
  ledger := hl ▸ hs.ledger
  given := by rw [hl, ht]; exact hs.given
  reached := by rw [hl, ht]; exact hs.reached
  txns q y hy := by
    rcases hx q y hy with ⟨hi, hn, hr⟩ | hy
    · have htrail : y.trail = [] := by simp [Txn.trail, liveOf, hi, hn]
      constructor
      · rw [htrail]; exact List.Pairwise.nil
      · rw [htrail]; exact fun _ he => by cases he
      · rw [htrail]; exact fun _ _ _ hn => by cases hn
      · intro e he t hu
        rw [hl] at he
        simp only [Sys.rowOf, hr, List.lookup_nil, Option.getD_none, ht] at hu
        exact hs.reached e he t hu
    · exact (hs.txns q y hy).of_eq hl (by rw [ht])
  told := by rw [hl, he]; exact hs.told

theorem Staged.start (hs : Staged s) {now : Time} {repeatable : Bool} {role : Role}
    {locks : List (Target × Mode)} :
    Staged (s.start { now := now, repeatable := repeatable, role := role } locks) :=
  hs.of_eq rfl rfl rfl fun _ _ hy => (get_start_cases hy).imp (fun h => by rw [h.2]; exact ⟨rfl, rfl, rfl⟩) id

theorem Staged.rollback (hs : Staged s) (c : Consumer) : Staged (rolledBack s c) :=
  hs.of_eq (by unfold rolledBack; cases c.txn <;> rfl) (by unfold rolledBack; cases c.txn <;> rfl)
    (by unfold rolledBack; cases c.txn <;> rfl) fun _ _ hy => Or.inr (get_rolledBack hy)

theorem Staged.step (hb : Base s) (ho : Ordered s) (hs : Staged s) (hq : action.requeues = false)
    (h : Steps s action s') : Staged s' := by
  cases h with
  | begin => exact hs.start
  | @within p x st o hx hact =>
      refine hs.move hb ho hx ?_ hact
      rintro id op rfl
      exact hq
  | commit hx hc => exact hs.commit hb ho hx hc
  | rollback => exact hs.of_eq rfl rfl rfl fun _ _ hy => Or.inr (get_finish.mp hy).1
  | chunk => exact hs.start
  | refuse => exact (hs.rollback _).of_eq rfl rfl rfl fun _ _ hy => Or.inr hy
  | @pull k now c =>
      have hentered : Staged ((rolledBack s c).enter k .ready (some (rolledBack s c).txns.next)) :=
        (hs.rollback c).of_eq rfl rfl rfl fun _ _ hy => Or.inr hy
      exact hentered.start
  | unsubscribe => exact hs.start
  | _ => exact hs.of_eq rfl rfl rfl fun _ _ hy => Or.inr hy

/-- Along a run without a requeue. -/
theorem staged_of_run {catalog : Catalog} {actions : List Action}
    (hr : run Sys.step (Sys.init catalog) actions = some s) (hq : ∀ a ∈ actions, a.requeues = false) :
    Base s ∧ Staged s := by
  have hall : Base s ∧ Ordered s ∧ Staged s := by
    refine Runs.invariant (I := fun s => Base s ∧ Ordered s ∧ Staged s) ?_
      ⟨base_init, ordered_init, staged_init⟩ (Along.of_forall hq _) hr
    rintro s action s' ⟨hb, ho, hs⟩ hq hstep
    have hsteps := steps_of_step hstep
    exact ⟨hb.step hsteps, ho.step hb hsteps, hs.step hb ho hq hsteps⟩
  exact ⟨hall.1, hall.2.2⟩

end Feed

end Fronta
