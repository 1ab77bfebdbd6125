import Fronta.Feed.Lemmas.Consumers
import Fronta.Feed.Lemmas.Effects

/-!
# What others see of a transaction

The events that a transaction inserts and the tasks that a delivery enqueues are in no table until it
commits, and a transaction that ends otherwise leaves none of them behind. Events disappear by commits.
-/

namespace Fronta.Feed

open Runs Sql

variable {s s' : Sys} {p q : TxnId} {x y : Txn} {o : Outcome} {st : TxnAction} {action : Action}
  {i : TaskId} {seq : Seq}

/-! ## Transactions after a step -/

theorem holds_rolledBack {c : Consumer} (hy : (rolledBack s c).txns.get q = some y) {r : Target}
    {m : Mode} (h : s.locks.Holds r q m) : (rolledBack s c).locks.Holds r q m := by
  unfold rolledBack at hy ⊢
  cases hc : c.txn with
  | none => exact h
  | some p =>
      rw [hc] at hy
      exact holds_finish.mpr ⟨h, (get_finish.mp hy).2⟩

theorem rolledBack_next (c : Consumer) : (rolledBack s c).txns.next = s.txns.next := by
  unfold rolledBack
  cases c.txn <;> rfl

theorem frame_rolledBack {c : Consumer} (hy : (rolledBack s c).txns.get q = some y) :
    Frame s (rolledBack s c) q :=
  .of_tables (fun _ _ h => holds_rolledBack hy h)
    (by unfold rolledBack; cases c.txn <;> rfl) (by unfold rolledBack; cases c.txn <;> rfl)
    (by unfold rolledBack; cases c.txn <;> rfl)

theorem Frame.trans {s'' : Sys} (h : Frame s s' p) (ht : s''.tasks = s'.tasks)
    (he : s''.events = s'.events) (hr : s''.registrations = s'.registrations)
    (hl : ∀ r m, s'.locks.Holds r p m → s''.locks.Holds r p m) : Frame s s'' p where
  held r m hh := hl r m (h.held r m hh)
  registrationsNext := by rw [hr]; exact h.registrationsNext
  task i hh := by rw [ht]; exact h.task i hh
  event seq hh := by rw [he]; exact h.event seq hh
  live g m r hh hg := by rw [hr]; exact h.live g m r hh hg
  fixed g r hh hg := by rw [hr]; exact h.fixed g r hh hg
  named g r' hg := by rw [hr] at hg; exact h.named g r' hg
  settled g seq n hh hn := by rw [he] at hn; exact h.settled g seq n hh hn

/-- A transaction that is open after a step is new, or has taken the step, or can rely on it. -/
theorem txn_after (hb : Base s) (hs : Steps s action s') (hy : s'.txns.get q = some y) :
    (s.txns.next ≤ q ∧ y.rows = [] ∧ y.inserted = [] ∧ y.deleted = []) ∨
    (∃ st x o, action = .within q st ∧ s.txns.get q = some x ∧ s.act q x st = some o ∧
      y = o.txn ∧ s' = s.move q o) ∨
    (s.txns.get q = some y ∧ Frame s s' q) := by
  have hstart : ∀ {now : Time} {repeatable : Bool} {role : Role} {locks : List (Target × Mode)},
      (s.start { now := now, repeatable := repeatable, role := role } locks).txns.get q = some y →
      (s.txns.next ≤ q ∧ y.rows = [] ∧ y.inserted = [] ∧ y.deleted = []) ∨ (s.txns.get q = some y ∧
        Frame s (s.start { now := now, repeatable := repeatable, role := role } locks) q) :=
    fun hy => (get_start_cases hy).imp
      (fun he => by rw [he.1, he.2]; exact ⟨Nat.le_refl _, rfl, rfl, rfl⟩) fun hy => ⟨hy, frame_start⟩
  cases hs with
  | begin => exact (hstart hy).imp_right Or.inr
  | @within p x st o hx ho =>
      rcases get_move_cases hy with ⟨rfl, rfl⟩ | ⟨-, hy⟩
      · exact Or.inr (Or.inl ⟨st, x, o, rfl, hx, ho, rfl, rfl⟩)
      · exact Or.inr (Or.inr ⟨hy, frame_move s p q o⟩)
  | commit hx hc =>
      obtain ⟨hy, hq⟩ := get_finish.mp hy
      exact Or.inr (Or.inr ⟨hy, hb.frame_commit hx hc hq⟩)
  | rollback =>
      obtain ⟨hy, hq⟩ := get_finish.mp hy
      exact Or.inr (Or.inr ⟨hy, frame_finish hq⟩)
  | create => exact Or.inr (Or.inr ⟨hy, frame_create⟩)
  | refilter _ _ hf =>
      exact Or.inr (Or.inr ⟨hy, frame_refilter hf (Nat.ne_of_lt (Table.lt_of_get hy))⟩)
  | chunk => exact (hstart hy).imp_right Or.inr
  | refuse =>
      exact Or.inr (Or.inr ⟨get_rolledBack hy,
        (frame_rolledBack hy).trans rfl rfl rfl fun _ _ h => h⟩)
  | @pull k now c =>
      rcases get_start_cases hy with ⟨rfl, rfl⟩ | hy
      · exact Or.inl ⟨(rolledBack_next c).ge, rfl, rfl, rfl⟩
      · exact Or.inr (Or.inr ⟨get_rolledBack hy,
          (frame_rolledBack hy).trans rfl rfl rfl fun _ _ h => holds_start.mpr (Or.inr h)⟩)
  | unsubscribe => exact (hstart hy).imp_right Or.inr
  | enter => exact Or.inr (Or.inr ⟨hy, .of_tables (fun _ _ h => h) rfl rfl rfl⟩)
  | same => exact Or.inr (Or.inr ⟨hy, .of_tables (fun _ _ h => h) rfl rfl rfl⟩)
  | leave => exact Or.inr (Or.inr ⟨hy, .of_tables (fun _ _ h => h) rfl rfl rfl⟩)
  | setPaused => exact Or.inr (Or.inr ⟨hy, .of_tables (fun _ _ h => h) rfl rfl rfl⟩)

/-- Tasks and events are written by commits only. -/
theorem tables_step (hs : Steps s action s') :
    (s'.tasks.get = s.tasks.get ∧ s'.events.get = s.events.get) ∨
      ∃ p x, action = .commit p ∧ s.txns.get p = some x ∧ x.complete = true ∧ s' = s.commit p x := by
  cases hs with
  | commit hx hc => exact Or.inr ⟨_, _, rfl, hx, hc, rfl⟩
  | @refuse k now c => refine Or.inl ⟨?_, ?_⟩ <;> unfold rolledBack <;> cases c.txn <;> rfl
  | @pull k now c => refine Or.inl ⟨?_, ?_⟩ <;> unfold rolledBack <;> cases c.txn <;> rfl
  | _ => exact Or.inl ⟨rfl, rfl⟩

/-! ## Deleted events -/

/-- A statement marks an event for deletion as an acknowledgement of its batch, as a purge of an event
past its retention that no other transaction holds, or for an `unsubscribe`. -/
theorem deleted_of_act (h : s.act p x st = some o) (hd : seq ∈ o.txn.deleted) :
    seq ∈ x.deleted ∨
    (st = .ack ∧ ∃ f seqs, x.role = .pull f ∧ f.batch = some seqs ∧ seq ∈ seqs) ∨
    (∃ retentionS n, st = .purgeEvent seq retentionS ∧ x.role = .plain ∧
      s.events.get seq = some n ∧ n.event.createdAt < x.now - retentionS ∧
      s.free p (.event seq) .update = true) ∨
    ∃ u, x.role = .unsubscribe u := by
  cases acts_of_act h with
  | @purgeEvent _ retentionS n hn hp hold hfree =>
      rcases List.mem_cons.mp hd with rfl | hd
      · refine Or.inr (Or.inr (Or.inl ⟨retentionS, n, rfl, ?_, hn, hold, hfree⟩))
        cases hr : x.role <;> simp_all [Txn.isPlain]
      · exact Or.inl hd
  | @ack f seqs hf hseqs =>
      rcases List.mem_append.mp hd with hd | hd
      · exact Or.inr (Or.inl ⟨rfl, f, seqs, hf, hseqs, hd⟩)
      · exact Or.inl hd
  | dropEvent hu => exact Or.inr (Or.inr (Or.inr ⟨_, hu⟩))
  | _ => exact Or.inl hd

/-- An event goes with the commit of a transaction that has deleted it. -/
theorem event_gone (hs : Steps s action s') {n : Insertion} (hn : s.events.get seq = some n)
    (hgone : s'.events.get seq = none) :
    ∃ p x, action = .commit p ∧ s.txns.get p = some x ∧ x.complete = true ∧ seq ∈ x.deleted := by
  rcases tables_step hs with ⟨-, he⟩ | ⟨p, x, ha, hx, hc, rfl⟩
  · rw [he, hn] at hgone; cases hgone
  · refine ⟨p, x, ha, hx, hc, ?_⟩
    by_contra hd
    have hkept : (s.events.overlay (x.inserted.map fun n => (n.1, some n.2))).get seq ≠ none := by
      cases hl : (x.inserted.map fun n => (n.1, some n.2)).lookup seq with
      | none => rw [Table.get_overlay_of_none hl, hn]; simp
      | some v =>
          obtain ⟨l₁, l₂, hl', -⟩ := List.lookup_eq_some_iff.mp hl
          have hmem : (seq, v) ∈ x.inserted.map fun n => (n.1, some n.2) := by rw [hl']; simp
          obtain ⟨y, -, he⟩ := List.mem_map.mp hmem
          cases he
          rw [Table.get_overlay_of_some hl (Table.pos_of_get hn) (Table.lt_of_get hn)]
          simp
    obtain ⟨m, hm⟩ := Option.ne_none_iff_exists'.mp hkept
    have : (s.commit p x).events.get seq = some m :=
      Table.get_erase_eq_some.mpr ⟨hm, decide_eq_false hd⟩
    rw [this] at hgone; cases hgone

/-! ## Writes before the commit -/

/-- What a transaction has inserted is in no table, and a delivery only inserts. -/
structure Hidden (s : Sys) (p : TxnId) (x : Txn) : Prop where
  events : ∀ n ∈ x.inserted, 0 < n.1 ∧ s.events.get n.1 = none
  rows : ∀ f, x.role = .pull f → ∀ i v, x.rows.lookup i = some v → 0 < i ∧ s.tasks.get i = none

theorem Hidden.frame (hf : Frame s s' p) (hok : TxnOk s p x) (h : Hidden s p x) : Hidden s' p x where
  events n hn := by
    rw [hf.event n.1 (hok.inserted n hn).numbered]
    exact h.events n hn
  rows f hr i v hv := by
    rw [hf.task i (hok.rows i v hv)]
    exact h.rows f hr i v hv

theorem rows_of_pull {f : Delivery} (hr : x.role = .pull f) (h : s.act p x st = some o) :
    o.txn.rows = x.rows ∨ ∃ t, o.txn.rows = (s.tasks.next, some t) :: x.rows := by
  cases effect_of_act h with
  | quiet he => exact Or.inl he.rows
  | look _ he => rw [he]; exact Or.inl rfl
  | insert _ he => rw [he]; exact Or.inr ⟨_, rfl⟩
  | skip _ _ he => rw [he]; exact Or.inl rfl
  | publish _ _ he => rw [he]; exact Or.inl rfl
  | fill _ _ _ he => rw [he]; exact Or.inl rfl
  | update _ _ _ _ _ _ hp => simp [Txn.isPlain, hr] at hp
  | purge _ hp => simp [Txn.isPlain, hr] at hp

theorem inserted_of_act (h : s.act p x st = some o) {n : Seq × Insertion}
    (hn : n ∈ o.txn.inserted) : n ∈ x.inserted ∨ s.events.next ≤ n.1 := by
  cases effect_of_act h with
  | quiet he => exact Or.inl (he.inserted ▸ hn)
  | look _ he => rw [he] at hn; exact Or.inl hn
  | insert _ he => rw [he] at hn; exact Or.inl hn
  | update _ _ _ _ he => rw [he] at hn; exact Or.inl hn
  | purge he => rw [he] at hn; exact Or.inl hn
  | skip _ _ he => rw [he] at hn; exact Or.inl hn
  | publish _ _ he =>
      rw [he] at hn
      refine (List.mem_append.mp hn).imp_right fun hn => ?_
      rw [List.mem_singleton.mp hn]
  | fill _ _ _ he =>
      rw [he] at hn
      obtain ⟨y, -, rfl⟩ := List.mem_map.mp hn
      exact Or.inr (Nat.le_add_right _ _)

theorem pull_of_act {f : Delivery} (h : s.act p x st = some o) (hr : o.txn.role = .pull f) :
    ∃ f₀, x.role = .pull f₀ := by
  have hp := (role_of_act h).2
  rw [hr] at hp
  cases hx : x.role <;> simp_all [Role.isPull]

theorem Hidden.act (h : Hidden s p x) (ho : s.act p x st = some o) :
    Hidden (s.move p o) p o.txn where
  events n hn := by
    rcases inserted_of_act ho hn with hn | hle
    · exact h.events n hn
    · exact ⟨s.events.pos.trans_le hle, Table.get_of_le s.events hle⟩
  rows f hr i v hv := by
    obtain ⟨f₀, hf₀⟩ := pull_of_act ho hr
    rcases rows_of_pull hf₀ ho with he | ⟨t, he⟩ <;> rw [he] at hv
    · exact h.rows f₀ hf₀ i v hv
    · rcases lookup_cons hv with ⟨rfl, rfl⟩ | ⟨-, hv⟩
      · exact ⟨s.tasks.pos, Table.get_of_le s.tasks (Nat.le_refl _)⟩
      · exact h.rows f₀ hf₀ i v hv

def HiddenInv (s : Sys) : Prop := ∀ p x, s.txns.get p = some x → Hidden s p x

theorem HiddenInv.step (hb : Base s) (h : HiddenInv s) (hs : Steps s action s') : HiddenInv s' := by
  intro q y hy
  rcases txn_after hb hs hy with ⟨-, hr, hi, -⟩ | ⟨st, x, o, -, hx, ho, rfl, rfl⟩ | ⟨hx, hf⟩
  · exact ⟨(fun n hn => by rw [hi] at hn; cases hn), fun f _ i v hv => by rw [hr] at hv; cases hv⟩
  · exact (h q x hx).act ho
  · exact (h q y hx).frame hf (hb.txns q y hx)

theorem hidden_of_reachable {catalog : Catalog} (h : Reachable Sys.step (Sys.init catalog) s) :
    HiddenInv s :=
  (h.invariant (I := fun s => Base s ∧ HiddenInv s) ⟨base_init, fun _ _ h => by cases h⟩
    fun _ _ _ hi hs => ⟨hi.1.step (steps_of_step hs), hi.2.step hi.1 (steps_of_step hs)⟩).2

theorem lookup_of_sorted {α : Type*} {l : List (ℕ × α)} (hl : l.Pairwise fun a b => a.1 < b.1)
    {y : ℕ × α} (hy : y ∈ l) : l.lookup y.1 = some y.2 := by
  induction l with
  | nil => cases hy
  | cons z l ih =>
      obtain ⟨hz, hl⟩ := List.pairwise_cons.mp hl
      rcases List.mem_cons.mp hy with rfl | hy
      · exact List.lookup_cons_self
      · rw [List.lookup_cons, beq_false_of_ne (Nat.ne_of_lt (hz y hy)).symm]
        exact ih hl hy

/-- The commit shows the rows and the events that are not deleted with it. -/
theorem shown_of_commit (hok : TxnOk s p x) (hl : LocksOk s)
    (hsorted : x.inserted.Pairwise fun a b => a.1 < b.1) :
    (∀ i v, x.rows.lookup i = some v → 0 < i → (s.commit p x).tasks.get i = v) ∧
    ∀ n ∈ x.inserted, n.1 ∉ x.deleted → 0 < n.1 → (s.commit p x).events.get n.1 = some n.2 := by
  refine ⟨fun i v hv hi => ?_, fun n hn hd hp => ?_⟩
  · exact Table.get_overlay_of_some hv hi (hl.task i _ _ (hok.rows i v hv))
  · have hlt := hl.event _ _ _ (hok.inserted n hn).numbered
    have hlook : (x.inserted.map fun n => (n.1, some n.2)).lookup n.1 = some (some n.2) := by
      refine lookup_of_sorted ?_ (List.mem_map_of_mem (f := fun n => (n.1, some n.2)) hn)
      exact List.pairwise_map.mpr hsorted
    exact Table.get_erase_eq_some.mpr
      ⟨Table.get_overlay_of_some hlook hp hlt, decide_eq_false hd⟩

/-! ## Writes that are lost -/

/-- The id is given out, and no table and no open transaction has its task. -/
structure TaskLost (s : Sys) (i : TaskId) : Prop where
  known : i < s.tasks.next
  absent : s.tasks.get i = none
  unwritten : ∀ p x t, s.txns.get p = some x → x.rows.lookup i ≠ some (some t)

structure EventLost (s : Sys) (seq : Seq) : Prop where
  known : seq < s.events.next
  absent : s.events.get seq = none
  unwritten : ∀ p x n, s.txns.get p = some x → n ∈ x.inserted → n.1 ≠ seq

theorem next_step (hs : Steps s action s') :
    s.tasks.next ≤ s'.tasks.next ∧ s.events.next ≤ s'.events.next := by
  cases hs with
  | within => exact ⟨Nat.le_add_right _ _, Nat.le_add_right _ _⟩
  | @refuse k now c => refine ⟨?_, ?_⟩ <;> unfold rolledBack <;> cases c.txn <;> exact Nat.le_refl _
  | @pull k now c => refine ⟨?_, ?_⟩ <;> unfold rolledBack <;> cases c.txn <;> exact Nat.le_refl _
  | _ => exact ⟨Nat.le_refl _, Nat.le_refl _⟩

theorem TaskLost.step (hb : Base s) (h : TaskLost s i) (hs : Steps s action s') : TaskLost s' i where
  known := h.known.trans_le (next_step hs).1
  absent := by
    rcases tables_step hs with ⟨ht, -⟩ | ⟨p, x, -, hx, -, rfl⟩
    · rw [ht, h.absent]
    · by_contra hn
      obtain ⟨t, ht⟩ := Option.ne_none_iff_exists'.mp hn
      rcases Table.get_overlay_cases ht with ⟨-, ht⟩ | ht
      · rw [h.absent] at ht; cases ht
      · exact h.unwritten p x t hx ht
  unwritten q y t hy hl := by
    rcases txn_after hb hs hy with ⟨-, hr, -⟩ | ⟨st, x, o, -, hx, ho, rfl, rfl⟩ | ⟨hx, -⟩
    · rw [hr] at hl; cases hl
    · cases effect_of_act ho with
      | quiet he => rw [he.rows] at hl; exact h.unwritten q x t hx hl
      | look _ he => rw [he] at hl; exact h.unwritten q x t hx hl
      | insert _ he =>
          rw [he] at hl
          rcases lookup_cons hl with ⟨rfl, -⟩ | ⟨-, hl⟩
          · exact absurd h.known (Nat.lt_irrefl _)
          · exact h.unwritten q x t hx hl
      | @update snapshot rest id op t₀ t' _ hr _ _ he =>
          rw [he] at hl
          rcases lookup_cons hl with ⟨rfl, -⟩ | ⟨-, hl⟩
          · -- the transaction finds no such row
            unfold Sys.rowOf at hr
            cases hx' : x.rows.lookup i with
            | none => rw [hx', Option.getD_none, h.absent] at hr; cases hr
            | some v =>
                rw [hx', Option.getD_some] at hr
                exact h.unwritten q x t₀ hx (hr ▸ hx')
          · exact h.unwritten q x t hx hl
      | purge he =>
          rw [he] at hl
          rcases lookup_cons hl with ⟨-, hl⟩ | ⟨-, hl⟩
          · cases hl
          · exact h.unwritten q x t hx hl
      | skip _ _ he => rw [he] at hl; exact h.unwritten q x t hx hl
      | publish _ _ he => rw [he] at hl; exact h.unwritten q x t hx hl
      | fill _ _ _ he => rw [he] at hl; exact h.unwritten q x t hx hl
    · exact h.unwritten q y t hx hl

theorem EventLost.step (hb : Base s) (h : EventLost s seq) (hs : Steps s action s') :
    EventLost s' seq where
  known := h.known.trans_le (next_step hs).2
  absent := by
    rcases tables_step hs with ⟨-, he⟩ | ⟨p, x, -, hx, -, rfl⟩
    · rw [he, h.absent]
    · by_contra hn
      obtain ⟨n, hn⟩ := Option.ne_none_iff_exists'.mp hn
      rcases (get_commit_event_cases hn).2 with hn | hn
      · rw [h.absent] at hn; cases hn
      · exact h.unwritten p x _ hx hn rfl
  unwritten q y n hy hn := by
    rcases txn_after hb hs hy with ⟨-, -, hi, -⟩ | ⟨st, x, o, -, hx, ho, rfl, rfl⟩ | ⟨hx, -⟩
    · rw [hi] at hn; cases hn
    · rcases inserted_of_act ho hn with hn | hle
      · exact h.unwritten q x n hx hn
      · rintro rfl
        exact absurd h.known (Nat.not_lt.mpr hle)
    · exact h.unwritten q y n hx hn

/-- The inserts of a transaction that ends in another way than by its commit are lost. -/
theorem lost_of_ended (hb : Base s) (hh : HiddenInv s) (hx : s.txns.get p = some x)
    (hs : Steps s action s') (hend : s'.txns.get p = none) (ha : action ≠ .commit p) :
    (∀ f, x.role = .pull f → ∀ i v, x.rows.lookup i = some v → TaskLost s' i) ∧
    ∀ n ∈ x.inserted, EventLost s' n.1 := by
  have hok := hb.txns p x hx
  have hframe : ∀ i, s.locks.Holds (.task i) p .update → s'.tasks.get i = s.tasks.get i := by
    rcases tables_step hs with ⟨ht, -⟩ | ⟨q, y, rfl, hy, hc, rfl⟩
    · exact fun i _ => by rw [ht]
    · exact (hb.frame_commit hy hc fun he => ha (by rw [he])).task
  have hevents : ∀ seq, s.locks.Holds (.event seq) p .update → s'.events.get seq = s.events.get seq := by
    rcases tables_step hs with ⟨-, he⟩ | ⟨q, y, rfl, hy, hc, rfl⟩
    · exact fun seq _ => by rw [he]
    · exact (hb.frame_commit hy hc fun he => ha (by rw [he])).event
  -- the transactions that are left were there, or have done nothing
  have hold : ∀ q y, s'.txns.get q = some y →
      (y.rows = [] ∧ y.inserted = []) ∨ (q ≠ p ∧ s.txns.get q = some y) := by
    intro q y hy
    have hq : q ≠ p := by
      rintro rfl
      rw [hend] at hy; cases hy
    rcases txn_after hb hs hy with ⟨-, hr, hi, -⟩ | ⟨st, x₀, o, -, hx₀, ho, rfl, rfl⟩ | ⟨hy, -⟩
    · exact Or.inl ⟨hr, hi⟩
    · have : (s.move q o).txns.get p = some x := by
        simp [Sys.move, Table.get_modify, hx, Ne.symm hq]
      rw [hend] at this; cases this
    · exact Or.inr ⟨hq, hy⟩
  refine ⟨fun f hf i v hv => ?_, fun n hn => ?_⟩
  · have hl := hok.rows i v hv
    refine ⟨(hb.locks.task i _ _ hl).trans_le (next_step hs).1, ?_, fun q y t hy ht => ?_⟩
    · rw [hframe i hl]
      exact ((hh p x hx).rows f hf i v hv).2
    · rcases hold q y hy with ⟨hr, -⟩ | ⟨hq, hy⟩
      · rw [hr] at ht; cases ht
      · exact hq (hb.locks.sound.exclusive ((hb.txns q y hy).rows i _ ht) hl).symm
  · have hl := (hok.inserted n hn).numbered
    refine ⟨(hb.locks.event n.1 _ _ hl).trans_le (next_step hs).2, ?_, fun q y m hy hm he => ?_⟩
    · rw [hevents n.1 hl]
      exact ((hh p x hx).events n hn).2
    · rcases hold q y hy with ⟨-, hi⟩ | ⟨hq, hy⟩
      · rw [hi] at hm; cases hm
      · have hm := ((hb.txns q y hy).inserted m hm).numbered
        rw [he] at hm
        exact hq (hb.locks.sound.exclusive hm hl).symm

end Fronta.Feed
