import Fronta.Feed.Lemmas.Commit
import Fronta.Feed.Lemmas.Effects

/-!
# The ledger of published changes

Events of one task are numbered in the order in which its changes commit, because a publisher holds the
task's row. For a registration that every statement sees, what a transaction has inserted and announced
is what it has changed.
-/

namespace Fronta.Feed

open Runs Sql

variable {s s' : Sys} {p q : TxnId} {x : Txn} {o : Outcome} {action : TxnAction} {g : Generation}
  {r : Registration}

/-! ## Numbers -/

/-- The events of two transitions of one task are numbered in this order. -/
def Before (a b : Seq × Insertion) : Prop :=
  a.2.origin.isTransition = true → b.2.origin.isTransition = true →
    a.2.event.taskId = b.2.event.taskId → a.1 < b.1

structure Numbered (s : Sys) (p : TxnId) (x : Txn) : Prop where
  sorted : x.inserted.Pairwise fun a b => a.1 < b.1
  owned : ∀ n ∈ x.inserted, n.2.origin.isTransition = true →
    s.locks.Holds (.task n.2.event.taskId) p .update
  announced : ∀ n ∈ x.notices, s.locks.Holds (.task n.applied.id) p .update
  later : ∀ e ∈ s.ledger, ∀ n ∈ x.inserted, Before e n

structure Ordered (s : Sys) : Prop where
  ledger : s.ledger.Pairwise Before
  below : ∀ e ∈ s.ledger, e.1 < s.events.next
  txns : ∀ p x, s.txns.get p = some x → Numbered s p x

theorem ordered_init {catalog : Catalog} : Ordered (Sys.init catalog) :=
  ⟨List.Pairwise.nil, (fun _ h => by cases h), fun _ _ h => by cases h⟩

theorem Numbered.frame (hf : Frame s s' p) (hl : s'.ledger = s.ledger) (h : Numbered s p x) :
    Numbered s' p x where
  sorted := h.sorted
  owned n hn ht := hf.held _ _ (h.owned n hn ht)
  announced n hn := hf.held _ _ (h.announced n hn)
  later := hl ▸ h.later

theorem Numbered.same {y : Txn} (h : Numbered s p x) (hi : y.inserted = x.inserted)
    (hn : ∀ n ∈ y.notices, n ∈ x.notices ∨ s.locks.Holds (.task n.applied.id) p .update) :
    Numbered s p y where
  sorted := hi ▸ h.sorted
  owned := hi ▸ h.owned
  announced n hm := (hn n hm).elim (h.announced n) id
  later := hi ▸ h.later

theorem Numbered.write (h : Numbered s p x) {i : TaskId} (hl : s.locks.Holds (.task i) p .update)
    (snapshot : Table Registration) (old : Option Row) (t : Row) (publishes : Bool) :
    Numbered s p (x.write snapshot i old t publishes) := by
  refine h.same rfl fun n hn => ?_
  simp only [Txn.write] at hn
  split at hn
  · refine (List.mem_append.mp hn).imp id fun hn => ?_
    rw [(mem_noticesOf.mp hn).1]
    exact hl
  · exact Or.inl hn

theorem Numbered.act (hb : Base s) (ho : Ordered s) (hx : s.txns.get p = some x)
    (h : s.act p x action = some o) : Numbered (s.move p o) p o.txn := by
  have hn := ho.txns p x hx
  have hn' : Numbered (s.move p o) p x := hn.frame (frame_move s p p o) rfl
  have hok := hb.txns p x hx
  have hlt : ∀ n ∈ x.inserted, n.1 < s.events.next := fun n hn =>
    hb.locks.event _ _ _ (hok.inserted n hn).numbered
  cases effect_of_act h with
  | quiet hs => exact hn'.same hs.inserted fun n hn => Or.inl (hs.notices ▸ hn)
  | look _ hs => rw [hs]; exact hn'.same rfl fun n hn => Or.inl hn
  | insert _ hs hl =>
      rw [hs]
      exact hn'.write (holds_move.mpr (Or.inl ⟨rfl, hl⟩)) _ _ _ _
  | update _ _ _ _ hs hl =>
      rw [hs]
      exact hn'.write (holds_move.mpr (Or.inl ⟨rfl, hl⟩)) _ _ _ _
  | purge hs => rw [hs]; exact hn'.same rfl fun n hn => Or.inl hn
  | skip hx _ hs => rw [hs]; exact hn'.same rfl fun n hn => Or.inl (hx ▸ List.mem_cons_of_mem _ hn)
  | @publish n rest r hx _ hs =>
      rw [hs]
      have hann := hn'.announced n (hx ▸ List.mem_cons_self)
      refine ⟨List.pairwise_append.mpr ⟨hn.sorted, List.pairwise_singleton _ _, fun a ha b hb => ?_⟩,
        fun m hm ht => ?_, fun m hm => hn'.announced m (hx ▸ List.mem_cons_of_mem _ hm),
        fun e he m hm => ?_⟩
      · rw [List.mem_singleton.mp hb]
        exact hlt a ha
      · rcases List.mem_append.mp hm with hm | hm
        · exact hn'.owned m hm ht
        · cases List.mem_singleton.mp hm
          exact hann
      · rcases List.mem_append.mp hm with hm | hm
        · exact hn.later e he m hm
        · cases List.mem_singleton.mp hm
          exact fun _ _ _ => ho.below e he
  | @fill c limit hc _ _ hs =>
      have hrole := hok.role
      rw [hc] at hrole
      have hidle := (show ChunkOk s p x c from hrole).idle
      rw [hs]
      refine ⟨?_, fun m hm ht => ?_, fun m hm => ?_, fun e _ m hm _ ht => ?_⟩
      · have hidx : ((chunk s.tasks c.types c.marker limit).1.zipIdx.map Prod.snd).Pairwise (· < ·) := by
          rw [List.zipIdx_map_snd]
          exact List.pairwise_lt_range'
        rw [List.pairwise_map] at hidx ⊢
        exact hidx.imp fun h => Nat.add_lt_add_left h _
      · obtain ⟨y, -, rfl⟩ := List.mem_map.mp hm; cases ht
      · rw [hidle.2.2.1] at hm; cases hm
      · obtain ⟨y, -, rfl⟩ := List.mem_map.mp hm; cases ht

theorem Ordered.move (hb : Base s) (ho : Ordered s) (hx : s.txns.get p = some x)
    (h : s.act p x action = some o) : Ordered (s.move p o) where
  ledger := ho.ledger
  below e he := Nat.lt_add_right _ (ho.below e he)
  txns q y hy := by
    rcases get_move_cases hy with ⟨rfl, rfl⟩ | ⟨-, hy⟩
    · exact Numbered.act hb ho hx h
    · exact (ho.txns q y hy).frame (frame_move s p q o) rfl

theorem Ordered.finish (ho : Ordered s) (p : TxnId) : Ordered (s.finish p) where
  ledger := ho.ledger
  below := ho.below
  txns q y hy := by
    obtain ⟨hy, hq⟩ := get_finish.mp hy
    exact (ho.txns q y hy).frame (frame_finish hq) rfl

theorem Ordered.commit (hb : Base s) (ho : Ordered s) (hx : s.txns.get p = some x)
    (hc : x.complete = true) : Ordered (s.commit p x) where
  ledger := by
    refine List.pairwise_append.mpr ⟨ho.ledger, ?_, (ho.txns p x hx).later⟩
    exact (ho.txns p x hx).sorted.imp fun h _ _ _ => h
  below e he := by
    rcases List.mem_append.mp he with he | he
    · exact ho.below e he
    · exact hb.locks.event _ _ _ ((hb.txns p x hx).inserted e he).numbered
  txns q y hy := by
    obtain ⟨hy, hq⟩ := get_finish.mp hy
    have h := ho.txns q y hy
    have hf := hb.frame_commit hx hc hq
    refine ⟨h.sorted, fun n hn ht => hf.held _ _ (h.owned n hn ht),
      fun n hn => hf.held _ _ (h.announced n hn), fun e he n hn => ?_⟩
    rcases List.mem_append.mp he with he | he
    · exact h.later e he n hn
    · intro h₁ h₂ h₃
      have hp := (ho.txns p x hx).owned e he h₁
      rw [h₃] at hp
      exact absurd (hb.locks.sound.exclusive hp (h.owned n hn h₂)) hq

theorem Ordered.of_eq (ho : Ordered s) (hl : s'.ledger = s.ledger) (he : s'.events = s.events)
    (hx : ∀ q y, s'.txns.get q = some y → y.inserted = [] ∧ y.notices = [] ∨ s.txns.get q = some y)
    (hh : ∀ r q m, s.locks.Holds r q m → s'.locks.Holds r q m) : Ordered s' where
  ledger := hl ▸ ho.ledger
  below := by rw [hl, he]; exact ho.below
  txns q y hy := by
    rcases hx q y hy with ⟨hi, hn⟩ | hy
    · exact ⟨by rw [hi]; exact List.Pairwise.nil, (fun n hm => by rw [hi] at hm; cases hm),
        (fun n hm => by rw [hn] at hm; cases hm), fun e _ n hm => by rw [hi] at hm; cases hm⟩
    · have h := ho.txns q y hy
      exact ⟨h.sorted, fun n hm ht => hh _ _ _ (h.owned n hm ht),
        fun n hm => hh _ _ _ (h.announced n hm), hl ▸ h.later⟩

theorem Ordered.start (ho : Ordered s) {now : Time} {repeatable : Bool} {role : Role}
    {locks : List (Target × Mode)} :
    Ordered (s.start { now := now, repeatable := repeatable, role := role } locks) :=
  ho.of_eq rfl rfl
    (fun _ _ hy => (get_start_cases hy).imp (fun h => by rw [h.2]; exact ⟨rfl, rfl⟩) id)
    fun _ _ _ h => holds_start.mpr (Or.inr h)

theorem Ordered.others (ho : Ordered s) (hl : s'.ledger = s.ledger) (he : s'.events = s.events)
    (hx : s'.txns = s.txns) (hh : s'.locks = s.locks) : Ordered s' :=
  ho.of_eq hl he (fun _ _ hy => Or.inr (hx ▸ hy)) fun _ _ _ h => hh ▸ h

theorem Ordered.rollback (ho : Ordered s) (c : Consumer) : Ordered (rolledBack s c) := by
  unfold rolledBack
  cases c.txn with
  | none => exact ho
  | some q => exact ho.finish q

theorem Ordered.step (hb : Base s) (ho : Ordered s) {action : Action} (h : Steps s action s') :
    Ordered s' := by
  cases h with
  | begin => exact ho.start
  | within hx hact => exact ho.move hb hx hact
  | commit hx hc => exact ho.commit hb hx hc
  | rollback => exact ho.finish _
  | chunk => exact ho.start
  | refuse => exact (ho.rollback _).others rfl rfl rfl rfl
  | @pull k now c =>
      have hentered : Ordered ((rolledBack s c).enter k .ready (some (rolledBack s c).txns.next)) :=
        (ho.rollback c).others rfl rfl rfl rfl
      exact hentered.start
  | unsubscribe => exact ho.start
  | _ => exact ho.others rfl rfl rfl rfl

theorem ordered_of_reachable {catalog : Catalog} (h : Reachable Sys.step (Sys.init catalog) s) :
    Ordered s :=
  (h.invariant (I := fun s => Base s ∧ Ordered s) ⟨base_init, ordered_init⟩ fun _ _ _ hi hs =>
    ⟨hi.1.step (steps_of_step hs), hi.2.step hi.1 (steps_of_step hs)⟩).2

end Fronta.Feed
