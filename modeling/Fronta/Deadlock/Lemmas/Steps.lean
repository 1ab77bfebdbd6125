import Fronta.Deadlock.Lemmas.Ranks

/-!
# Steps of transactions

A step changes one transaction, and leaves the others their locks and what they know of the tables.
-/

namespace Fronta.Deadlock

open Sql
open Feed (Target TxnId Generation Seq)

variable {s s' : Sys} {p q : TxnId} {x x' : Txn} {action : Action}

/-! ## Tables and locks -/

/-- Rows go, and new rows get new numbers. -/
def Extends (T T' : Table Name) : Prop :=
  T.next ≤ T'.next ∧ ∀ i n, T'.get i = some n → i < T.next → T.get i = some n

theorem Extends.refl (T : Table Name) : Extends T T := ⟨Nat.le_refl _, fun _ _ h _ => h⟩

theorem Extends.trans {T T' T'' : Table Name} (h : Extends T T') (h' : Extends T' T'') :
    Extends T T'' :=
  ⟨h.1.trans h'.1, fun i n hi hlt => h.2 i n (h'.2 i n hi (lt_of_lt_of_le hlt h.1)) hlt⟩

theorem extends_insert (T : Table Name) (n : Name) : Extends T (T.insert n) := by
  refine ⟨Nat.le_succ _, fun i m hi hlt => ?_⟩
  rcases Table.get_insert_cases hi with ⟨rfl, -⟩ | hi
  · exact absurd hlt (Nat.lt_irrefl _)
  · exact hi

theorem extends_inserts (T : Table Name) (ns : List Name) : Extends T (ns.foldl Table.insert T) := by
  induction ns generalizing T with
  | nil => exact .refl T
  | cons n ns ih => exact (extends_insert T n).trans (ih _)

theorem extends_erase (T : Table Name) (f : ℕ → Name → Bool) : Extends T (T.erase f) :=
  ⟨Nat.le_refl _, fun _ _ hi _ => (Table.get_erase_eq_some.mp hi).1⟩

/-- A transaction keeps its locks, and the tables keep the row that it has deleted. -/
structure Kept (s s' : Sys) (q : TxnId) : Prop where
  locks : ∀ r m, s'.locks.Holds r q m ↔ s.locks.Holds r q m
  registrations : Extends s.registrations s'.registrations
  events : Extends s.events s'.events
  deleted : ∀ g name, s.locks.Holds (.registration g) q .update →
    s.registrations.get g = some name → s'.registrations.get g = some name

theorem Kept.of_locks (hl : ∀ r m, s'.locks.Holds r q m ↔ s.locks.Holds r q m)
    (hr : s'.registrations = s.registrations) (he : s'.events = s.events) : Kept s s' q where
  locks := hl
  registrations := hr ▸ .refl _
  events := he ▸ .refl _
  deleted _ _ _ hg := hr ▸ hg

theorem TxnOk.kept (h : TxnOk s q x) (hk : Kept s s' q) : TxnOk s' q x where
  sorted := h.sorted
  target g hg := by
    obtain ⟨name, hst, hl, hreg⟩ := h.target g hg
    exact ⟨name, hst, (hk.locks _ _).mpr hl, hk.deleted g name hl hreg⟩
  aims g name hs hst := by
    obtain ⟨hlt, hn⟩ := h.aims g name hs hst
    exact ⟨lt_of_lt_of_le hlt hk.registrations.1, fun n hg => hn n (hk.registrations.2 g n hg hlt)⟩
  listed rest hs := by
    obtain ⟨name, hst, hn⟩ := h.listed rest hs
    refine ⟨name, hst, fun seq hseq => ?_⟩
    obtain ⟨hlt, hn⟩ := hn seq (hseq.imp id (hk.locks _ _).mp)
    exact ⟨lt_of_lt_of_le hlt hk.events.1, fun n he => hn n (hk.events.2 seq n he hlt)⟩

/-! ## Transactions -/

theorem orderBy_strict {l : List ℕ} (h : l.Nodup) : (orderBy id l).Pairwise (· < ·) :=
  ((orderBy_sorted id l).and (nodup_orderBy h)).imp fun ⟨hle, hne⟩ => lt_of_le_of_ne hle hne

theorem sorted_first {statement : Statement} {g : Option Generation} {mode : Mode} {rest : List TaskId}
    {publishes : Bool} (h : statement.first g = .tasks mode rest publishes) :
    rest.Pairwise (· < ·) := by
  cases statement <;> simp only [Statement.first, Statement.ordered] at h
  case complete ids => cases h; exact orderBy_strict (List.nodup_dedup _)
  case releaseOrphans ids => cases h; exact orderBy_strict (List.nodup_dedup _)
  case heartbeat ids => cases h; exact orderBy_strict (List.nodup_dedup _)
  case setProgress id => cases h; exact List.pairwise_singleton _ _
  case requestCancel id => cases h; exact List.pairwise_singleton _ _
  case requeue id => cases h; exact List.pairwise_singleton _ _
  case pull name => cases g <;> cases h
  case backfillChunk name => cases g <;> cases h
  case unsubscribe name => cases g <;> cases h
  all_goals cases h

theorem locked_events {rest : List Seq} (hx : x.locked.stage = .events rest) (hw : x.wants ≠ none) :
    (∃ seq, x.stage = .events (seq :: rest)) ∧ x.locked.target = x.target := by
  obtain ⟨r, hr⟩ := Option.ne_none_iff_exists'.mp hw
  rcases wants_cases hr with ⟨i, rest, b, hs, -⟩ | ⟨g, rest, hs, -⟩ | ⟨g, hs, -⟩ | ⟨seq, rest, hs, -⟩ <;>
    simp only [Txn.locked, hs] at hx ⊢
  · cases hx
  · cases hx
  · cases hst : x.statement <;> simp [hst, Statement.after] at hx
  · cases hx
    simp

theorem passed_events {rest : List Seq} (hx : x.passed.stage = .events rest) (hw : x.wants ≠ none) :
    (∃ seq, x.stage = .events (seq :: rest)) ∧ x.passed = x.locked := by
  unfold Txn.passed at hx ⊢
  split at hx
  · cases hst : x.statement <;> simp [hst, Statement.without] at hx
  · exact ⟨(locked_events hx hw).1, rfl⟩

theorem keeps_locked {r r' : Target} {m m' : Mode} (hok : TxnOk s p x) (hr : x.wants = some (r, m))
    (h : (r' = r ∧ m' = m) ∨ x.Keeps r' m') : x.locked.Keeps r' m' := by
  rcases wants_cases hr with ⟨i, rest, b, hs, hr⟩ | ⟨g, rest, hs, hr⟩ | ⟨g, hs, hr⟩ | ⟨seq, rest, hs, hr⟩
  · cases hr
    have hsort := List.pairwise_cons.mp (hok.sorted _ _ _ hs)
    rcases h with ⟨rfl, rfl⟩ | h
    · simpa [Txn.locked, Txn.Keeps, hs] using hsort.1
    · cases r' with
      | task i' =>
          simp only [Txn.Keeps, hs] at h
          simpa [Txn.locked, Txn.Keeps, hs] using fun j hj => h j (List.mem_cons_of_mem _ hj)
      | registration g => simp [Txn.Keeps, hs] at h
      | event seq => simp [Txn.Keeps, hs] at h
  · cases hr
    rcases h with ⟨rfl, rfl⟩ | h
    · simp [Txn.locked, Txn.Keeps, hs]
    · cases r' <;> simp_all [Txn.locked, Txn.Keeps]
  · cases hr
    rcases h with ⟨rfl, rfl⟩ | h
    · cases hst : x.statement <;> simp [Txn.locked, Txn.Keeps, hs, hst, Statement.after]
    · cases r' <;> simp [Txn.Keeps, hs] at h
  · cases hr
    rcases h with ⟨rfl, rfl⟩ | h
    · simp [Txn.locked, Txn.Keeps, hs]
    · cases r' <;> simp_all [Txn.locked, Txn.Keeps]

theorem not_registration_locked {g : Generation} (hr : x.wants ≠ none) :
    x.locked.stage ≠ .registration g := by
  obtain ⟨r, hr⟩ := Option.ne_none_iff_exists'.mp hr
  rcases wants_cases hr with ⟨i, rest, b, hs, -⟩ | ⟨g, rest, hs, -⟩ | ⟨g, hs, -⟩ | ⟨seq, rest, hs, -⟩ <;>
    simp only [Txn.locked, hs] <;> intro h
  · cases h
  · cases h
  · cases hst : x.statement <;> simp [hst, Statement.after] at h
  · cases h

theorem sorted_locked (hok : TxnOk s p x) {mode : Mode} {rest : List TaskId} {publishes : Bool}
    (h : x.locked.stage = .tasks mode rest publishes) : rest.Pairwise (· < ·) := by
  unfold Txn.locked at h
  split at h
  · rename_i i rest' b hs
    cases h
    exact (List.pairwise_cons.mp (hok.sorted _ _ _ hs)).2
  · cases h
  · cases hst : x.statement <;> simp [hst, Statement.after] at h
  · cases h
  · exact hok.sorted _ _ _ h

theorem target_locked {g : Generation} (h : x.locked.target = some g) :
    x.target = some g ∨ (x.stage = .registration g ∧ ∃ name, x.statement = .unsubscribe name) := by
  unfold Txn.locked at h
  split at h
  · exact Or.inl h
  · exact Or.inl h
  · rename_i g' hs
    cases hst : x.statement <;> simp [hst, Statement.after] at h
    subst h
    exact Or.inr ⟨hs, _, rfl⟩
  · exact Or.inl h
  · exact Or.inl h

@[simp] theorem statement_locked : x.locked.statement = x.statement := by
  unfold Txn.locked
  split <;> rfl

theorem not_events_first {statement : Statement} {g : Option Generation} {rest : List Seq} :
    statement.first g ≠ .events rest := by
  cases statement <;> cases g <;> intro h <;> cases h

theorem get_of_registered {name : Name} {g : Generation} (h : s.registered name = some g) :
    s.registrations.get g = some name := by
  obtain ⟨⟨g', n⟩, hf, rfl⟩ := Option.map_eq_some_iff.mp h
  obtain ⟨hg, hn⟩ := Table.get_of_find hf
  rw [hg, of_decide_eq_true hn]

@[simp] theorem get_setTxn_self (hx : s.txns.get p = some x) : (s.setTxn p x').txns.get p = some x' := by
  simp [Sys.setTxn, hx]

theorem get_setTxn_of_ne (hq : q ≠ p) : (s.setTxn p x').txns.get q = s.txns.get q := by
  simp [Sys.setTxn, Table.get_modify, hq]

namespace Inv

/-- A step of one transaction. -/
theorem of_kept (h : Inv s) (p : TxnId) (hk : ∀ q, q ≠ p → Kept s s' q)
    (ht : ∀ q, q ≠ p → s'.txns.get q = s.txns.get q) (hs : s'.locks.Sound)
    (hn : ∀ g g' name, s'.registrations.get g = some name → s'.registrations.get g' = some name → g = g')
    (hp : ∀ r m, s'.locks.Holds r p m → ∃ x, s'.txns.get p = some x ∧ x.Keeps r m)
    (hok : ∀ x, s'.txns.get p = some x → TxnOk s' p x) : Inv s' where
  sound := hs
  keeps r q m hl := by
    by_cases he : q = p
    · exact he ▸ hp r m (he ▸ hl)
    · rw [ht q he]
      exact h.keeps r q m (((hk q he).locks r m).mp hl)
  names := hn
  txns q x hx := by
    by_cases he : q = p
    · subst he
      exact hok x hx
    · rw [ht q he] at hx
      exact (h.txns q x hx).kept (hk q he)

theorem begin (h : Inv s) (statement : Statement) (hs : s.step (.begin statement) = some s') :
    Inv s' := by
  cases hs
  have hfree : ∀ r m, ¬s.locks.Holds r s.txns.next m := by
    intro r m hl
    obtain ⟨x, hx, -⟩ := h.keeps r _ m hl
    rw [s.txns.get_of_le (Nat.le_refl _)] at hx
    cases hx
  refine h.of_kept s.txns.next (fun q _ => .of_locks (fun _ _ => Iff.rfl) rfl rfl)
    (fun q hq => by simp [Table.get_insert, hq]) h.sound h.names
    (fun r m hl => absurd hl (hfree r m)) fun x hx => ?_
  rw [Table.get_insert_self, Option.some.injEq] at hx
  subst hx
  refine ⟨fun _ _ _ hst => sorted_first hst, nofun, fun g name hst hu => ?_,
    fun rest hst => absurd hst not_events_first⟩
  subst hu
  cases hreg : s.registered name with
  | none => simp [Statement.first, Sys.generation, hreg, Statement.without] at hst
  | some g' =>
      simp only [Statement.first, Sys.generation, hreg, Option.elim_some, Stage.registration.injEq] at hst
      subst hst
      have hg := get_of_registered hreg
      exact ⟨Table.lt_of_get hg, fun n hn => Option.some.inj (hn.symm.trans hg)⟩

/-- A transaction goes on, with new locks. -/
theorem move (h : Inv s) {L : Locks Target TxnId} (hx : s.txns.get p = some x) (hs : L.Sound)
    (hl : ∀ r q m, q ≠ p → (L.Holds r q m ↔ s.locks.Holds r q m))
    (hk : ∀ r m, L.Holds r p m → x'.Keeps r m) (hok : TxnOk { s with locks := L } p x') :
    Inv { s.setTxn p x' with locks := L } :=
  h.of_kept p (fun q hq => .of_locks (fun r m => hl r q m hq) rfl rfl)
    (fun q hq => get_setTxn_of_ne hq) hs h.names
    (fun r m hr => ⟨x', get_setTxn_self hx, hk r m hr⟩) fun y hy => by
      have hy' : some y = some x' := hy.symm.trans (get_setTxn_self hx)
      cases hy'
      exact ⟨hok.sorted, hok.target, hok.aims, hok.listed⟩

/-- A transaction has got the row that it asked for, or passes over it. -/
theorem locked_ok (h : Inv s) {L : Locks Target TxnId} {r : Target} {m : Mode}
    (hx : s.txns.get p = some x) (hr : x.wants = some (r, m))
    (hl : ∀ r' m', L.Holds r' p m' → (r' = r ∧ m' = m) ∨ s.locks.Holds r' p m')
    (hold : ∀ r' m', s.locks.Holds r' p m' → L.Holds r' p m')
    (hreg : ∀ g, x.stage = .registration g → L.Holds r p m ∧ s.there r = true) :
    TxnOk { s with locks := L } p x.locked := by
  have hok := h.txns p x hx
  have hw : x.wants ≠ none := by rw [hr]; nofun
  refine ⟨fun _ _ _ => sorted_locked hok, fun g htg => ?_,
    fun g name hst => absurd hst (not_registration_locked hw), fun rest hst => ?_⟩
  · rw [statement_locked]
    rcases target_locked htg with ht | ⟨hst, name, hu⟩
    · obtain ⟨name, hu, hlock, hget⟩ := hok.target g ht
      exact ⟨name, hu, hold _ _ hlock, hget⟩
    · obtain ⟨hlock, hthere⟩ := hreg g hst
      simp only [Txn.wants, hst, hu, Statement.mode, Option.some.injEq, Prod.mk.injEq] at hr
      obtain ⟨rfl, rfl⟩ := hr
      obtain ⟨n, hn⟩ := Option.isSome_iff_exists.mp hthere
      refine ⟨name, hu, hlock, ?_⟩
      rw [← (hok.aims g name hst hu).2 n hn]
      exact hn
  · rw [statement_locked]
    obtain ⟨⟨seq, hs⟩, -⟩ := locked_events hst hw
    obtain ⟨name, hu, hn⟩ := hok.listed _ hs
    refine ⟨name, hu, fun seq' hseq => hn seq' ?_⟩
    rcases hseq with hm | hlock
    · exact Or.inl (List.mem_cons_of_mem _ hm)
    · simp only [Txn.wants, hs, Option.some.injEq, Prod.mk.injEq] at hr
      rcases hl _ _ hlock with ⟨he, -⟩ | hlock
      · rw [← hr.1, Target.event.injEq] at he
        exact Or.inl (he ▸ List.mem_cons_self)
      · exact Or.inr hlock

theorem lock (h : Inv s) (hs : s.step (.lock p) = some s') : Inv s' := by
  obtain ⟨x, hx, hs⟩ := Option.bind_eq_some_iff.mp hs
  obtain ⟨⟨r, m⟩, hr, hs⟩ := Option.bind_eq_some_iff.mp hs
  obtain ⟨hg, hs⟩ := Option.ite_none_right_eq_some.mp hs
  rw [Bool.and_eq_true] at hg
  cases hs
  have hl : ∀ r' m', (s.locks.acquire r p m).Holds r' p m' →
      (r' = r ∧ m' = m) ∨ s.locks.Holds r' p m' := fun r' m' hl =>
    (Locks.holds_acquire.mp hl).imp (fun he => ⟨he.1, he.2.2⟩) id
  refine h.move hx (h.sound.acquire hg.2) (fun r' q m' hq => by simp [hq]) (fun r' m' hlock => ?_)
    (h.locked_ok hx hr hl (fun _ _ hlock => Locks.holds_acquire.mpr (Or.inr hlock))
      fun _ _ => ⟨Locks.holds_acquire.mpr (Or.inl ⟨rfl, rfl, rfl⟩), hg.1⟩)
  exact keeps_locked (h.txns p x hx) hr ((hl r' m' hlock).imp id (h.held hx))

theorem pass (h : Inv s) (hs : s.step (.pass p) = some s') : Inv s' := by
  obtain ⟨x, hx, hs⟩ := Option.bind_eq_some_iff.mp hs
  obtain ⟨⟨r, m⟩, hr, hs⟩ := Option.bind_eq_some_iff.mp hs
  obtain ⟨-, hs⟩ := Option.ite_none_left_eq_some.mp hs
  cases hs
  have hok := h.txns p x hx
  by_cases hst : ∃ g, x.stage = .registration g
  · obtain ⟨g, hst⟩ := hst
    have hp : x.passed = { x with stage := x.statement.without } := by simp only [Txn.passed, hst]
    rw [hp]
    refine h.move (L := s.locks) hx h.sound (fun _ _ _ _ => Iff.rfl) (fun r' m' hl => ?_)
      ⟨fun mode rest b hs => ?_, hok.target, fun g name hs => ?_, fun rest hs => ?_⟩
    · have hk := h.held hx hl
      cases r' <;> simp [Txn.Keeps, hst] at hk
    · cases hu : x.statement <;> simp [hu, Statement.without] at hs
    · cases hu : x.statement <;> simp [hu, Statement.without] at hs
    · cases hu : x.statement <;> simp [hu, Statement.without] at hs
  · have hp : x.passed = x.locked := by
      unfold Txn.passed
      split
      · exact absurd ⟨_, ‹_›⟩ hst
      · rfl
    rw [hp]
    exact h.move (L := s.locks) hx h.sound (fun _ _ _ _ => Iff.rfl)
      (fun r' m' hl => keeps_locked hok hr (Or.inr (h.held hx hl)))
      (h.locked_ok hx hr (fun _ _ => Or.inr) (fun _ _ => id) fun g hg => absurd ⟨g, hg⟩ hst)

theorem skip (h : Inv s) {r : Target} (hs : s.step (.skip p r) = some s') : Inv s' := by
  obtain ⟨x, hx, hs⟩ := Option.bind_eq_some_iff.mp hs
  obtain ⟨hg, hs⟩ := Option.ite_none_right_eq_some.mp hs
  simp only [Bool.and_eq_true] at hg
  cases hs
  have hok := h.txns p x hx
  refine h.of_kept p (fun q hq => .of_locks (fun r' m => by simp [hq]) rfl rfl) (fun _ _ => rfl)
    (h.sound.acquire hg.2) h.names (fun r' m hl => ⟨x, hx, ?_⟩) fun y hy => ?_
  · rcases Locks.holds_acquire.mp hl with ⟨rfl, -, rfl⟩ | hl
    · have hskip := hg.1.1.1
      unfold Txn.skips at hskip
      unfold Txn.Keeps
      split at hskip
      · split at hskip
        · rename_i hst
          simp [hst]
        · cases hskip
      · simp [of_decide_eq_true hskip]
      · cases hskip
    · exact h.held hx hl
  · cases hx.symm.trans hy
    refine ⟨hok.sorted, fun g ht => ?_, hok.aims, fun rest hst => ?_⟩
    · obtain ⟨name, hu, hl, hreg⟩ := hok.target g ht
      exact ⟨name, hu, Locks.holds_acquire.mpr (Or.inr hl), hreg⟩
    · have hskip := hg.1.1.1
      cases r <;> simp [Txn.skips, hst] at hskip

theorem publish (h : Inv s) {generations : List Generation}
    (hs : s.step (.publish p generations) = some s') : Inv s' := by
  obtain ⟨x, hx, hs⟩ := Option.bind_eq_some_iff.mp hs
  obtain ⟨hp, hs⟩ := Option.ite_none_right_eq_some.mp hs
  cases hs
  refine h.move (L := s.locks) hx h.sound (fun _ _ _ _ => Iff.rfl) (fun r m hl => ?_)
    ⟨nofun, (h.txns p x hx).target, nofun, nofun⟩
  have hk := h.held hx hl
  unfold Txn.publishes at hp
  split at hp
  · rename_i hst
    cases r <;> simp_all [Txn.Keeps]
  · rename_i hst
    cases r <;> simp_all [Txn.Keeps]
  · cases hp

theorem mem_eventsOf {name : Name} {seq : Seq} : seq ∈ s.eventsOf name ↔ s.events.get seq = some name := by
  simp [Sys.eventsOf, Table.mem_entries]

theorem see (h : Inv s) {seqs : List Seq} (hs : s.step (.see p seqs) = some s') : Inv s' := by
  obtain ⟨x, hx, hs⟩ := Option.bind_eq_some_iff.mp hs
  split at hs
  · rename_i name hu hst
    obtain ⟨hperm, hs⟩ := Option.ite_none_right_eq_some.mp hs
    cases hs
    have hperm := List.isPerm_iff.mp hperm
    refine h.move (L := s.locks) hx h.sound (fun _ _ _ _ => Iff.rfl) (fun r m hl => ?_)
      ⟨nofun, (h.txns p x hx).target, nofun, fun rest hr => ⟨name, hu, fun seq hseq => ?_⟩⟩
    · have hk := h.held hx hl
      cases r <;> simp [Txn.Keeps, hst] at hk ⊢
      exact hk
    · cases hr
      rcases hseq with hm | hl
      · have hget := mem_eventsOf.mp (hperm.mem_iff.mp hm)
        exact ⟨Table.lt_of_get hget, fun n hn => Option.some.inj (hn.symm.trans hget)⟩
      · have hk := h.held hx hl
        simp [Txn.Keeps, hst] at hk
  · cases hs

end Inv

end Fronta.Deadlock
