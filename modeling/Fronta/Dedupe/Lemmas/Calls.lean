import Fronta.Dedupe.System
import Fronta.Feed.Lemmas.Unique

/-!
# What the steps of a call do

A step of a call that returns the id of another task, or has not returned yet, is silent: it writes no
row and publishes no event. `Went` lists the phases that a call goes through.
-/

namespace Fronta.Dedupe

open Runs Sql
open Feed (TxnId Txn Frame base_of_reachable unique_of_reachable)

variable {s s' : Sys} {f f' : Feed.Sys} {p q : TxnId} {x : Txn} {k : CallId} {c : Call}
  {task : NewTask} {action : Action} {as : List Action} {catalog : Catalog}

/-! ## Silent steps -/

/-- Tables, written rows and announced events are as before. -/
structure Silent (f f' : Feed.Sys) : Prop where
  tasks : f'.tasks.get = f.tasks.get
  events : f'.events.get = f.events.get
  txns : ∀ p x', f'.txns.get p = some x' → x'.rows = [] ∧ x'.notices = [] ∧ x'.inserted = [] ∨
    ∃ x, f.txns.get p = some x ∧ x'.rows = x.rows ∧ x'.notices = x.notices ∧ x'.inserted = x.inserted

theorem Silent.refl (f : Feed.Sys) : Silent f f :=
  ⟨rfl, rfl, fun _ x h => Or.inr ⟨x, h, rfl, rfl, rfl⟩⟩

theorem Silent.trans {f'' : Feed.Sys} (h : Silent f f') (h' : Silent f' f'') : Silent f f'' where
  tasks := h'.tasks.trans h.tasks
  events := h'.events.trans h.events
  txns p x'' hx := by
    rcases h'.txns p x'' hx with he | ⟨x', hx', hr', hn', hi'⟩
    · exact Or.inl he
    · rcases h.txns p x' hx' with ⟨hr, hn, hi⟩ | ⟨x, hx, hr, hn, hi⟩
      · exact Or.inl ⟨hr'.trans hr, hn'.trans hn, hi'.trans hi⟩
      · exact Or.inr ⟨x, hx, hr'.trans hr, hn'.trans hn, hi'.trans hi⟩

theorem silent_begin {now : Time} {repeatable : Bool} (h : f.step (.begin now repeatable) = some f') :
    Silent f f' := by
  cases h
  refine ⟨rfl, rfl, fun p x hx => ?_⟩
  rcases Feed.get_start_cases hx with ⟨-, rfl⟩ | hx
  · exact Or.inl ⟨rfl, rfl, rfl⟩
  · exact Or.inr ⟨x, hx, rfl, rfl, rfl⟩

theorem silent_finish : Silent f (f.finish p) :=
  ⟨rfl, rfl, fun _ x hx => Or.inr ⟨x, (Feed.get_finish.mp hx).1, rfl, rfl, rfl⟩⟩

theorem silent_move {o : Feed.Outcome} (hx : f.txns.get p = some x) (hr : o.txn.rows = x.rows)
    (hn : o.txn.notices = x.notices) (hi : o.txn.inserted = x.inserted) : Silent f (f.move p o) := by
  refine ⟨rfl, rfl, fun q y hy => Or.inr ?_⟩
  rcases Feed.get_move_cases hy with ⟨rfl, rfl⟩ | ⟨-, hy⟩
  · exact ⟨x, hx, hr, hn, hi⟩
  · exact ⟨y, hy, rfl, rfl, rfl⟩

theorem silent_commit (hr : x.rows = []) (hi : x.inserted = [])
    (hd : x.deleted = []) : Silent f (f.commit p x) where
  tasks := by
    funext i
    exact Table.get_overlay_of_none (by rw [hr]; rfl)
  events := by
    funext i
    have he : (f.events.overlay []).get i = f.events.get i := Table.get_overlay_of_none rfl
    simp only [Feed.Sys.commit, hi, hd, Table.get_erase, List.map_nil, he, List.not_mem_nil,
      decide_false, Bool.not_false]
    cases f.events.get i <;> rfl
  txns q y hy := Or.inr ⟨y, (Feed.get_finish.mp hy).1, rfl, rfl, rfl⟩

/-! ## `_ENQUEUE` -/

/-- The transaction `p` has inserted the task under this id, which nobody has used before. -/
structure Inserts (f : Feed.Sys) (p : TxnId) (task : NewTask) (id : TaskId) : Prop where
  fresh : f.tasks.get id = none
  written : ∃ x, f.txns.get p = some x ∧ x.rows.lookup id = some (some (.enqueued x.now task))

theorem statement_spec (h : f.step (.within p .statement) = some f') :
    ∃ x y, f.txns.get p = some x ∧ f'.txns.get p = some y ∧ y.rows = x.rows ∧
      y.inserted = x.inserted ∧ y.deleted = x.deleted ∧ y.now = x.now ∧ Silent f f' ∧
      f'.tasks = f.tasks := by
  obtain ⟨x, hx, h⟩ := Option.bind_eq_some_iff.mp h
  obtain ⟨o, ho, rfl⟩ := Option.map_eq_some_iff.mp h
  obtain ⟨-, ho⟩ := Option.ite_none_right_eq_some.mp ho
  cases ho
  refine ⟨x, _, hx, Feed.get_move_self hx, ?_, ?_, ?_, ?_, silent_move hx ?_ ?_ ?_, rfl⟩ <;>
    dsimp only <;> split <;> rfl

theorem enqueue_spec (hx : f.txns.get p = some x)
    (h : f.step (.within p (.enqueue task)) = some f') :
    if f.taken x task.type task.key then Silent f f' ∧ f'.txns.get p = some x
    else Inserts f' p task f.tasks.next := by
  obtain ⟨x', hx', h⟩ := Option.bind_eq_some_iff.mp h
  obtain rfl : x' = x := Option.some.inj (hx'.symm.trans hx)
  obtain ⟨o, ho, rfl⟩ := Option.map_eq_some_iff.mp h
  simp only [Feed.Sys.act, Feed.Sys.enqueue] at ho
  split at ho
  · cases ho
  · obtain ⟨-, ho⟩ := Option.ite_none_left_eq_some.mp ho
    split at ho
    · rename_i ht
      cases ho
      rw [if_pos ht]
      exact ⟨silent_move hx rfl rfl rfl, Feed.get_move_self hx⟩
    · rename_i ht
      obtain ⟨-, ho⟩ := Option.ite_none_left_eq_some.mp ho
      cases ho
      rw [if_neg ht]
      exact ⟨Table.get_of_le f.tasks (Nat.le_refl _),
        _, Feed.get_move_self hx, List.lookup_cons_self⟩

/-- `_ENQUEUE` returns the id that it inserted, or none and has done nothing. -/
theorem insertIn_spec {id : Option TaskId} (h : insertIn f p task = some (id, f')) :
    ∃ as, run Feed.Sys.step f as = some f' ∧ (∀ i, id = some i → Inserts f' p task i) ∧
      (id = none → Silent f f' ∧ ∃ x y, f.txns.get p = some x ∧ f'.txns.get p = some y ∧
        y.rows = x.rows ∧ y.inserted = x.inserted ∧ y.deleted = x.deleted) := by
  obtain ⟨f₁, h₁, h⟩ := Option.bind_eq_some_iff.mp h
  obtain ⟨y, hy, h⟩ := Option.bind_eq_some_iff.mp h
  obtain ⟨f₂, h₂, h⟩ := Option.map_eq_some_iff.mp h
  obtain ⟨x, y', hx, hy', hr, hi, hd, -, hs, -⟩ := statement_spec h₁
  obtain rfl : y' = y := Option.some.inj (hy'.symm.trans hy)
  have he := enqueue_spec hy h₂
  simp only [Prod.mk.injEq] at h
  obtain ⟨rfl, rfl⟩ := h
  refine ⟨[.within p .statement, .within p (.enqueue task)], ?_, fun i hi => ?_, fun hn => ?_⟩
  · rw [run_cons]
    exact ⟨f₁, h₁, run_cons.mpr ⟨f₂, h₂, rfl⟩⟩
  · split at hi
    · cases hi
    · rename_i ht
      cases hi
      rwa [if_neg ht] at he
  · split at hn
    · rename_i ht
      rw [if_pos ht] at he
      exact ⟨hs.trans he.1, x, y', hx, he.2, hr, hi, hd⟩
    · cases hn

/-! ## Steps of a call -/

/-- The phase and the tables after a step of a call. -/
inductive Went (f : Feed.Sys) (c : Call) : Phase → Feed.Sys → Prop
  | inserted {p : TxnId} {id : TaskId} {f' : Feed.Sys} : c.phase = .inserting → Inserts f' p c.task id →
      Went f c (.publishing p id) f'
  | conflict {f' : Feed.Sys} : c.phase = .inserting → Silent f f' → Went f c .finding f'
  | replied {p : TxnId} {id : TaskId} {f' : Feed.Sys} : c.phase = .publishing p id → Went f c (.returned id true) f'
  | found {tasks : Table Row} {id : TaskId} : c.phase = .finding → seen f c.caller = some tasks →
      findActiveByKey tasks c.task.type c.task.key = some id → Went f c (.returned id false) f
  | missed {phase : Phase} : c.phase = .finding → phase = .failed ∨ phase = .inserting → Went f c phase f

theorem went_of_insert {now : Time} (h : s.insert k now = some s') :
    ∃ c phase as, s.calls.get k = some c ∧ s'.calls = s.enter k phase ∧
      Went s.feed c phase s'.feed ∧ run Feed.Sys.step s.feed as = some s'.feed := by
  unfold Sys.insert at h
  split at h
  · rename_i task p hc
    obtain ⟨-, h⟩ := Option.ite_none_right_eq_some.mp h
    obtain ⟨⟨id, f'⟩, hi, h⟩ := Option.map_eq_some_iff.mp h
    obtain ⟨as, hrun, hins, hsil⟩ := insertIn_spec hi
    cases h
    cases id with
    | some id => exact ⟨_, _, as, hc, rfl, .inserted rfl (hins id rfl), hrun⟩
    | none => exact ⟨_, _, as, hc, rfl, .conflict rfl (hsil rfl).1, hrun⟩
  · rename_i task hc
    obtain ⟨f₁, hb, h⟩ := Option.bind_eq_some_iff.mp h
    obtain ⟨⟨id, f₂⟩, hi, h⟩ := Option.bind_eq_some_iff.mp h
    obtain ⟨as, hrun, hins, hsil⟩ := insertIn_spec hi
    cases id with
    | some id =>
        cases h
        exact ⟨_, _, .begin now false :: as, hc, rfl, .inserted rfl (hins id rfl),
          run_cons.mpr ⟨f₁, hb, hrun⟩⟩
    | none =>
        obtain ⟨f₃, he, h⟩ := Option.map_eq_some_iff.mp h
        obtain ⟨hs, x, y, hx, hy, hr, hn, hd⟩ := hsil rfl
        cases h
        have hrun' : run Feed.Sys.step s.feed (.begin now false :: (as ++ [.commit s.feed.txns.next])) =
            some f₃ :=
          run_cons.mpr ⟨f₁, hb, run_append.mpr ⟨f₂, hrun, run_cons.mpr ⟨f₃, he, rfl⟩⟩⟩
        refine ⟨_, _, _, hc, rfl, .conflict rfl ?_, hrun'⟩
        -- the transaction of the statement is new and ends with it
        obtain ⟨y', hy', he⟩ := Option.bind_eq_some_iff.mp he
        obtain rfl : y' = y := Option.some.inj (hy'.symm.trans hy)
        obtain ⟨-, he⟩ := Option.ite_none_right_eq_some.mp he
        cases hb
        obtain rfl := Option.some.inj (Table.get_insert_self.symm.trans hx)
        cases he
        exact (Silent.trans (silent_begin rfl) hs).trans (silent_commit hr hn hd)
  · cases h

theorem went_of_reply (h : s.reply k = some s') :
    ∃ c phase as, s.calls.get k = some c ∧ s'.calls = s.enter k phase ∧
      Went s.feed c phase s'.feed ∧ run Feed.Sys.step s.feed as = some s'.feed := by
  unfold Sys.reply at h
  split at h
  · rename_i hc
    obtain ⟨x, -, h⟩ := Option.bind_eq_some_iff.mp h
    obtain ⟨-, h⟩ := Option.ite_none_right_eq_some.mp h
    cases h
    exact ⟨_, _, [], hc, rfl, .replied rfl, rfl⟩
  · rename_i p id hc
    obtain ⟨f', he, rfl⟩ := Option.map_eq_some_iff.mp h
    exact ⟨_, _, [.commit p], hc, rfl, .replied rfl, run_cons.mpr ⟨f', he, rfl⟩⟩
  · cases h

theorem went_of_find {late : Bool} (h : s.find k late = some s') :
    ∃ c phase as, s.calls.get k = some c ∧ s'.calls = s.enter k phase ∧
      Went s.feed c phase s'.feed ∧ run Feed.Sys.step s.feed as = some s'.feed := by
  unfold Sys.find at h
  split at h
  · rename_i task caller hc
    obtain ⟨tasks, ht, h⟩ := Option.map_eq_some_iff.mp h
    split at h <;> cases h
    · rename_i id hid
      exact ⟨_, _, [], hc, rfl, .found rfl ht hid, rfl⟩
    · refine ⟨_, _, [], hc, rfl, .missed rfl ?_, rfl⟩
      cases late
      · exact Or.inr rfl
      · exact Or.inl rfl
  · cases h

/-! ## Refused requeues -/

theorem release_acquireAll {L : Locks Feed.Target TxnId} {rows : List (Feed.Target × Mode)} :
    (L.acquireAll p rows).release p = L.release p := by
  induction rows generalizing L with
  | nil => rfl
  | cons r rows ih =>
      rw [Locks.acquireAll, List.foldl_cons, ← Locks.acquireAll, ih]
      simp [Locks.acquire, Locks.release]

theorem finish_move {o : Feed.Outcome} (ht : o.tasks = 0) (he : o.events = 0) :
    (f.move p o).finish p = f.finish p := by
  have htxns : ((f.txns.modify p fun _ => o.txn).erase fun q _ => decide (q = p)) =
      f.txns.erase fun q _ => decide (q = p) := by
    refine Table.ext rfl (funext fun q => ?_)
    rw [Table.get_erase, Table.get_erase, Table.get_modify]
    by_cases hq : q = p <;> cases f.txns.get q <;> simp [hq]
  simp only [Feed.Sys.finish, Feed.Sys.move, release_acquireAll, htxns, ht, he]
  rfl

theorem requeueIn_spec {id : TaskId} {updated : Option Row}
    (h : requeueIn f p x id = some (updated, f')) :
    (updated = none ∧ f' = f) ∨ ∃ snapshot t₀ t, updated = some t ∧ f.rowOf x id = some t₀ ∧
      t₀.requeue x.now = some t ∧
      f' = f.move p
        { txn := x.write snapshot id (f.rowOf x id) t true
          locks := [(.task id, .update)] } := by
  unfold requeueIn at h
  split at h
  · rename_i snapshot rest t hs ht
    obtain ⟨-, h⟩ := Option.ite_none_right_eq_some.mp h
    obtain ⟨t₀, ht₀, ht⟩ := Option.bind_eq_some_iff.mp ht
    cases h
    exact Or.inr ⟨snapshot, t₀, t, rfl, ht₀, ht, rfl⟩
  · cases h
    exact Or.inl ⟨rfl, rfl⟩

theorem duplicated_spec {tasks : Table Row} {id : TaskId} {t : Row} (h : duplicated tasks id t = true) :
    ∃ key j u, t.key = some key ∧ j ≠ id ∧ tasks.get j = some u ∧ u.keyed t.type key = true := by
  simp only [duplicated, Bool.and_eq_true, Option.any_eq_true, List.any_eq_true,
    decide_eq_true_eq] at h
  obtain ⟨-, key, hk, ⟨j, u⟩, hmem, hj, hu⟩ := h
  exact ⟨key, j, u, hk, hj, Table.mem_entries.mp hmem, hu⟩

/-- A requeue that the index rejects has found a duplicate. Without its transaction nothing is left. -/
theorem refuse_spec {id : TaskId} {e : Db.RequeueError} (h : refuse f p id = some (e, f')) :
    ∃ x, f.txns.get p = some x ∧ Silent f (f'.finish p) ∧
      (∃ as, run Feed.Sys.step f as = some (f'.finish p)) ∧
      (e ≠ .activeDuplicate → Silent f f' ∧ ∃ as, run Feed.Sys.step f as = some f') ∧
      (e = .activeDuplicate → ∃ j t u key, j ≠ id ∧ f.rowOf x id = some t ∧ t.key = some key ∧
        (f.tasks.overlay x.rows).get j = some u ∧ u.keyed t.type key = true) := by
  obtain ⟨f₁, h₁, h⟩ := Option.bind_eq_some_iff.mp h
  obtain ⟨y, hy, h⟩ := Option.bind_eq_some_iff.mp h
  obtain ⟨⟨updated, f₂⟩, hu, h⟩ := Option.bind_eq_some_iff.mp h
  obtain ⟨x, y', hx, hy', hr, -, -, hnow, hs, ht⟩ := statement_spec h₁
  obtain rfl : y' = y := Option.some.inj (hy'.symm.trans hy)
  have hrow : f₁.rowOf y' id = f.rowOf x id := by simp only [Feed.Sys.rowOf, hr, ht]
  have hend : run Feed.Sys.step f [.within p .statement, .rollback p] = some (f₁.finish p) :=
    run_cons.mpr ⟨f₁, h₁, run_cons.mpr ⟨f₁.finish p, by simp [Feed.Sys.step, hy], rfl⟩⟩
  have hrun : run Feed.Sys.step f [.within p .statement] = some f₁ := run_cons.mpr ⟨f₁, h₁, rfl⟩
  refine ⟨x, hx, ?_⟩
  rcases requeueIn_spec hu with ⟨rfl, rfl⟩ | ⟨snapshot, t₀, t, rfl, ht₀, hq, rfl⟩
  · have he : e ≠ .activeDuplicate ∧ f' = f₂ := by
      dsimp only at h
      split at h <;> cases h <;> exact ⟨by simp, rfl⟩
    obtain ⟨he, rfl⟩ := he
    exact ⟨hs.trans silent_finish, ⟨_, hend⟩, fun _ => ⟨hs, _, hrun⟩, fun he' => absurd he' he⟩
  · obtain ⟨tasks, htasks, h⟩ := Option.bind_eq_some_iff.mp h
    obtain ⟨hd, h⟩ := Option.ite_none_right_eq_some.mp h
    cases h
    rw [finish_move rfl rfl]
    refine ⟨hs.trans silent_finish, ⟨_, hend⟩, fun he => absurd rfl he, fun _ => ?_⟩
    obtain ⟨key, j, u, hk, hj, hu, hkey⟩ := duplicated_spec hd
    obtain ⟨htype, hkey', -⟩ := @RowOp.apply_identity (.requeue y'.now) _ _ hq
    simp only [seen, Feed.get_move_self hy, Option.map_some, Option.some.injEq] at htasks
    subst htasks
    refine ⟨j, t₀, u, key, hj, hrow ▸ ht₀, hkey' ▸ hk, ?_, htype ▸ hkey⟩
    rw [Feed.get_overlay_eq_some] at hu ⊢
    simpa only [Txn.write, List.lookup_cons, beq_false_of_ne hj, hr, ht, Feed.Sys.move,
      Table.get_reserve, Table.next_reserve, Nat.add_zero] using hu

end Fronta.Dedupe
