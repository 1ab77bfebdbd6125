import Fronta.Feed.Batch
import Fronta.Feed.Lemmas.Ledger
import Fronta.Feed.Lemmas.Visible

/-!
# Active batches

A batch whose flag is up is the last one of its feed, and its transaction, while it is open, is the one of
the feed's connection and holds exactly the batch's events.
-/

namespace Fronta.Feed

open Runs Sql

variable {s s' : Sys} {p q : TxnId} {x y : Txn} {o : Outcome} {st : TxnAction} {action : Action}
  {k : ConsumerId} {c : Consumer} {catalog : Catalog}

/-! ## Connections -/

/-- The transaction of a consumer's connection is its last pull. -/
structure Linked (s : Sys) : Prop where
  ready : ∀ k c p, s.consumers.get k = some c → c.txn = some p → c.phase = .ready ∧ p < s.txns.next
  pull : ∀ k c p x, s.consumers.get k = some c → c.txn = some p → s.txns.get p = some x →
    ∃ f, x.role = .pull f ∧ f.consumer = k

theorem pull_of_consumer {f : Delivery} (h : y.role.consumer = x.role.consumer)
    (hp : y.role.isPull = x.role.isPull) (hx : x.role = .pull f) :
    ∃ f', y.role = .pull f' ∧ f'.consumer = f.consumer := by
  rw [hx] at h hp
  cases hy : y.role with
  | pull f' =>
      rw [hy] at h
      simp only [Role.consumer, Option.some.injEq, Prod.mk.injEq] at h
      exact ⟨f', rfl, h.1⟩
  | _ => rw [hy] at hp; cases hp

/-- Transactions that a step leaves open keep their consumers. -/
theorem txns_step (hb : Base s) (hs : Steps s action s') (hy : s'.txns.get q = some y)
    (hq : q < s.txns.next) : ∃ x, s.txns.get q = some x ∧
      y.role.consumer = x.role.consumer ∧ y.role.isPull = x.role.isPull ∧
      (y = x ∨ ∃ st o, s.act q x st = some o ∧ y = o.txn) := by
  rcases txn_after hb hs hy with ⟨hle, -⟩ | ⟨st, x, o, -, hx, ho, rfl, -⟩ | ⟨hx, -⟩
  · exact absurd hq (Nat.not_lt.mpr hle)
  · exact ⟨x, hx, (role_of_act ho).1, (role_of_act ho).2, Or.inr ⟨st, o, ho, rfl⟩⟩
  · exact ⟨y, hx, rfl, rfl, Or.inl rfl⟩

theorem txnsNext_step (hs : Steps s action s') : s.txns.next ≤ s'.txns.next := by
  cases hs with
  | begin => exact Nat.le_succ _
  | chunk => exact Nat.le_succ _
  | unsubscribe => exact Nat.le_succ _
  | @refuse k now c => exact (rolledBack_next c).ge
  | @pull k now c => exact (rolledBack_next c).ge.trans (Nat.le_succ _)
  | _ => exact Nat.le_refl _

theorem consumersNext_step (hs : Steps s action s') : s.consumers.next ≤ s'.consumers.next := by
  cases hs with
  | commit => exact settleConsumers_next.ge
  | create => exact Nat.le_succ _
  | refilter => exact Nat.le_succ _
  | refuse => exact (congrArg Table.next rolledBack_consumers).ge
  | pull => exact (congrArg Table.next rolledBack_consumers).ge
  | _ => exact Nat.le_refl _

/-- What a step does to the connection of a consumer. -/
theorem consumer_step (hs : Steps s action s') {c' : Consumer} (hc : s'.consumers.get k = some c') :
    (c'.txn = none ∧ (s.consumers.next ≤ k ∨ (∃ c, s.consumers.get k = some c ∧ c.phase ≠ .ready) ∨
      ∃ now, action = .pull k now)) ∨
    (c'.txn = some s.txns.next ∧ c'.phase = .ready ∧ (∃ now, action = .pull k now) ∧
      ∃ x f, s'.txns.get s.txns.next = some x ∧ x.role = .pull f ∧ f.consumer = k) ∨
    ∃ c, s.consumers.get k = some c ∧ c'.txn = c.txn ∧ (c.phase = .ready → c'.phase = .ready) := by
  have hsame : s.consumers.get k = some c' →
      ∃ c, s.consumers.get k = some c ∧ c'.txn = c.txn ∧ (c.phase = .ready → c'.phase = .ready) :=
    fun hc => ⟨c', hc, rfl, id⟩
  cases hs with
  | commit =>
      obtain ⟨c, hc, -, -, rfl | ⟨-, hp, ht⟩⟩ := get_settleConsumers_cases hc
      · exact Or.inr (Or.inr (hsame hc))
      · exact Or.inr (Or.inr ⟨c, hc, ht, fun _ => hp⟩)
  | create =>
      rcases Table.get_insert_cases hc with ⟨rfl, rfl⟩ | hc
      · exact Or.inl ⟨rfl, Or.inl (Nat.le_refl _)⟩
      · exact Or.inr (Or.inr (hsame hc))
  | refilter =>
      rcases Table.get_insert_cases hc with ⟨rfl, rfl⟩ | hc
      · exact Or.inl ⟨rfl, Or.inl (Nat.le_refl _)⟩
      · exact Or.inr (Or.inr (hsame hc))
  | @enter _ k₀ c₀ phase hc₀ he =>
      obtain ⟨c, hc₁, -, -, -, ⟨rfl, -, ht⟩ | ⟨-, rfl⟩⟩ := get_enter_cases hc
      · exact Or.inl ⟨ht, Or.inr (Or.inl ⟨c₀, hc₀, he.phase_ne.1⟩)⟩
      · exact Or.inr (Or.inr (hsame hc₁))
  | @refuse k₀ now c₀ =>
      obtain ⟨c, hc, -, -, -, ⟨rfl, -, ht⟩ | ⟨-, rfl⟩⟩ := get_enter_cases hc
      · exact Or.inl ⟨ht, Or.inr (Or.inr ⟨now, rfl⟩)⟩
      · rw [rolledBack_consumers] at hc
        exact Or.inr (Or.inr (hsame hc))
  | @pull k₀ now c₀ =>
      obtain ⟨c, hc, -, -, -, ⟨rfl, hp, ht⟩ | ⟨-, rfl⟩⟩ := get_enter_cases hc
      · rw [rolledBack_next] at ht
        refine Or.inr (Or.inl ⟨ht, hp, ⟨now, rfl⟩,
          { now := now
            repeatable := false
            role := .pull ⟨k, c₀.name, c₀.generation, c₀.batchSize, none, false⟩ }, _, ?_, rfl, rfl⟩)
        exact (Table.get_insert _ _ _).trans (if_pos (rolledBack_next c₀).symm)
      · rw [rolledBack_consumers] at hc
        exact Or.inr (Or.inr (hsame hc))
  | leave => exact Or.inr (Or.inr (hsame (Table.get_erase_eq_some.mp hc).1))
  | _ => exact Or.inr (Or.inr (hsame hc))

theorem Linked.step (hb : Base s) (h : Linked s) (hs : Steps s action s') : Linked s' where
  ready k c' p hc hp := by
    rcases consumer_step hs hc with ⟨ht, -⟩ | ⟨ht, hphase, -, x, f, hx, -⟩ | ⟨c, hc, ht, hr⟩
    · rw [ht] at hp; cases hp
    · rw [ht, Option.some.injEq] at hp
      exact ⟨hphase, hp ▸ Table.lt_of_get hx⟩
    · obtain ⟨hphase, hlt⟩ := h.ready k c p hc (ht ▸ hp)
      exact ⟨hr hphase, hlt.trans_le (txnsNext_step hs)⟩
  pull k c' p y hc hp hy := by
    rcases consumer_step hs hc with ⟨ht, -⟩ | ⟨ht, -, -, x, f, hx, hf, hk⟩ | ⟨c, hc, ht, hr⟩
    · rw [ht] at hp; cases hp
    · rw [ht, Option.some.injEq] at hp
      subst hp
      cases hx.symm.trans hy
      exact ⟨f, hf, hk⟩
    · obtain ⟨x, hx, hcons, hpull, -⟩ := txns_step hb hs hy (h.ready k c p hc (ht ▸ hp)).2
      obtain ⟨f, hf, hk⟩ := h.pull k c p x hc (ht ▸ hp) hx
      obtain ⟨f', hf', hk'⟩ := pull_of_consumer hcons hpull hf
      exact ⟨f', hf', hk'.trans hk⟩

theorem linked_of_reachable (h : Reachable Sys.step (Sys.init catalog) s) : Linked s :=
  (h.invariant (I := fun s => Base s ∧ Linked s)
    ⟨base_init, (fun _ _ _ h => by cases h), fun _ _ _ _ h => by cases h⟩
    fun _ _ _ hi hs => ⟨hi.1.step (steps_of_step hs), hi.2.step hi.1 (steps_of_step hs)⟩).2

/-! ## Batches -/

/-- A pulled batch stays with its transaction. -/
theorem batch_of_act {f : Delivery} {seqs : List Seq} (h : s.act p x st = some o)
    (hr : x.role = .pull f) (hb : f.batch = some seqs) :
    ∃ f', o.txn.role = .pull f' ∧ f'.consumer = f.consumer ∧ f'.batch = some seqs := by
  cases acts_of_act h with
  | fetch hf hnone =>
      cases hr.symm.trans hf
      rw [hnone] at hb
      cases hb
  | ack hf hseqs =>
      cases hr.symm.trans hf
      exact ⟨_, rfl, rfl, hb⟩
  | fill hx | passRegistration hx | dropRegistration hx | seeEvents hx | passEvent hx | dropEvent hx =>
      rw [hr] at hx
      cases hx
  | _ => exact ⟨f, hr, rfl, hb⟩

/-- What an active flag says of the feed's connection. -/
structure BatchOk (c : Feeds) (b : BatchId) (x : Batch) : Prop where
  last : c.current x.consumer = some b
  known : x.txn < c.sys.txns.next ∧ x.consumer < c.sys.consumers.next
  conn : ∀ y, c.sys.consumers.get x.consumer = some y → y.txn = some x.txn
  pulled : ∀ z, c.sys.txns.get x.txn = some z →
    ∃ f, z.role = .pull f ∧ f.consumer = x.consumer ∧ f.batch = some x.events

structure FeedsOk (catalog : Catalog) (c : Feeds) : Prop where
  reachable : Reachable Sys.step (Sys.init catalog) c.sys
  batches : ∀ b x, c.batches.get b = some x → x.active = true → BatchOk c b x

variable {c c' : Feeds} {b : BatchId} {x : Batch}

theorem feedsOk_init : FeedsOk catalog (Feeds.init catalog) :=
  ⟨Reachable.init _, fun _ _ h => by cases h⟩

/-- A step of the system keeps the batches of consumers that do not pull by it. -/
theorem BatchOk.step {c' : Feeds} (hr : Reachable Sys.step (Sys.init catalog) c.sys)
    (h : BatchOk c b x) (hs : Steps c.sys action c'.sys) (hk : ∀ now, action ≠ .pull x.consumer now)
    (hc : c'.current x.consumer = c.current x.consumer) : BatchOk c' b x where
  last := hc.trans h.last
  known := ⟨h.known.1.trans_le (txnsNext_step hs), h.known.2.trans_le (consumersNext_step hs)⟩
  conn y hy := by
    rcases consumer_step hs hy with ⟨-, hle | ⟨y₀, hy₀, hp⟩ | ⟨now, ha⟩⟩ | ⟨-, -, ⟨now, ha⟩, -⟩ |
      ⟨y₀, hy₀, ht, -⟩
    · exact absurd h.known.2 (Nat.not_lt.mpr hle)
    · exact absurd ((linked_of_reachable hr).ready _ y₀ _ hy₀ (h.conn y₀ hy₀)).1 hp
    · exact absurd ha (hk now)
    · exact absurd ha (hk now)
    · rw [ht]; exact h.conn y₀ hy₀
  pulled z hz := by
    obtain ⟨z₀, hz₀, -, -, rfl | ⟨st, o, ho, rfl⟩⟩ :=
      txns_step (base_of_reachable hr) hs hz h.known.1
    · exact h.pulled _ hz₀
    · obtain ⟨f, hf, hk, hb⟩ := h.pulled z₀ hz₀
      obtain ⟨f', hf', hk', hb'⟩ := batch_of_act ho hf hb
      exact ⟨f', hf', hk'.trans hk, hb'⟩

theorem conn_eq_some {k : ConsumerId} (h : c.conn k = some p) :
    ∃ y z, c.sys.consumers.get k = some y ∧ y.txn = some p ∧ c.sys.txns.get p = some z := by
  obtain ⟨y, hy, h⟩ := Option.bind_eq_some_iff.mp h
  obtain ⟨ht, hopen⟩ := Option.filter_eq_some_iff.mp h
  obtain ⟨z, hz⟩ := Option.isSome_iff_exists.mp hopen
  exact ⟨y, z, hy, ht, hz⟩

theorem get_release {k : ConsumerId} (h : (c.release k).batches.get b = some x)
    (ha : x.active = true) : c.batches.get b = some x ∧ c.current k ≠ some b := by
  obtain ⟨y, hy, ⟨hn, rfl⟩ | hs⟩ := Table.get_update_cases h
  · exact ⟨hy, fun he => by rw [if_pos he] at hn; cases hn⟩
  · obtain ⟨-, hs⟩ := Option.ite_none_right_eq_some.mp hs
    cases hs; cases ha

/-- An operation of `k` that lowers the flag of its last batch and takes a step of the system. -/
theorem FeedsOk.release (h : FeedsOk catalog c) {k : ConsumerId} {s' : Sys}
    (hs : Steps c.sys action s') (hr : Reachable Sys.step (Sys.init catalog) s')
    (ha : ∀ k', k' ≠ k → ∀ now, action ≠ .pull k' now) :
    FeedsOk catalog { c.release k with sys := s' } where
  reachable := hr
  batches b x hb hx := by
    obtain ⟨hb, hne⟩ := get_release hb hx
    have hok := h.batches b x hb hx
    have hk : x.consumer ≠ k := fun he => hne (he ▸ hok.last)
    exact hok.step h.reachable hs (ha _ hk) (if_neg hk)

theorem FeedsOk.sys (h : FeedsOk catalog c) {s' : Sys} (hs : c.sys.step action = some s')
    (ha : ∀ k now, action ≠ .pull k now) : FeedsOk catalog { c with sys := s' } where
  reachable := h.reachable.next hs
  batches b x hb hx := (h.batches b x hb hx).step h.reachable (steps_of_step hs) (ha _) rfl

theorem fetch_of_act {z : Txn} {f : Delivery} (hr : z.role = .pull f)
    (h : s.act p z .fetch = some o) :
    f.batch = none ∧ ∃ seqs, o.txn.role = .pull { f with batch := some seqs } := by
  cases acts_of_act h with
  | fetch hf hnone =>
      cases hr.symm.trans hf
      exact ⟨hnone, _, rfl⟩

theorem FeedsOk.fetch (h : FeedsOk catalog c) {k : ConsumerId} (hs : c.fetch k = some c') :
    FeedsOk catalog c' := by
  obtain ⟨p, hp, hs⟩ := Option.bind_eq_some_iff.mp hs
  obtain ⟨s', hstep, hs⟩ := Option.bind_eq_some_iff.mp hs
  obtain ⟨z', hz', hs⟩ := Option.bind_eq_some_iff.mp hs
  obtain ⟨y, z, hy, ht, hz⟩ := conn_eq_some hp
  obtain ⟨f, hf, hk⟩ := (linked_of_reachable h.reachable).pull k y p z hy ht hz
  obtain ⟨z₁, hz₁, hact⟩ := Option.bind_eq_some_iff.mp hstep
  obtain ⟨o, ho, rfl⟩ := Option.map_eq_some_iff.mp hact
  cases hz₁.symm.trans hz
  obtain ⟨hnone, seqs, hseqs⟩ := fetch_of_act hf ho
  cases (get_move_self hz).symm.trans hz'
  rw [hseqs] at hs
  cases hs
  refine ⟨h.reachable.next hstep, fun b x hb hx => ?_⟩
  rcases Table.get_insert_cases hb with ⟨rfl, rfl⟩ | hb
  · refine ⟨if_pos rfl, ⟨Table.lt_of_get hz', Table.lt_of_get hy⟩, fun y' hy' => ?_, fun z' hz' => ?_⟩
    · cases hy.symm.trans hy'
      exact ht
    · cases (get_move_self hz).symm.trans hz'
      exact ⟨_, hseqs, hk, rfl⟩
  · have hok := h.batches b x hb hx
    refine hok.step h.reachable (steps_of_step hstep) (fun _ => by simp) (if_neg fun he => ?_)
    -- the feed's connection has no batch yet, so none of its batches is active
    have hconn := hok.conn y (he ▸ hy)
    rw [ht, Option.some.injEq] at hconn
    subst hconn
    obtain ⟨f', hf', -, hb'⟩ := hok.pulled z hz
    rw [hf, Role.pull.injEq] at hf'
    subst hf'
    rw [hnone] at hb'; cases hb'

theorem ack_eq_ok (h : c.ack b = .ok c') : ∃ x p, c.batches.get b = some x ∧ x.active = true ∧
    c.conn x.consumer = some p ∧ (c' = c ∨
      ∃ s', c.sys.step (.within p .ack) = some s' ∧ c' = { c with sys := s' }) := by
  unfold Feeds.ack at h
  split at h
  · rename_i k q seqs hb
    split at h
    · rename_i p hp
      cases h
      refine ⟨_, p, hb, rfl, hp, ?_⟩
      cases hs : c.sys.step (.within p .ack) with
      | none => exact Or.inl rfl
      | some s' => exact Or.inr ⟨s', rfl, rfl⟩
    · cases h
  · cases h

theorem commit_eq_some (h : c.commit b = some c') : ∃ x p s', c.batches.get b = some x ∧
    x.active = true ∧ c.conn x.consumer = some p ∧ c.sys.step (.commit p) = some s' ∧
    c' = { c with
      sys := s'
      batches := c.batches.modify b fun x => { x with active := false } } := by
  unfold Feeds.commit at h
  split at h
  · rename_i k q seqs hb
    obtain ⟨p, hp, h⟩ := Option.bind_eq_some_iff.mp h
    obtain ⟨s', hs, rfl⟩ := Option.map_eq_some_iff.mp h
    exact ⟨_, p, s', hb, rfl, hp, hs, rfl⟩
  · cases h

theorem FeedsOk.commit (h : FeedsOk catalog c) (hs : c.commit b = some c') : FeedsOk catalog c' := by
  obtain ⟨x, p, s', -, -, -, hstep, rfl⟩ := commit_eq_some hs
  refine ⟨h.reachable.next hstep, fun b' x' hb' hx' => ?_⟩
  have hb' : c.batches.get b' = some x' := by
    rcases Table.get_modify_cases hb' with ⟨-, hb'⟩ | ⟨-, x₀, -, rfl⟩
    · exact hb'
    · cases hx'
  exact (h.batches b' x' hb' hx').step h.reachable (steps_of_step hstep) (fun _ => by simp) rfl

theorem FeedsOk.exit (h : FeedsOk catalog c) {k : ConsumerId} (hs : c.exit k = some c') :
    FeedsOk catalog c' := by
  obtain ⟨s', hleave, rfl⟩ := Option.map_eq_some_iff.mp hs
  clear hs
  cases hp : c.conn k with
  | none =>
      rw [hp] at hleave
      exact h.release (steps_of_step hleave) (h.reachable.next hleave) fun _ _ _ => by simp
  | some p =>
      rw [hp] at hleave
      obtain ⟨y, z, -, -, hz⟩ := conn_eq_some hp
      have hfinish : c.sys.step (.rollback p) = some (c.sys.finish p) := by simp [Sys.step, hz]
      have h' := h.sys hfinish fun _ _ => by simp
      exact FeedsOk.release (c := { c with sys := c.sys.finish p }) h' (steps_of_step hleave)
        (h'.reachable.next hleave) fun _ _ _ => by simp

theorem FeedsOk.step (h : FeedsOk catalog c) {a : Feeds.Action} (hs : c.step a = some c') :
    FeedsOk catalog c' := by
  cases a with
  | sys action =>
      obtain ⟨hd, hs⟩ := Option.ite_none_left_eq_some.mp hs
      obtain ⟨s', hstep, rfl⟩ := Option.map_eq_some_iff.mp hs
      refine h.sys hstep fun k now he => ?_
      rw [he] at hd
      exact hd rfl
  | next k now =>
      obtain ⟨s', hstep, rfl⟩ := Option.map_eq_some_iff.mp hs
      refine h.release (steps_of_step hstep) (h.reachable.next hstep) fun k' hk now' he => hk ?_
      cases he; rfl
  | fetch k => exact h.fetch hs
  | ack b =>
      cases hs
      split
      · rename_i c' ha
        obtain ⟨x, p, -, -, -, rfl | ⟨s', hs, rfl⟩⟩ := ack_eq_ok ha
        · exact h
        · exact h.sys hs fun _ _ => by simp
      · exact h
  | commit b => exact h.commit hs
  | exit k => exact h.exit hs

theorem feedsOk_of_reachable (h : Reachable Feeds.step (Feeds.init catalog) c) :
    FeedsOk catalog c := h.invariant feedsOk_init fun _ _ _ h hs => h.step hs

/-! ## What an operation does to the system -/

/-- The step of the system that an operation takes, or the rollback and the exit of a feed. -/
theorem sys_of_step {a : Feeds.Action} (hs : c.step a = some c') :
    c'.sys = c.sys ∨ (∃ action, c.sys.step action = some c'.sys ∧
      ∀ p, action = .commit p → (a = .sys (.commit p) ∧ c.delivers (.commit p) = false) ∨
        ∃ b x, a = .commit b ∧ c.batches.get b = some x ∧ x.active = true ∧
          c.conn x.consumer = some p) ∨
    ∃ k p, a = .exit k ∧ c.conn k = some p ∧
      (c.sys.finish p).step (.leave k) = some c'.sys := by
  have hone : ∀ {action : Action}, c.sys.step action = some c'.sys → (∀ p, action ≠ .commit p) →
      ∃ action, c.sys.step action = some c'.sys ∧
        ∀ p, action = .commit p → (a = .sys (.commit p) ∧ c.delivers (.commit p) = false) ∨
          ∃ b x, a = .commit b ∧ c.batches.get b = some x ∧ x.active = true ∧
            c.conn x.consumer = some p :=
    fun hstep hn => ⟨_, hstep, fun p hp => absurd hp (hn p)⟩
  cases a with
  | sys action =>
      obtain ⟨hd, hs⟩ := Option.ite_none_left_eq_some.mp hs
      obtain ⟨s', hstep, rfl⟩ := Option.map_eq_some_iff.mp hs
      refine Or.inr (Or.inl ⟨action, hstep, fun p hp => Or.inl ⟨by rw [hp], ?_⟩⟩)
      rw [← hp]
      exact Bool.not_eq_true _ ▸ hd
  | next k now =>
      obtain ⟨s', hstep, rfl⟩ := Option.map_eq_some_iff.mp hs
      exact Or.inr (Or.inl (hone hstep fun _ => by simp))
  | fetch k =>
      obtain ⟨p, -, hs⟩ := Option.bind_eq_some_iff.mp hs
      obtain ⟨s', hstep, hs⟩ := Option.bind_eq_some_iff.mp hs
      obtain ⟨z, -, hs⟩ := Option.bind_eq_some_iff.mp hs
      split at hs
      · cases hs
        exact Or.inr (Or.inl (hone hstep fun _ => by simp))
      · cases hs
  | ack b =>
      cases hs
      split
      · rename_i c' ha
        obtain ⟨x, p, -, -, -, rfl | ⟨s', hstep, rfl⟩⟩ := ack_eq_ok ha
        · exact Or.inl rfl
        · simp only [ha] at hone
          exact Or.inr (Or.inl (hone hstep fun _ => by simp))
      · exact Or.inl rfl
  | commit b =>
      obtain ⟨x, p, s', hb, hx, hp, hstep, rfl⟩ := commit_eq_some hs
      refine Or.inr (Or.inl ⟨_, hstep, fun q hq => Or.inr ⟨b, x, rfl, hb, hx, ?_⟩⟩)
      cases hq
      exact hp
  | exit k =>
      simp only [Feeds.step, Feeds.exit] at hs
      obtain ⟨s', hleave, rfl⟩ := Option.map_eq_some_iff.mp hs
      cases hp : c.conn k with
      | none =>
          rw [hp] at hleave
          exact Or.inr (Or.inl (hone hleave fun _ => by simp))
      | some p =>
          rw [hp] at hleave
          exact Or.inr (Or.inr ⟨k, p, rfl, hp, hleave⟩)

theorem finish_of_conn {k : ConsumerId} (h : c.conn k = some p) :
    c.sys.step (.rollback p) = some (c.sys.finish p) := by
  obtain ⟨y, z, -, -, hz⟩ := conn_eq_some h
  simp [Sys.step, hz]

theorem sys_reachable {a : Feeds.Action} (hs : c.step a = some c') :
    Reachable Sys.step c.sys c'.sys := by
  rcases sys_of_step hs with he | ⟨action, hstep, -⟩ | ⟨k, p, -, hp, hleave⟩
  · rw [he]; exact Reachable.init _
  · exact (Reachable.init _).next hstep
  · exact ((Reachable.init _).next (finish_of_conn hp)).next hleave

/-! ## Active batches hold their events -/

/-- The delivery behind an active batch. -/
theorem FeedsOk.active (h : FeedsOk catalog c) (ha : c.Active b x) :
    BatchOk c b x ∧ ∃ z f, c.sys.txns.get x.txn = some z ∧ z.role = .pull f ∧
      f.batch = some x.events ∧ DeliveryOk c.sys x.txn z f := by
  obtain ⟨hb, hx, hopen⟩ := ha
  have hok := h.batches b x hb hx
  obtain ⟨z, hz⟩ := Option.isSome_iff_exists.mp hopen
  obtain ⟨f, hf, -, he⟩ := hok.pulled z hz
  have hrole := ((base_of_reachable h.reachable).txns _ z hz).role
  rw [hf] at hrole
  exact ⟨hok, z, f, hz, hf, he, hrole⟩

theorem FeedsOk.held (h : FeedsOk catalog c) (ha : c.Active b x) {seq : Seq} (hseq : seq ∈ x.events) :
    c.sys.locks.Holds (.event seq) x.txn .update := by
  obtain ⟨-, z, f, -, -, he, hd⟩ := h.active ha
  exact (hd.batch _ he seq hseq).1

/-- A transaction that deletes an event is the only one that holds it. -/
theorem FeedsOk.deletes (h : FeedsOk catalog c) (ha : c.Active b x) {z : Txn}
    (hz : c.sys.txns.get p = some z) {seq : Seq} (hd : seq ∈ z.deleted) (hseq : seq ∈ x.events) :
    p = x.txn :=
  (base_of_reachable h.reachable).locks.sound.exclusive (h.held ha hseq)
    (((base_of_reachable h.reachable).txns p z hz).deleted seq hd)

theorem FeedsOk.unique (h : FeedsOk catalog c) {b' : BatchId} {x' : Batch} (ha : c.Active b x)
    (ha' : c.Active b' x') (he : x.txn = x'.txn) : b = b' := by
  obtain ⟨hok, z, f, hz, hf, -⟩ := h.active ha
  obtain ⟨hok', -⟩ := h.active ha'
  obtain ⟨f₁, hf₁, hk₁, -⟩ := hok.pulled z hz
  obtain ⟨f₂, hf₂, hk₂, -⟩ := hok'.pulled z (he ▸ hz)
  rw [hf₁, Role.pull.injEq] at hf₂
  have hk : x.consumer = x'.consumer := by rw [← hk₁, ← hk₂, hf₂]
  exact Option.some.inj (hok.last.symm.trans (hk ▸ hok'.last))

/-- The batch whose `ack` commits is active, and the transaction is its own. -/
theorem FeedsOk.committing (h : FeedsOk catalog c) (hb : c.batches.get b = some x)
    (hx : x.active = true) (hp : c.conn x.consumer = some p) : p = x.txn ∧ c.Active b x := by
  obtain ⟨y, z, hy, ht, hz⟩ := conn_eq_some hp
  have hconn := (h.batches b x hb hx).conn y hy
  rw [ht, Option.some.injEq] at hconn
  subst hconn
  exact ⟨rfl, hb, hx, by rw [hz]; rfl⟩

/-- An event goes with the `ack` of its batch, with a purge or with an `unsubscribe`. -/
theorem FeedsOk.gone (h : FeedsOk catalog c) {a : Feeds.Action} (hs : c.step a = some c') {seq : Seq}
    {n : Insertion} (hn : c.sys.events.get seq = some n) (hgone : c'.sys.events.get seq = none) :
    (∃ b x, a = .commit b ∧ c.Active b x ∧ seq ∈ x.events) ∨
    ∃ p z, a = .sys (.commit p) ∧ c.sys.txns.get p = some z ∧ seq ∈ z.deleted ∧
      ((z.role = .plain ∧ ∀ b x, c.Active b x → seq ∉ x.events) ∨ ∃ u, z.role = .unsubscribe u) := by
  rcases sys_of_step hs with he | ⟨action, hstep, hcommit⟩ | ⟨k, p, -, hp, hleave⟩
  · rw [he, hn] at hgone; cases hgone
  · obtain ⟨p, z, rfl, hz, -, hd⟩ := event_gone (steps_of_step hstep) hn hgone
    have hrole := ((base_of_reachable h.reachable).txns p z hz).role
    rcases hcommit p rfl with ⟨rfl, hdel⟩ | ⟨b, x, rfl, hb, hx, hp⟩
    · refine Or.inr ⟨p, z, rfl, hz, hd, ?_⟩
      cases hr : z.role with
      | plain =>
          refine Or.inl ⟨rfl, fun b x ha hseq => ?_⟩
          have hpx := h.deletes ha hz hd hseq
          subst hpx
          obtain ⟨-, z', f, hz', hf, -⟩ := h.active ha
          cases hz.symm.trans hz'
          rw [hr] at hf; cases hf
      | unsubscribe u => exact Or.inr ⟨u, rfl⟩
      | chunk call =>
          rw [hr] at hrole
          rw [hrole.idle.2.2.2.1] at hd; cases hd
      | pull f => simp [Feeds.delivers, hz, hr] at hdel
    · obtain ⟨rfl, ha⟩ := h.committing hb hx hp
      obtain ⟨-, z', f, hz', hf, he, hdok⟩ := h.active ha
      cases hz.symm.trans hz'
      obtain ⟨seqs, hseqs, hmem⟩ := hdok.deleted seq hd
      rw [he, Option.some.injEq] at hseqs
      exact Or.inl ⟨b, x, rfl, ha, hseqs ▸ hmem⟩
  · rcases tables_step (steps_of_step hleave) with ⟨-, he⟩ | ⟨q, z, ha, -⟩
    · rw [he] at hgone
      rw [show (c.sys.finish p).events = c.sys.events from rfl, hn] at hgone
      cases hgone
    · cases ha

/-! ## Writes on `batch.conn` -/

theorem tasksLost_of_reachable {i : TaskId} (hr : Reachable Sys.step (Sys.init catalog) s)
    (h : TaskLost s i) (hs : Reachable Sys.step s s') : TaskLost s' i :=
  (hs.invariant (I := fun s => Base s ∧ TaskLost s i) ⟨base_of_reachable hr, h⟩
    fun _ _ _ hi hs => ⟨hi.1.step (steps_of_step hs), hi.2.step hi.1 (steps_of_step hs)⟩).2

theorem eventsLost_of_reachable {seq : Seq} (hr : Reachable Sys.step (Sys.init catalog) s)
    (h : EventLost s seq) (hs : Reachable Sys.step s s') : EventLost s' seq :=
  (hs.invariant (I := fun s => Base s ∧ EventLost s seq) ⟨base_of_reachable hr, h⟩
    fun _ _ _ hi hs => ⟨hi.1.step (steps_of_step hs), hi.2.step hi.1 (steps_of_step hs)⟩).2

theorem feeds_reachable (hs : Reachable Feeds.step c c') : Reachable Sys.step c.sys c'.sys := by
  refine hs.invariant (I := fun c' => Reachable Sys.step c.sys c'.sys) (Reachable.init _)
    fun c₁ a c₂ h₁ h₂ => ?_
  obtain ⟨as, has⟩ := sys_reachable h₂
  exact h₁.run has

/-- The rows and the events of a transaction as a state shows them. -/
structure Shown (z : Txn) (s : Sys) : Prop where
  rows : ∀ i v, z.rows.lookup i = some v → s.tasks.get i = v
  events : ∀ n ∈ z.inserted, s.events.get n.1 = some n.2

structure Unseen (z : Txn) (s : Sys) : Prop where
  rows : ∀ i v, z.rows.lookup i = some v → s.tasks.get i = none
  events : ∀ n ∈ z.inserted, s.events.get n.1 = none

theorem FeedsOk.unseen (h : FeedsOk catalog c) (ha : c.Active b x) {z : Txn}
    (hz : c.sys.txns.get x.txn = some z) : Unseen z c.sys := by
  obtain ⟨-, z', f, hz', hf, -⟩ := h.active ha
  cases hz.symm.trans hz'
  have hh := hidden_of_reachable h.reachable _ z hz
  exact ⟨fun i v hv => (hh.rows f hf i v hv).2, fun n hn => (hh.events n hn).2⟩

/-- The commit of an `ack` shows what its transaction has written. -/
theorem FeedsOk.shown (h : FeedsOk catalog c) (ha : c.Active b x) {z : Txn}
    (hz : c.sys.txns.get x.txn = some z) (hs : c.commit b = some c') : Shown z c'.sys := by
  obtain ⟨x', p, s', hb, hx, hp, hstep, rfl⟩ := commit_eq_some hs
  cases ha.1.symm.trans hb
  obtain ⟨rfl, -⟩ := h.committing hb hx hp
  obtain ⟨z', hz', hstep⟩ := Option.bind_eq_some_iff.mp hstep
  obtain ⟨-, hstep⟩ := Option.ite_none_right_eq_some.mp hstep
  cases hz.symm.trans hz'
  cases hstep
  obtain ⟨-, z', f, hz', hf, -, hdok⟩ := h.active ha
  cases hz.symm.trans hz'
  have hbase := base_of_reachable h.reachable
  have hh := hidden_of_reachable h.reachable _ z hz
  obtain ⟨hrows, hevents⟩ := shown_of_commit (hbase.txns _ z hz) hbase.locks
    ((ordered_of_reachable h.reachable).txns _ z hz).sorted
  refine ⟨fun i v hv => hrows i v hv (hh.rows f hf i v hv).1,
    fun n hn => hevents n hn (fun hd => ?_) (hh.events n hn).1⟩
  -- what it deletes was in the table before
  obtain ⟨seqs, hseqs, hmem⟩ := hdok.deleted _ hd
  obtain ⟨-, m, hm, -⟩ := hdok.batch seqs hseqs _ hmem
  rw [(hh.events n hn).2] at hm; cases hm

/-- If the transaction of a batch ends without the commit of its `ack`, its writes are never seen. -/
theorem FeedsOk.lost (h : FeedsOk catalog c) (ha : c.Active b x) {z : Txn}
    (hz : c.sys.txns.get x.txn = some z) {a : Feeds.Action} (hs : c.step a = some c')
    (hend : c'.sys.txns.get x.txn = none) (hne : a ≠ .commit b) {c'' : Feeds}
    (hlater : Reachable Feeds.step c' c'') : Unseen z c''.sys := by
  obtain ⟨-, z', f, hz', hf, -⟩ := h.active ha
  cases hz.symm.trans hz'
  have hbase := base_of_reachable h.reachable
  have hh := hidden_of_reachable h.reachable
  have hnow : (∀ i v, z.rows.lookup i = some v → TaskLost c'.sys i) ∧
      ∀ n ∈ z.inserted, EventLost c'.sys n.1 := by
    rcases sys_of_step hs with he | ⟨action, hstep, hcommit⟩ | ⟨k, p, -, hp, hleave⟩
    · rw [he, hz] at hend; cases hend
    · obtain ⟨hrows, hevents⟩ := lost_of_ended hbase hh hz (steps_of_step hstep) hend fun hca => by
        rcases hcommit x.txn hca with ⟨-, hdel⟩ | ⟨b', x', rfl, hb', hx', hp'⟩
        · simp [Feeds.delivers, hz, hf] at hdel
        · obtain ⟨hpx, ha'⟩ := h.committing hb' hx' hp'
          exact hne (by rw [h.unique ha ha' hpx])
      exact ⟨fun i v hv => hrows f hf i v hv, hevents⟩
    · have hfinish := steps_of_step (finish_of_conn hp)
      have hend : (c.sys.finish p).txns.get x.txn = none := by
        have he := Option.some.inj hleave
        rw [← he] at hend
        exact hend
      obtain ⟨hrows, hevents⟩ := lost_of_ended hbase hh hz hfinish hend (by simp)
      have hb' := hbase.step hfinish
      exact ⟨fun i v hv => (hrows f hf i v hv).step hb' (steps_of_step hleave),
        fun n hn => (hevents n hn).step hb' (steps_of_step hleave)⟩
  have hreach : Reachable Sys.step (Sys.init catalog) c'.sys := (h.step hs).reachable
  have hsys := feeds_reachable hlater
  exact ⟨fun i v hv => (tasksLost_of_reachable hreach (hnow.1 i v hv) hsys).absent,
    fun n hn => (eventsLost_of_reachable hreach (hnow.2 n hn) hsys).absent⟩

/-! ## Inactive batches -/

/-- `ack` fails where the batch is not active, with the batch's own error once its flag is down. -/
theorem FeedsOk.refused (h : FeedsOk catalog c) (hb : c.batches.get b = some x) (hn : ¬ c.Active b x) :
    c.ack b = .error (if x.active then .connection else .inactive) ∧ c.step (.ack b) = some c := by
  have hack : c.ack b = .error (if x.active then .connection else .inactive) := by
    obtain ⟨k, q, seqs, active⟩ := x
    cases active with
    | false => simp [Feeds.ack, hb]
    | true =>
        cases hp : c.conn k with
        | none => simp [Feeds.ack, hb, hp]
        | some p => exact absurd (h.committing hb rfl hp).2 hn
  exact ⟨hack, by simp [Feeds.step, hack]⟩

end Fronta.Feed
