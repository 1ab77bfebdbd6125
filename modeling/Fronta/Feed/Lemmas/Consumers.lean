import Fronta.Feed.Lemmas.Commit
import Fronta.Feed.Spec

/-!
# Consumers and their transactions

A consumer's transactions carry its name and generation, a delivery is the last pull of a consumer that
is ready, and a closed consumer stays closed.
-/

namespace Fronta.Feed

open Runs Sql

variable {s s' : Sys} {p q : TxnId} {x : Txn} {o : Outcome} {k : ConsumerId} {c : Consumer}

/-- The consumer that a transaction belongs to, with the name and the generation that it acts on. -/
def Role.consumer : Role → Option (ConsumerId × Name × Generation)
  | .chunk c => some (c.consumer, c.name, c.generation)
  | .pull f => some (f.consumer, f.name, f.generation)
  | _ => none

def Role.isPull : Role → Bool
  | .pull _ => true
  | _ => false

theorem role_of_act {action : TxnAction} (h : s.act p x action = some o) :
    o.txn.role.consumer = x.role.consumer ∧ o.txn.role.isPull = x.role.isPull := by
  cases acts_of_act h with
  | fill hr | fetch hr | ack hr | passRegistration hr | dropRegistration hr | seeEvents hr | passEvent hr
  | dropEvent hr =>
      rw [hr]
      exact ⟨rfl, rfl⟩
  | _ => exact ⟨rfl, rfl⟩

theorem fills_of_act {action : TxnAction} {g : Generation} (h : s.act p x action = some o) :
    o.txn.role.fills g = x.role.fills g := by
  obtain ⟨h₁, h₂⟩ := role_of_act h
  cases hx : x.role <;> cases ho : o.txn.role <;> rw [hx, ho] at h₁ h₂ <;>
    simp_all [Role.consumer, Role.isPull, Role.fills]

/-! ## Bindings -/

/-- A consumer's transaction acts on the consumer's own registration. -/
structure BoundOk (s : Sys) (p : TxnId) (role : Role) (k : ConsumerId) (name : Name) (g : Generation) :
    Prop where
  known : k < s.consumers.next
  same : ∀ c, s.consumers.get k = some c → c.name = name ∧ c.generation = g
  pulling : role.isPull = true → ∀ c, s.consumers.get k = some c → c.phase = .ready ∧ c.txn = some p

structure Bound (s : Sys) : Prop where
  generation : ∀ k c, s.consumers.get k = some c → c.generation < s.registrations.next
  txns : ∀ p x k name g, s.txns.get p = some x → x.role.consumer = some (k, name, g) →
    BoundOk s p x.role k name g

theorem bound_init {catalog : Catalog} : Bound (Sys.init catalog) :=
  ⟨(fun _ _ h => by cases h), fun _ _ _ _ _ h => by cases h⟩

/-- A consumer that is not ready has no open delivery. -/
theorem Bound.not_pulling (hb : Bound s) (hc : s.consumers.get k = some c) (hp : c.phase ≠ .ready)
    {name : Name} {g : Generation} (hx : s.txns.get p = some x)
    (hk : x.role.consumer = some (k, name, g)) : x.role.isPull = false := by
  by_contra hn
  rw [Bool.not_eq_false] at hn
  exact hp ((hb.txns p x k name g hx hk).pulling hn c hc).1

/-- Where all consumers keep their binding, and ready ones their last pull, so do the transactions. -/
theorem Bound.of_consumers (hb : Bound s)
    (hn : s.consumers.next ≤ s'.consumers.next)
    (hx : ∀ p x', s'.txns.get p = some x' → ∃ x, s.txns.get p = some x ∧
      x'.role.consumer = x.role.consumer ∧ x'.role.isPull = x.role.isPull)
    (hg : ∀ k c', s'.consumers.get k = some c' → c'.generation < s'.registrations.next)
    (hc : ∀ k c', s'.consumers.get k = some c' → k < s.consumers.next →
      ∃ c, s.consumers.get k = some c ∧ c.name = c'.name ∧ c.generation = c'.generation ∧
        (c.phase = .ready → c'.phase = .ready ∧ c'.txn = c.txn)) : Bound s' where
  generation := hg
  txns p x' k name g hx' hk := by
    obtain ⟨x, hx, hrole, hpull⟩ := hx p x' hx'
    obtain ⟨hknown, hsame, hpulling⟩ := hb.txns p x k name g hx (hrole ▸ hk)
    refine ⟨hknown.trans_le hn, fun c' hc' => ?_, fun hi c' hc' => ?_⟩
    · obtain ⟨c, hcs, h₁, h₂, -⟩ := hc k c' hc' hknown
      rw [← h₁, ← h₂]
      exact hsame c hcs
    · obtain ⟨c, hcs, -, -, h₃⟩ := hc k c' hc' hknown
      obtain ⟨h₄, h₅⟩ := hpulling (hpull ▸ hi) c hcs
      obtain ⟨h₆, h₇⟩ := h₃ h₄
      exact ⟨h₆, h₇.trans h₅⟩

theorem get_enter_cases {phase : Phase} {txn : Option TxnId} {k' : ConsumerId} {c' : Consumer}
    (h : (s.enter k phase txn).consumers.get k' = some c') :
    ∃ c, s.consumers.get k' = some c ∧ c.name = c'.name ∧ c.generation = c'.generation ∧
      c.batchSize = c'.batchSize ∧ ((k' = k ∧ c'.phase = phase ∧ c'.txn = txn) ∨ (k' ≠ k ∧ c' = c)) := by
  rcases Table.get_modify_cases h with ⟨hk, hc⟩ | ⟨rfl, c, hc, rfl⟩
  · exact ⟨_, hc, rfl, rfl, rfl, Or.inr ⟨hk, rfl⟩⟩
  · exact ⟨c, hc, rfl, rfl, rfl, Or.inl ⟨rfl, rfl, rfl⟩⟩

theorem get_settleConsumers_cases {C : Table Consumer} {role : Role} {c' : Consumer}
    (h : (Sys.settleConsumers C role).get k = some c') :
    ∃ c, C.get k = some c ∧ c.name = c'.name ∧ c.generation = c'.generation ∧
      (c' = c ∨ (c.phase = .filling ∧ c'.phase = .ready ∧ c'.txn = c.txn)) := by
  cases role with
  | chunk call =>
      obtain ⟨c, hc, ⟨-, rfl⟩ | hs⟩ := Table.get_update_cases h
      · exact ⟨_, hc, rfl, rfl, Or.inl rfl⟩
      · obtain ⟨hg, hs⟩ := Option.ite_none_right_eq_some.mp hs
        cases hs
        exact ⟨c, hc, rfl, rfl, Or.inr ⟨hg.2.1, rfl, rfl⟩⟩
  | _ => exact ⟨c', h, rfl, rfl, Or.inl rfl⟩

theorem settleConsumers_next {C : Table Consumer} {role : Role} :
    (Sys.settleConsumers C role).next = C.next := by cases role <;> rfl

/-- A consumer without an open delivery may change its phase. -/
theorem Bound.enter (hb : Bound s) {phase : Phase} {txn : Option TxnId}
    (hp : ∀ p x name g, s.txns.get p = some x → x.role.consumer = some (k, name, g) →
      x.role.isPull = false) : Bound (s.enter k phase txn) where
  generation k' c' hc' := by
    obtain ⟨c, hc, -, hg, -⟩ := get_enter_cases hc'
    rw [← hg]
    exact hb.generation k' c hc
  txns p x k' name g hx hk := by
    obtain ⟨hknown, hsame, hpulling⟩ := hb.txns p x k' name g hx hk
    refine ⟨hknown, fun c' hc' => ?_, fun hi c' hc' => ?_⟩
    · obtain ⟨c, hc, h₁, h₂, -⟩ := get_enter_cases hc'
      rw [← h₁, ← h₂]
      exact hsame c hc
    · obtain ⟨c, hc, -, -, -, ⟨rfl, -⟩ | ⟨-, rfl⟩⟩ := get_enter_cases hc'
      · rw [hp p x name g hx hk] at hi; cases hi
      · exact hpulling hi _ hc

theorem Bound.finish (hb : Bound s) (p : TxnId) : Bound (s.finish p) :=
  hb.of_consumers (Nat.le_refl _)
    (fun _ x hx => ⟨x, (get_finish.mp hx).1, rfl, rfl⟩) hb.generation
    fun _ c hc _ => ⟨c, hc, rfl, rfl, fun h => ⟨h, rfl⟩⟩

theorem Bound.rollback (hb : Bound s) (c : Consumer) : Bound (rolledBack s c) := by
  unfold rolledBack
  cases c.txn with
  | none => exact hb
  | some q => exact hb.finish q

@[simp] theorem rolledBack_consumers : (rolledBack s c).consumers = s.consumers := by
  unfold rolledBack; cases c.txn <;> rfl

/-- After the rollback of its last pull a consumer has no open delivery. -/
theorem Bound.not_pulling_rolledBack (hb : Bound s) (hc : s.consumers.get k = some c) {name : Name}
    {g : Generation} (hx : (rolledBack s c).txns.get p = some x)
    (hk : x.role.consumer = some (k, name, g)) : x.role.isPull = false := by
  by_contra hn
  rw [Bool.not_eq_false] at hn
  have hlast : ∀ {q}, s.txns.get q = some x → c.txn = some q := fun hx =>
    ((hb.txns _ x k name g hx hk).pulling hn c hc).2
  unfold rolledBack at hx
  cases ht : c.txn with
  | none =>
      rw [ht] at hx
      cases ht.symm.trans (hlast hx)
  | some q =>
      rw [ht] at hx
      obtain ⟨hx, hq⟩ := get_finish.mp hx
      exact hq (Option.some.inj ((hlast hx).symm.trans ht))

theorem Bound.start (hb : Bound s) {locks : List (Target × Mode)}
    (hx : ∀ k name g, x.role.consumer = some (k, name, g) → BoundOk s s.txns.next x.role k name g) :
    Bound (s.start x locks) where
  generation := hb.generation
  txns p y k name g hy hk := by
    rcases get_start_cases hy with ⟨rfl, rfl⟩ | hy
    · obtain ⟨h₁, h₂, h₃⟩ := hx k name g hk
      exact ⟨h₁, h₂, h₃⟩
    · obtain ⟨h₁, h₂, h₃⟩ := hb.txns p y k name g hy hk
      exact ⟨h₁, h₂, h₃⟩

theorem Bound.subscribe (hb : Bound s) (hr : s.registrations.next ≤ s'.registrations.next)
    (hx : s'.txns = s.txns) (hc : s'.consumers = s.consumers.insert c)
    (hg : c.generation < s'.registrations.next) : Bound s' := by
  refine hb.of_consumers (by rw [hc]; exact Nat.le_succ _) (fun p x h => ⟨x, hx ▸ h, rfl, rfl⟩) ?_ ?_
  · intro k c' hc'
    rw [hc] at hc'
    rcases Table.get_insert_cases hc' with ⟨-, rfl⟩ | hc'
    · exact hg
    · exact (hb.generation k c' hc').trans_le hr
  · intro k c' hc' hk
    rw [hc] at hc'
    rcases Table.get_insert_cases hc' with ⟨rfl, -⟩ | hc'
    · exact absurd hk (Nat.lt_irrefl _)
    · exact ⟨c', hc', rfl, rfl, fun h => ⟨h, rfl⟩⟩

theorem Bound.step (hb : Bound s) {action : Action} (h : Steps s action s') : Bound s' := by
  have hsame : ∀ k c, s.consumers.get k = some c → k < s.consumers.next → ∃ c₀,
      s.consumers.get k = some c₀ ∧ c₀.name = c.name ∧ c₀.generation = c.generation ∧
        (c₀.phase = .ready → c.phase = .ready ∧ c.txn = c₀.txn) :=
    fun k c hc _ => ⟨c, hc, rfl, rfl, fun h => ⟨h, rfl⟩⟩
  cases h with
  | begin => exact hb.start fun _ _ _ hk => by cases hk
  | within hx ho =>
      refine hb.of_consumers (Nat.le_refl _) (fun q y hy => ?_) hb.generation hsame
      rcases get_move_cases hy with ⟨rfl, rfl⟩ | ⟨-, hy⟩
      · exact ⟨_, hx, role_of_act ho⟩
      · exact ⟨y, hy, rfl, rfl⟩
  | commit hx hc =>
      refine hb.of_consumers settleConsumers_next.ge
        (fun q y hy => ⟨y, (get_finish.mp hy).1, rfl, rfl⟩) (fun k c' hc' => ?_) fun k c' hc' _ => ?_
      · obtain ⟨c, hc, -, hg, -⟩ := get_settleConsumers_cases hc'
        rw [← hg]
        exact (hb.generation k c hc).trans_le settle_next.ge
      · obtain ⟨c, hc, h₁, h₂, rfl | ⟨hf, -⟩⟩ := get_settleConsumers_cases hc'
        · exact ⟨_, hc, rfl, rfl, fun h => ⟨h, rfl⟩⟩
        · exact ⟨c, hc, h₁, h₂, fun h => by rw [hf] at h; cases h⟩
  | rollback => exact hb.finish _
  | create => exact hb.subscribe (Nat.le_succ _) rfl rfl (Nat.lt_succ_self _)
  | @refilter _ _ _ _ _ _ g r hr =>
      exact hb.subscribe (Nat.le_refl _) rfl rfl (Table.lt_of_get hr : g < s.registrations.next)
  | enter hc he => exact hb.enter fun p x name g hx hk => hb.not_pulling hc he.phase_ne.1 hx hk
  | same => exact hb
  | chunk hc hphase hr =>
      refine hb.start fun k' name g hk => ?_
      cases hk
      exact ⟨Table.lt_of_get hc, fun c' hc' => by cases hc.symm.trans hc'; exact ⟨rfl, rfl⟩,
        fun hi => by cases hi⟩
  | refuse hc =>
      exact (hb.rollback _).enter fun p x name g hx hk => hb.not_pulling_rolledBack hc hx hk
  | @pull k now c r hc =>
      refine ((hb.rollback c).enter fun p x name g hx hk =>
        hb.not_pulling_rolledBack hc hx hk).start fun k' name g hk => ?_
      cases hk
      have hlt : k < (rolledBack s c).consumers.next := by
        rw [rolledBack_consumers]; exact Table.lt_of_get hc
      refine ⟨hlt, fun c' hc' => ?_, fun _ c' hc' => ?_⟩
      · obtain ⟨c₁, hc₁, h₁, h₂, -⟩ := get_enter_cases hc'
        rw [rolledBack_consumers] at hc₁
        cases hc.symm.trans hc₁
        exact ⟨h₁.symm, h₂.symm⟩
      · obtain ⟨c₁, -, -, -, -, ⟨-, h₁, h₂⟩ | ⟨hne, -⟩⟩ := get_enter_cases hc'
        · exact ⟨h₁, h₂⟩
        · exact absurd rfl hne
  | unsubscribe => exact hb.start fun _ _ _ hk => by cases hk
  | leave =>
      refine hb.of_consumers (Nat.le_refl _) (fun p x hx => ⟨x, hx, rfl, rfl⟩) ?_ ?_
      · exact fun k' c hc => hb.generation k' c (Table.get_erase_eq_some.mp hc).1
      · exact fun k' c hc => hsame k' c (Table.get_erase_eq_some.mp hc).1
  | setPaused =>
      exact hb.of_consumers (Nat.le_refl _) (fun p x hx => ⟨x, hx, rfl, rfl⟩) hb.generation hsame

theorem bound_of_reachable {catalog : Catalog} (h : Reachable Sys.step (Sys.init catalog) s) :
    Bound s := h.invariant bound_init fun _ _ _ hb hs => hb.step (steps_of_step hs)

/-! ## Closed consumers -/

/-- The consumer has left or is closed, and it has no open delivery. -/
structure Ended (s : Sys) (k : ConsumerId) : Prop where
  known : k < s.consumers.next
  closed : ∀ c, s.consumers.get k = some c → c.phase = .closed
  idle : ∀ p x f, s.txns.get p = some x → x.role = .pull f → f.consumer ≠ k

theorem Ended.of_consumers (he : Ended s k) (hn : s.consumers.next ≤ s'.consumers.next)
    (hc : ∀ c', s'.consumers.get k = some c' →
      ∃ c, s.consumers.get k = some c ∧ (c.phase = .closed → c'.phase = .closed))
    (hx : ∀ p x' f, s'.txns.get p = some x' → x'.role = .pull f → f.consumer ≠ k) : Ended s' k := by
  refine ⟨he.known.trans_le hn, fun c' hc' => ?_, hx⟩
  obtain ⟨c, hcs, hp⟩ := hc c' hc'
  exact hp (he.closed c hcs)

theorem Ended.enter (he : Ended s k) {k' : ConsumerId} {phase : Phase} {txn : Option TxnId}
    (hk : ∀ c, s.consumers.get k' = some c → c.phase ≠ .closed) : Ended (s.enter k' phase txn) k := by
  refine he.of_consumers (Nat.le_refl _) (fun c' hc' => ?_) he.idle
  obtain ⟨c, hc, -, -, -, ⟨rfl, -⟩ | ⟨-, rfl⟩⟩ := get_enter_cases hc'
  · exact absurd (he.closed c hc) (hk c hc)
  · exact ⟨_, hc, id⟩

theorem Ended.insert (he : Ended s k) (hc : s'.consumers = s.consumers.insert c)
    (hx : s'.txns = s.txns) : Ended s' k := by
  refine he.of_consumers (by rw [hc]; exact Nat.le_succ _) (fun c' hc' => ?_) (hx ▸ he.idle)
  rw [hc] at hc'
  rcases Table.get_insert_cases hc' with ⟨rfl, -⟩ | hc'
  · exact absurd he.known (Nat.lt_irrefl _)
  · exact ⟨c', hc', id⟩

theorem Ended.finish (he : Ended s k) (p : TxnId) : Ended (s.finish p) k :=
  ⟨he.known, he.closed, fun q x f hx => he.idle q x f (get_finish.mp hx).1⟩

theorem Ended.start (he : Ended s k) {locks : List (Target × Mode)}
    (hx : ∀ f, x.role = .pull f → f.consumer ≠ k) : Ended (s.start x locks) k := by
  refine ⟨he.known, he.closed, fun q y f hy hf => ?_⟩
  rcases get_start_cases hy with ⟨-, rfl⟩ | hy
  · exact hx f hf
  · exact he.idle q y f hy hf

theorem Ended.move (he : Ended s k) (hx : s.txns.get p = some x) {action : TxnAction}
    (ho : s.act p x action = some o) : Ended (s.move p o) k := by
  refine ⟨he.known, he.closed, fun q y f hy hf => ?_⟩
  rcases get_move_cases hy with ⟨rfl, rfl⟩ | ⟨-, hy⟩
  · obtain ⟨h₁, h₂⟩ := role_of_act ho
    rw [hf] at h₁ h₂
    cases hr : x.role with
    | pull f' =>
        rw [hr] at h₁
        simp only [Role.consumer, Option.some.injEq, Prod.mk.injEq] at h₁
        rw [h₁.1]
        exact he.idle q x f' hx hr
    | _ => rw [hr] at h₂; cases h₂
  · exact he.idle q y f hy hf

theorem Ended.rollback (he : Ended s k) (c : Consumer) : Ended (rolledBack s c) k := by
  unfold rolledBack
  cases c.txn with
  | none => exact he
  | some q => exact he.finish q

theorem Ended.step (he : Ended s k) {action : Action} (h : Steps s action s') : Ended s' k := by
  -- no step finds the consumer in another phase
  have hopen : ∀ {k' : ConsumerId} {c₀ : Consumer}, s.consumers.get k' = some c₀ →
      c₀.phase ≠ .closed → ∀ c, s.consumers.get k' = some c → c.phase ≠ .closed := by
    intro k' c₀ hc₀ hp c hc
    cases hc₀.symm.trans hc
    exact hp
  cases h with
  | begin => exact he.start fun f hf => by cases hf
  | within hx ho => exact he.move hx ho
  | commit =>
      refine he.of_consumers settleConsumers_next.ge (fun c' hc' => ?_) (he.finish _).idle
      obtain ⟨c, hc, -, -, rfl | ⟨hf, -⟩⟩ := get_settleConsumers_cases hc'
      · exact ⟨_, hc, id⟩
      · exact ⟨c, hc, fun h => by rw [hf] at h; cases h⟩
  | rollback => exact he.finish _
  | create => exact he.insert rfl rfl
  | refilter => exact he.insert rfl rfl
  | enter hc hentry => exact he.enter (hopen hc hentry.phase_ne.2)
  | same => exact he
  | chunk => exact he.start fun f hf => by cases hf
  | refuse hc hphase =>
      refine (he.rollback _).enter ?_
      rw [rolledBack_consumers]
      exact hopen hc (by simp [hphase])
  | @pull k' now c r hc hphase =>
      refine ((he.rollback c).enter ?_).start fun f hf => ?_
      · rw [rolledBack_consumers]
        exact hopen hc (by simp [hphase])
      · cases hf
        rintro rfl
        rw [he.closed c hc] at hphase; cases hphase
  | unsubscribe => exact he.start fun f hf => by cases hf
  | leave =>
      exact he.of_consumers (Nat.le_refl _) (fun c' hc' =>
        ⟨c', (Table.get_erase_eq_some.mp hc').1, id⟩) he.idle
  | setPaused => exact he.of_consumers (Nat.le_refl _) (fun c' hc' => ⟨c', hc', id⟩) he.idle

theorem Bound.ended (hb : Bound s) (hc : s.consumers.get k = some c) (hp : c.phase = .closed) :
    Ended s k where
  known := Table.lt_of_get hc
  closed c' hc' := by cases hc.symm.trans hc'; exact hp
  idle p x f hx hf := by
    rintro rfl
    have := hb.not_pulling hc (by simp [hp]) hx (by rw [hf]; rfl)
    rw [hf] at this; cases this

theorem Ended.reachable (he : Ended s k) (h : Reachable Sys.step s s') : Ended s' k :=
  h.invariant (I := fun s => Ended s k) he fun _ _ _ he hs => Ended.step he (steps_of_step hs)

/-! ## Markers -/

/-- Only the commit of a chunk changes a marker, and only the chunk's own. -/
theorem marker_step (hb : Base s) {action : Action} (h : Steps s action s') {g : Generation}
    {r r' : Registration} (hr : s.registrations.get g = some r)
    (hr' : s'.registrations.get g = some r') (hne : r'.backfill ≠ r.backfill) :
    ∃ p x call, action = .commit p ∧ s.txns.get p = some x ∧ x.role = .chunk call ∧
      call.generation = g := by
  have hsame : s'.registrations = s.registrations → False := by
    intro he
    rw [he] at hr'
    cases hr.symm.trans hr'
    exact hne rfl
  cases h with
  | @commit p x hx hc =>
      by_contra hn
      have hother := hb.settle_other (g := g) hx (fun c hc he => hn ⟨p, x, c, rfl, hx, hc, he⟩)
        fun u hu ht => by
          have hgone : (Sys.settle s.registrations x.role).get g = some r' := hr'
          rw [hu] at hgone
          exact of_decide_eq_false (Table.get_erase_eq_some.mp hgone).2 ht
      have hr'' : s.registrations.get g = some r' := hother ▸ hr'
      cases hr.symm.trans hr''
      exact hne rfl
  | create =>
      cases (Table.get_insert_of_get hr).symm.trans hr'
      exact (hne rfl).elim
  | refilter =>
      rw [get_refilter] at hr'
      split at hr'
      · rename_i hg
        subst hg
        rw [hr] at hr'
        cases hr'; exact (hne rfl).elim
      · cases hr.symm.trans hr'; exact (hne rfl).elim
  | refuse => exact (hsame (by unfold rolledBack; cases Consumer.txn _ <;> rfl)).elim
  | pull => exact (hsame (by unfold rolledBack; cases Consumer.txn _ <;> rfl)).elim
  | _ => exact (hsame rfl).elim

end Fronta.Feed
