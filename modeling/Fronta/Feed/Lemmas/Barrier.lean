import Fronta.Feed.Lemmas.Consumers
import Fronta.Feed.Lemmas.Effects

/-!
# The barrier before a backfill

While an open transaction has a snapshot without the registration, every waiting consumer of the
registration has captured it, and no consumer has begun to fill.
-/

namespace Fronta.Feed

open Runs Sql

variable {s s' : Sys} {p q : TxnId} {x : Txn} {o : Outcome} {action : TxnAction} {g : Generation}
  {r : Registration} {k : ConsumerId} {c : Consumer}

/-- Every open transaction sees the registration. -/
def Clear (s : Sys) (g : Generation) : Prop :=
  ∀ p x, s.txns.get p = some x → x.misses g = false

/-- What a consumer's phase says of the open transactions. -/
def PhaseOk (s : Sys) (g : Generation) : Phase → Prop
  | .filling => Clear s g
  | .waiting captured => ∀ p x, s.txns.get p = some x → x.misses g = true → p ∈ captured
  | _ => True

structure Barrier (s : Sys) (g : Generation) : Prop where
  phases : ∀ k c, s.consumers.get k = some c → c.generation = g → PhaseOk s g c.phase
  chunks : ∀ p x, s.txns.get p = some x → x.role.fills g = true → Clear s g

/-- Transactions that miss the registration are not new. -/
def Fewer (s s' : Sys) (g : Generation) : Prop :=
  ∀ p x', s'.txns.get p = some x' → x'.misses g = true → ∃ x, s.txns.get p = some x ∧ x.misses g = true

theorem Clear.fewer (h : Clear s g) (hf : Fewer s s' g) : Clear s' g := by
  intro p x' hx'
  by_contra hn
  rw [Bool.not_eq_false] at hn
  obtain ⟨x, hx, hm⟩ := hf p x' hx' hn
  rw [h p x hx] at hm; cases hm

theorem PhaseOk.fewer (hf : Fewer s s' g) : ∀ {phase : Phase}, PhaseOk s g phase → PhaseOk s' g phase
  | .filling, h => Clear.fewer h hf
  | .waiting _, h => fun p x' hx' hm => by
      obtain ⟨x, hx, hm⟩ := hf p x' hx' hm
      exact h p x hx hm
  | .starting, _ | .ready, _ | .closed, _ => True.intro

theorem misses_of_act (hr : s.registrations.get g = some r) (h : s.act p x action = some o)
    (hm : o.txn.misses g = true) : x.misses g = true := by
  cases effect_of_act h with
  | quiet he => rwa [Txn.misses, he.snapshots] at hm
  | look _ he =>
      rw [he, Txn.misses, List.any_cons, hr] at hm
      exact hm
  | insert _ he => rwa [he] at hm
  | update _ _ _ _ he => rwa [he] at hm
  | purge he => rwa [he] at hm
  | skip _ _ he => rwa [he] at hm
  | publish _ _ he => rwa [he] at hm
  | fill _ _ _ he => rwa [he] at hm

theorem fewer_of_txns (h : ∀ p x, s'.txns.get p = some x → x.snapshots = [] ∨ s.txns.get p = some x) :
    Fewer s s' g := by
  intro p x' hx' hm
  rcases h p x' hx' with hs | hx
  · rw [Txn.misses, hs] at hm; cases hm
  · exact ⟨x', hx, hm⟩

theorem fewer_start {now : Time} {repeatable : Bool} {role : Role} {locks : List (Target × Mode)} :
    Fewer s (s.start { now := now, repeatable := repeatable, role := role } locks) g :=
  fewer_of_txns fun _ _ hx => (get_start_cases hx).imp (fun he => by rw [he.2]) id

theorem fewer_step (hr : s.registrations.get g = some r) {action : Action} (h : Steps s action s') :
    Fewer s s' g := by
  cases h with
  | begin => exact fewer_start
  | @within p x action o hx ho =>
      intro q y hy hm
      rcases get_move_cases hy with ⟨rfl, rfl⟩ | ⟨-, hy⟩
      · exact ⟨x, hx, misses_of_act hr ho hm⟩
      · exact ⟨y, hy, hm⟩
  | commit => exact fewer_of_txns fun _ _ hx => Or.inr (get_finish.mp hx).1
  | rollback => exact fewer_of_txns fun _ _ hx => Or.inr (get_finish.mp hx).1
  | chunk => exact fewer_start
  | refuse => exact fewer_of_txns fun _ _ hx => Or.inr (get_rolledBack hx)
  | pull =>
      exact fewer_of_txns fun _ _ hx =>
        (get_start_cases hx).imp (fun he => by rw [he.2]) fun hx => get_rolledBack hx
  | unsubscribe => exact fewer_start
  | _ => exact fewer_of_txns fun _ _ hx => Or.inr hx

/-- The barrier after a step, from where the consumers and the chunks of the new state come from. -/
theorem Barrier.carry (h : Barrier s g) (hf : Fewer s s' g)
    (hc : ∀ k c', s'.consumers.get k = some c' → c'.generation = g →
      PhaseOk s g c'.phase ∨ ∃ k c, s.consumers.get k = some c ∧ c.generation = g ∧ c.phase = c'.phase)
    (hx : ∀ p x', s'.txns.get p = some x' → x'.role.fills g = true →
      Clear s g ∨ ∃ p x, s.txns.get p = some x ∧ x.role.fills g = true) : Barrier s' g where
  phases k c' hc' hg := by
    rcases hc k c' hc' hg with hp | ⟨k, c, hcs, hg, hp⟩
    · exact hp.fewer hf
    · exact (hp ▸ h.phases k c hcs hg).fewer hf
  chunks p x' hx' hfills := by
    rcases hx p x' hx' hfills with hc | ⟨p, x, hxs, hfills⟩
    · exact hc.fewer hf
    · exact (h.chunks p x hxs hfills).fewer hf

theorem phaseOk_entry (h : PhaseOk s g c.phase) (hg : c.generation = g) {phase : Phase}
    (he : Entry s c phase) : PhaseOk s g phase := by
  cases he with
  | captured _ hcap =>
      intro p x hx hm
      have := List.all_eq_true.mp hcap (p, x) (Table.mem_entries.mpr hx)
      rw [hg, hm] at this
      simpa using this
  | polled hp hall =>
      intro p x hx
      by_contra hn
      rw [Bool.not_eq_false] at hn
      rw [hp] at h
      rw [hall p (h p x hx hn)] at hx; cases hx
  | closed => exact True.intro
  | filled => exact True.intro

theorem Barrier.step (hr : s.registrations.get g = some r) (h : Barrier s g) {action : Action}
    (hs : Steps s action s') : Barrier s' g := by
  have hf := fewer_step hr hs
  have hsame : ∀ k c', s.consumers.get k = some c' → c'.generation = g → PhaseOk s g c'.phase ∨
      ∃ k c, s.consumers.get k = some c ∧ c.generation = g ∧ c.phase = c'.phase :=
    fun k c hc hg => Or.inr ⟨k, c, hc, hg, rfl⟩
  have hold : ∀ p x', s.txns.get p = some x' → x'.role.fills g = true → Clear s g ∨
      ∃ p x, s.txns.get p = some x ∧ x.role.fills g = true :=
    fun p x hx hfills => Or.inr ⟨p, x, hx, hfills⟩
  have hother : ∀ {x : Txn} {locks : List (Target × Mode)}, x.role.fills g = false →
      ∀ p x', (s.start x locks).txns.get p = some x' → x'.role.fills g = true → Clear s g ∨
        ∃ p x, s.txns.get p = some x ∧ x.role.fills g = true := by
    intro x locks hn p x' hx' hfills
    rcases get_start_cases hx' with ⟨-, rfl⟩ | hx'
    · rw [hn] at hfills; cases hfills
    · exact hold p x' hx' hfills
  have hentered : ∀ {k : ConsumerId} {c : Consumer}, s.consumers.get k = some c →
      ∀ (phase : Phase) (txn : Option TxnId), PhaseOk s g phase → ∀ k' c',
        ((rolledBack s c).enter k phase txn).consumers.get k' = some c' → c'.generation = g →
        PhaseOk s g c'.phase ∨
          ∃ k c, s.consumers.get k = some c ∧ c.generation = g ∧ c.phase = c'.phase := by
    intro k c hc phase txn hp k' c' hc' hg
    obtain ⟨c₁, hc₁, -, -, -, ⟨-, he, -⟩ | ⟨-, rfl⟩⟩ := get_enter_cases hc'
    · rw [he]; exact Or.inl hp
    · rw [rolledBack_consumers] at hc₁
      exact hsame k' _ hc₁ hg
  cases hs with
  | begin => exact h.carry hf hsame (hother rfl)
  | @within p x action o hx ho =>
      refine h.carry hf hsame fun q y hy hfills => ?_
      rcases get_move_cases hy with ⟨rfl, rfl⟩ | ⟨-, hy⟩
      · exact Or.inr ⟨_, x, hx, fills_of_act ho ▸ hfills⟩
      · exact hold q y hy hfills
  | commit =>
      refine h.carry hf (fun k c' hc' hg => ?_) fun q y hy => hold q y (get_finish.mp hy).1
      obtain ⟨c, hc, -, hgen, rfl | ⟨-, hp, -⟩⟩ := get_settleConsumers_cases hc'
      · exact hsame k _ hc hg
      · rw [hp]; exact Or.inl True.intro
  | rollback => exact h.carry hf hsame fun q y hy => hold q y (get_finish.mp hy).1
  | create =>
      refine h.carry hf (fun k c' hc' hg => ?_) hold
      rcases Table.get_insert_cases hc' with ⟨-, rfl⟩ | hc'
      · exact absurd hr (by rw [← hg, Table.get_of_le _ (Nat.le_refl _)]; simp)
      · exact hsame k c' hc' hg
  | refilter =>
      refine h.carry hf (fun k c' hc' hg => ?_) hold
      rcases Table.get_insert_cases hc' with ⟨-, rfl⟩ | hc'
      · dsimp only
        split <;> exact Or.inl True.intro
      · exact hsame k c' hc' hg
  | enter hc he =>
      refine h.carry hf (fun k' c' hc' hg => ?_) hold
      obtain ⟨c₁, hc₁, -, hgen, -, ⟨rfl, hp, -⟩ | ⟨-, rfl⟩⟩ := get_enter_cases hc'
      · cases hc.symm.trans hc₁
        rw [hp]
        exact Or.inl (phaseOk_entry (h.phases _ _ hc (hgen.trans hg)) (hgen.trans hg) he)
      · exact hsame k' _ hc₁ hg
  | same => exact h
  | @chunk k now c r m hc hphase =>
      refine h.carry hf hsame fun p x' hx' hfills => ?_
      rcases get_start_cases hx' with ⟨-, rfl⟩ | hx'
      · have hg : c.generation = g := of_decide_eq_true hfills
        have := h.phases k c hc hg
        rw [hphase] at this
        exact Or.inl this
      · exact hold p x' hx' hfills
  | refuse hc =>
      exact h.carry hf (hentered hc .closed _ True.intro)
        fun q y hy => hold q y (get_rolledBack hy)
  | pull hc =>
      refine h.carry hf (hentered hc .ready _ True.intro) fun q y hy hfills => ?_
      rcases get_start_cases hy with ⟨-, rfl⟩ | hy
      · cases hfills
      · exact hold q y (get_rolledBack hy) hfills
  | unsubscribe => exact h.carry hf hsame (hother rfl)
  | leave => exact h.carry hf (fun k c hc hg => hsame k c (Table.get_erase_eq_some.mp hc).1 hg) hold
  | setPaused => exact h.carry hf hsame hold

end Fronta.Feed
