import Fronta.Feed.Lemmas.Consumers
import Fronta.Feed.Lemmas.Ledger

/-!
# What every statement sees is published

While a registration keeps its filters and every transaction sees it, a transaction has inserted and
announced exactly the selected ones of its changes.
-/

namespace Fronta.Feed

open Runs Sql

variable {s s' : Sys} {p q : TxnId} {x : Txn} {o : Outcome} {action : TxnAction} {g : Generation}
  {r : Registration}

/-! ## Lists of events, notices and changes -/

/-- What the events of a registration say. -/
def published (g : Generation) (ledger : List (Seq × Insertion)) : List Applied :=
  (ledger.filter fun n => n.2.generation = g).map fun n => n.2.event.applied

/-- What the notices to a registration say. -/
def noticed (g : Generation) (notices : List Notice) : List Applied :=
  (notices.filter fun n => n.generation = g).map Notice.applied

/-- The changes that the filters select. -/
def matching (r : Registration) (changes : List Change) : List Applied :=
  (changes.map Change.applied).filter fun a => r.selects a.type a.state

theorem published_append (l m : List (Seq × Insertion)) :
    published g (l ++ m) = published g l ++ published g m := by
  simp [published]

theorem published_singleton (n : Seq × Insertion) :
    published g [n] = if n.2.generation = g then [n.2.event.applied] else [] := by
  by_cases h : n.2.generation = g <;> simp [published, h]

theorem noticed_cons (n : Notice) (l : List Notice) :
    noticed g (n :: l) = if n.generation = g then n.applied :: noticed g l else noticed g l := by
  by_cases h : n.generation = g <;> simp [noticed, h]

theorem noticed_append (l m : List Notice) : noticed g (l ++ m) = noticed g l ++ noticed g m := by
  simp [noticed]

theorem matching_append (l m : List Change) : matching r (l ++ m) = matching r l ++ matching r m := by
  simp [matching]

theorem published_eq_nil {l : List (Seq × Insertion)} (h : ∀ n ∈ l, n.2.generation ≠ g) :
    published g l = [] := by
  rw [published, List.map_eq_nil_iff, List.filter_eq_nil_iff]
  exact fun n hn => by simpa using h n hn

theorem entries_filter_id {α : Type*} (T : Table α) (i : ℕ) :
    T.entries.filter (fun y => y.1 = i) = ((T.get i).map fun a => (i, a)).toList := by
  have h := T.returning_filter (fun _ a => some a) i
  have he : T.returning (fun _ a => some a) = T.entries := by
    unfold Table.returning
    simp
  rw [he] at h
  rw [h]
  cases T.get i <;> rfl

theorem noticed_noticesOf {snapshot : Table Registration} {a : Applied} (h : snapshot.get g = some r) :
    noticed g (noticesOf snapshot a) = if r.selects a.type a.state then [a] else [] := by
  have hfilter : (noticesOf snapshot a).filter (fun n => n.generation = g) =
      ((snapshot.entries.filter fun y => y.1 = g).filter fun y => y.2.selects a.type a.state).map
        fun y => ⟨y.1, a, snapshot⟩ := by
    rw [noticesOf, List.filter_map, List.filter_filter, List.filter_filter]
    congr 1
    refine List.filter_congr fun y _ => ?_
    simp [Bool.and_comm, Function.comp]
  rw [noticed, hfilter, entries_filter_id, h]
  cases hs : r.selects a.type a.state <;> simp [hs]

/-! ## Transactions -/

/-- What a transaction has inserted and announced for a registration that all its statements saw. -/
structure Live (g : Generation) (r : Registration) (x : Txn) : Prop where
  seen : ∀ snapshot ∈ x.snapshots, ∃ r₀, snapshot.get g = some r₀ ∧ r₀.states = r.states ∧
    r₀.types = r.types
  exact : x.role.fills g = false →
    published g x.inserted ++ noticed g x.notices = matching r x.changes

/-- A change and its notices come together. -/
theorem Live.write (h : Live g r x) {snapshot : Table Registration} (hs : snapshot ∈ x.snapshots)
    {i : TaskId} {old : Option Row} {t : Row} {publishes : Bool}
    (hp : publishes = !old.any fun t₀ => t₀.state = t.state) :
    Live g r (x.write snapshot i old t publishes) where
  seen := h.seen
  exact hf := by
    obtain ⟨r₀, hr₀, hstates, htypes⟩ := h.seen snapshot hs
    have h := h.exact hf
    simp only [Txn.write, hp]
    cases hold : old.any fun t₀ => t₀.state = t.state with
    | true => simpa using h
    | false =>
        simp only [Bool.not_false, if_true, if_neg Bool.false_ne_true, noticed_append,
          matching_append, ← List.append_assoc, h]
        rw [noticed_noticesOf hr₀, selects_congr hstates htypes]
        congr 1
        simp only [matching, List.map_cons, List.map_nil, Row.applied]
        by_cases hsel : r.selects t.type t.state = true <;> simp [hsel]

theorem Live.act (hb : Base s) (hs : s.serves g r = true) (hx : s.txns.get p = some x)
    (h : Live g r x) (ho : s.act p x action = some o) : Live g r o.txn := by
  have hok := hb.txns p x hx
  have hfills := fills_of_act (g := g) ho
  obtain ⟨r₁, hr₁, hsame⟩ := (Option.any_eq_true _ _).mp hs
  simp only [Bool.and_eq_true, decide_eq_true_eq] at hsame
  cases effect_of_act ho with
  | quiet he =>
      exact ⟨he.snapshots ▸ h.seen, fun hf => by
        rw [he.inserted, he.notices, he.changes]; exact h.exact (hfills ▸ hf)⟩
  | look _ he =>
      rw [he]
      refine ⟨fun y hy => ?_, h.exact⟩
      rcases List.mem_cons.mp hy with rfl | hy
      · exact ⟨r₁, hr₁, hsame⟩
      · exact h.seen y hy
  | insert hsnap he =>
      rw [he]
      exact h.write (by rw [hsnap]; exact List.mem_cons_self) rfl
  | @update snapshot rest id op t t' hsnap _ ha _ he =>
      rw [he]
      refine h.write (by rw [hsnap]; exact List.mem_cons_self) ?_
      rw [Option.any_some, Bool.eq_iff_iff, RowOp.publishes_iff ha]
      simp
  | purge he => rw [he]; exact ⟨h.seen, h.exact⟩
  | @skip n rest hn hg he =>
      have hne : n.generation ≠ g := by
        rintro rfl
        rw [hg] at hr₁; cases hr₁
      rw [he]
      refine ⟨h.seen, fun hf => ?_⟩
      have h := h.exact hf
      rwa [hn, noticed_cons, if_neg hne] at h
  | @publish n rest r₂ hn _ he =>
      rw [he]
      refine ⟨h.seen, fun hf => ?_⟩
      have h := h.exact hf
      rw [hn, noticed_cons] at h
      rw [published_append, published_singleton]
      by_cases hg : n.generation = g
      · rw [if_pos hg] at h ⊢
        rw [List.append_assoc]
        exact h
      · rw [if_neg hg] at h ⊢
        rw [List.append_nil]
        exact h
  | @fill c limit hc _ hu he =>
      have hrole := hok.role
      rw [hc] at hrole
      have hrole : ChunkOk s p x c := hrole
      rw [he]
      refine ⟨h.seen, fun hf => ?_⟩
      have hne : c.generation ≠ g := of_decide_eq_false hf
      have h := h.exact (by rw [hc]; exact hf)
      rw [hrole.unfilled hu] at h
      rw [published_eq_nil fun n hn => by
        obtain ⟨y, -, rfl⟩ := List.mem_map.mp hn
        exact hne]
      exact h

/-! ## Runs -/

/-- What has happened since `s₀`, when no transaction was open. -/
structure LiveSince (s₀ : Sys) (g : Generation) (r : Registration) (s : Sys) : Prop where
  appended : ∃ changes events, s.history = s₀.history ++ changes ∧ s.ledger = s₀.ledger ++ events ∧
    published g events = matching r changes ∧
    ∀ n ∈ events, n.2.generation = g → n.2.origin.isTransition = true
  txns : ∀ p x, s.txns.get p = some x → Live g r x

theorem live_fresh {now : Time} {repeatable : Bool} {role : Role} :
    Live g r { now := now, repeatable := repeatable, role := role } :=
  ⟨(fun _ h => by cases h), fun _ => rfl⟩

variable {s₀ : Sys}

theorem LiveSince.of_txns (h : LiveSince s₀ g r s) (hh : s'.history = s.history)
    (hl : s'.ledger = s.ledger)
    (hx : ∀ p x, s'.txns.get p = some x → Live g r x ∨ ∃ q, s.txns.get q = some x) :
    LiveSince s₀ g r s' where
  appended := by rw [hh, hl]; exact h.appended
  txns p x hp := by
    rcases hx p x hp with hl | ⟨q, hq⟩
    · exact hl
    · exact h.txns q x hq

theorem LiveSince.start (h : LiveSince s₀ g r s) {now : Time} {repeatable : Bool} {role : Role}
    {locks : List (Target × Mode)} :
    LiveSince s₀ g r (s.start { now := now, repeatable := repeatable, role := role } locks) :=
  h.of_txns rfl rfl fun p x hx =>
    (get_start_cases hx).imp (fun he => by rw [he.2]; exact live_fresh) fun hx => ⟨p, hx⟩

theorem LiveSince.rollback (h : LiveSince s₀ g r s) (c : Consumer) :
    LiveSince s₀ g r (rolledBack s c) := by
  unfold rolledBack
  cases c.txn with
  | none => exact h
  | some q => exact h.of_txns rfl rfl fun p x hx => Or.inr ⟨p, (get_finish.mp hx).1⟩

theorem TxnOk.transitions (h : TxnOk s p x) (hf : x.role.fills g = false) {n : Seq × Insertion}
    (hn : n ∈ x.inserted) (hg : n.2.generation = g) : n.2.origin.isTransition = true := by
  have hrole := h.role
  cases hr : x.role with
  | plain => rw [hr] at hrole; exact hrole n hn
  | pull f => rw [hr] at hrole; exact hrole.inserted n hn
  | unsubscribe u =>
      rw [hr] at hrole
      rw [hrole.idle.1] at hn; cases hn
  | chunk c =>
      rw [hr] at hrole hf
      exact absurd ((hrole.inserted n hn).1.symm.trans hg) (of_decide_eq_false hf)

theorem LiveSince.step (hb : Base s) (h : LiveSince s₀ g r s) {action : Action}
    (hs : s.serves g r = true) (hc : s.backfills g action = false) (hstep : Steps s action s') :
    LiveSince s₀ g r s' := by
  have hsame : ∀ p x, s.txns.get p = some x → Live g r x ∨ ∃ q, s.txns.get q = some x :=
    fun p x hx => Or.inr ⟨p, hx⟩
  cases hstep with
  | begin => exact h.start
  | within hx ho =>
      refine h.of_txns rfl rfl fun q y hy => ?_
      rcases get_move_cases hy with ⟨-, rfl⟩ | ⟨-, hy⟩
      · exact Or.inl (Live.act hb hs hx (h.txns _ _ hx) ho)
      · exact Or.inr ⟨q, hy⟩
  | @commit p x hx hcomplete =>
      have hf : x.role.fills g = false := by simpa [Sys.backfills, hx] using hc
      obtain ⟨changes, events, hh, hl, he, ht⟩ := h.appended
      have hnotices : x.notices = [] := by
        simp only [Txn.complete, Bool.and_eq_true, List.isEmpty_iff] at hcomplete
        exact hcomplete.1
      refine ⟨⟨changes ++ x.changes, events ++ x.inserted, ?_, ?_, ?_, fun n hn hg => ?_⟩,
        fun q y hy => h.txns q y (get_finish.mp hy).1⟩
      · rw [Sys.commit, hh, List.append_assoc]
      · rw [Sys.commit, hl, List.append_assoc]
      · have hx' := (h.txns p x hx).exact hf
        rw [hnotices, noticed, List.filter_nil, List.map_nil, List.append_nil] at hx'
        rw [published_append, matching_append, he, hx']
      · rcases List.mem_append.mp hn with hn | hn
        · exact ht n hn hg
        · exact (hb.txns p x hx).transitions hf hn hg
  | rollback => exact h.of_txns rfl rfl fun q y hy => Or.inr ⟨q, (get_finish.mp hy).1⟩
  | chunk => exact h.start
  | refuse => exact (h.rollback _).of_txns rfl rfl fun q y hy => Or.inr ⟨q, hy⟩
  | @pull k now c =>
      have hentered : LiveSince s₀ g r
          ((rolledBack s c).enter k .ready (some (rolledBack s c).txns.next)) :=
        (h.rollback c).of_txns rfl rfl fun q y hy => Or.inr ⟨q, hy⟩
      exact hentered.start
  | unsubscribe => exact h.start
  | _ => exact h.of_txns rfl rfl hsame

theorem filter_published (i : TaskId) (events : List (Seq × Insertion)) :
    (published g events).filter (fun a => a.id = i) =
      (eventsFor g i events).map fun n => n.2.event.applied := by
  rw [published, List.filter_map, List.filter_filter, eventsFor]
  congr 1
  refine List.filter_congr fun n _ => ?_
  exact Bool.and_comm _ _

theorem filter_matching (i : TaskId) (changes : List Change) :
    (matching r changes).filter (fun a => a.id = i) = selected r i changes := by
  rw [matching, List.filter_filter, selected]

end Fronta.Feed
