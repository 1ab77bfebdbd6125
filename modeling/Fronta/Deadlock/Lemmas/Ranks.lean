import Fronta.Deadlock.System
import Mathlib.Data.Prod.Lex

/-!
# The order of the row locks

Tasks come first, by id, then subscriptions, then events. A transaction that waits for its first row holds
nothing, and one that takes events with SKIP LOCKED does not wait any more.
-/

namespace Fronta.Deadlock

open Sql
open Feed (Target TxnId Generation Seq)

variable {s s' : Sys} {p q : TxnId} {x x' : Txn} {L : Locks Target TxnId}

/-- What a transaction may hold at its stage. -/
def Txn.Keeps (x : Txn) (r : Target) (m : Mode) : Prop :=
  match x.stage, r with
  | .tasks _ rest _, .task i => ∀ j ∈ rest, i < j
  | .skipTasks _, .task _ => True
  | .publishing _, .task _ => True
  | .publishing _, .registration _ => m = .keyShare
  | .skipEvents, .registration _ => True
  | .skipEvents, .event _ => True
  | .registrationDeleted, .registration g => x.target = some g
  | .events _, .registration g => x.target = some g
  | .events _, .event _ => m = .update
  | .done, .registration _ => True
  | _, _ => False

/-- What is so of an open transaction. -/
structure TxnOk (s : Sys) (p : TxnId) (x : Txn) : Prop where
  sorted : ∀ mode rest publishes, x.stage = .tasks mode rest publishes → rest.Pairwise (· < ·)
  target : ∀ g, x.target = some g → ∃ name, x.statement = .unsubscribe name ∧
    s.locks.Holds (.registration g) p .update ∧ s.registrations.get g = some name
  aims : ∀ g name, x.stage = .registration g → x.statement = .unsubscribe name →
    g < s.registrations.next ∧ ∀ n, s.registrations.get g = some n → n = name
  listed : ∀ rest, x.stage = .events rest → ∃ name, x.statement = .unsubscribe name ∧
    ∀ seq, seq ∈ rest ∨ s.locks.Holds (.event seq) p .update →
      seq < s.events.next ∧ ∀ n, s.events.get seq = some n → n = name

structure Inv (s : Sys) : Prop where
  sound : s.locks.Sound
  keeps : ∀ r p m, s.locks.Holds r p m → ∃ x, s.txns.get p = some x ∧ x.Keeps r m
  names : ∀ g g' name, s.registrations.get g = some name → s.registrations.get g' = some name → g = g'
  txns : ∀ p x, s.txns.get p = some x → TxnOk s p x

/-- Whoever has still events to delete has deleted the subscription. -/
def Owned (s : Sys) : Prop :=
  ∀ p x seq rest, s.txns.get p = some x → x.stage = .events (seq :: rest) → x.target ≠ none

/-- Events are deleted in ascending order. -/
def Ascending (s : Sys) : Prop :=
  ∀ p x rest, s.txns.get p = some x → x.stage = .events rest →
    rest.Pairwise (· < ·) ∧ ∀ seq m, s.locks.Holds (.event seq) p m → ∀ j ∈ rest, seq < j

/-- How far a waiting transaction is. -/
def Txn.rank (x : Txn) : ℕ ×ₗ ℕ :=
  match x.stage with
  | .tasks _ (i :: _) _ => toLex (1, i)
  | .publishing _ => toLex (2, 0)
  | .events (seq :: _) => toLex (3, seq)
  | _ => toLex (0, 0)

theorem wants_cases {r : Target × Mode} (h : x.wants = some r) :
    (∃ i rest b, x.stage = .tasks r.2 (i :: rest) b ∧ r.1 = .task i) ∨
    (∃ g rest, x.stage = .publishing (g :: rest) ∧ r = (.registration g, .keyShare)) ∨
    (∃ g, x.stage = .registration g ∧ r = (.registration g, x.statement.mode)) ∨
    ∃ seq rest, x.stage = .events (seq :: rest) ∧ r = (.event seq, .update) := by
  unfold Txn.wants at h
  split at h
  · rename_i mode i rest b hs
    cases h
    exact Or.inl ⟨i, rest, b, hs, rfl⟩
  · rename_i g rest hs
    cases h
    exact Or.inr (Or.inl ⟨g, rest, hs, rfl⟩)
  · rename_i g hs
    cases h
    exact Or.inr (Or.inr (Or.inl ⟨g, hs, rfl⟩))
  · rename_i seq rest hs
    cases h
    exact Or.inr (Or.inr (Or.inr ⟨seq, rest, hs, rfl⟩))
  · cases h

namespace Inv

variable (h : Inv s)
include h

theorem held {r : Target} {m : Mode} (hx : s.txns.get p = some x) (hl : s.locks.Holds r p m) :
    x.Keeps r m := by
  obtain ⟨x', hx', hk⟩ := h.keeps r p m hl
  exact Option.some.inj (hx.symm.trans hx') ▸ hk

/-- Two transactions that delete events of one subscription have not both deleted its row. -/
theorem alone {y : Txn} {seq : Seq} {rest rest' : List Seq} {n : Name} (hx : s.txns.get p = some x)
    (hy : s.txns.get q = some y) (hsx : x.stage = .events (seq :: rest)) (hsy : y.stage = .events rest')
    (htx : x.target ≠ none) (hty : y.target ≠ none) (hev : s.events.get seq = some n)
    (hl : s.locks.Holds (.event seq) q .update) : p = q := by
  obtain ⟨g, hg⟩ := Option.ne_none_iff_exists'.mp htx
  obtain ⟨g', hg'⟩ := Option.ne_none_iff_exists'.mp hty
  obtain ⟨name, hname, hlock, hreg⟩ := (h.txns p x hx).target g hg
  obtain ⟨name', hname', hlock', hreg'⟩ := (h.txns q y hy).target g' hg'
  obtain ⟨nx, hnx, hlx⟩ := (h.txns p x hx).listed _ hsx
  obtain ⟨ny, hny, hly⟩ := (h.txns q y hy).listed _ hsy
  have hx' : n = name := by
    rw [hname, Statement.unsubscribe.injEq] at hnx
    exact ((hlx seq (Or.inl List.mem_cons_self)).2 n hev).trans hnx.symm
  have hy' : n = name' := by
    rw [hname', Statement.unsubscribe.injEq] at hny
    exact ((hly seq (Or.inr hl)).2 n hev).trans hny.symm
  have hgg : g = g' := h.names g g' name hreg (by rw [hreg', ← hx', ← hy'])
  exact h.sound.exclusive (hgg ▸ hlock') hlock

theorem rank_lt (ha : Owned s ∨ Ascending s) {o : TxnId} (hpq : s.Waiting p q) (hqo : s.Waiting q o) :
    ∃ x y, s.txns.get p = some x ∧ s.txns.get q = some y ∧ x.rank < y.rank := by
  obtain ⟨hne, x, hx, ⟨r, m⟩, hr, hthere, ⟨r', q', n⟩, hl, rfl, rfl, hc⟩ := hpq
  obtain ⟨-, y, hy, r', hr', -, -⟩ := hqo
  rw [Option.mem_def] at hx hr hy hr'
  refine ⟨x, y, hx, hy, ?_⟩
  have hk := h.held hy hl
  rcases wants_cases hr with ⟨i, rest, b, hsx, hr⟩ | ⟨g, rest, hsx, hr⟩ | ⟨g, hsx, hr⟩ | ⟨seq, rest, hsx, hr⟩ <;>
    cases hr <;>
    rcases wants_cases hr' with ⟨j, rest', b', hsy, -⟩ | ⟨g', rest', hsy, -⟩ | ⟨g', hsy, -⟩ |
      ⟨seq', rest', hsy, -⟩ <;>
    simp only [Txn.Keeps, hsy] at hk
  · -- tasks are locked by id
    have hij : i < j := hk j List.mem_cons_self
    simp [Txn.rank, hsx, hsy, Prod.Lex.toLex_lt_toLex, hij]
  · simp [Txn.rank, hsx, hsy, Prod.Lex.toLex_lt_toLex]
  · -- whoever publishes holds subscriptions in the weakest mode, which does not conflict with its own
    subst hk
    simp [Mode.compatible] at hc
  · simp [Txn.rank, hsx, hsy, Prod.Lex.toLex_lt_toLex]
  · simp [Txn.rank, hsx, hsy, Prod.Lex.toLex_lt_toLex]
  · simp [Txn.rank, hsx, hsy, Prod.Lex.toLex_lt_toLex]
  · subst hk
    obtain ⟨e, he⟩ := Option.isSome_iff_exists.mp hthere
    rcases ha with ha | ha
    · exact absurd (h.alone hx hy hsx hsy (ha p x seq rest hx hsx) (ha q' y seq' rest' hy hsy) he hl) hne
    · have hlt := (ha q' y _ hy hsy).2 seq _ hl seq' List.mem_cons_self
      simp [Txn.rank, hsx, hsy, Prod.Lex.toLex_lt_toLex, hlt]

end Inv

end Fronta.Deadlock
