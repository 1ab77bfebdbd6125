import Fronta.Hints.System

/-!
# What keeps a hint

A hint leaves the sets with a batch, and a batch leaves the task with a send that succeeded or back into the
sets. Where a set is not empty, the flag is set and a task will look at it.
-/

namespace Fronta.Hints

open Sql Unicode

variable {s s' : Sys} {h : Hint} {k : ℕ} {p q batch : Pending} {action : Action}

/-! ## Sets -/

namespace Pending

@[simp] theorem not_mem_empty : h ∉ ({} : Pending) := by
  cases h <;> exact List.not_mem_nil

@[simp] theorem mem_update : h ∈ p.update q ↔ h ∈ p ∨ h ∈ q := by
  cases h <;> exact List.mem_union_iff

theorem encodable_iff : p.encodable = true ↔ ∀ h ∈ p, h.encodable = true := by
  simp only [encodable, Bool.and_eq_true, List.all_eq_true]
  constructor
  · rintro ⟨hw, hf⟩ (t | i | t) hm
    · exact hw t hm
    · rfl
    · exact hf t hm
  · intro h
    exact ⟨fun t ht => h (.wake t) ht, fun t ht => h (.feed t) ht⟩

theorem carried (hm : h ∈ p) : Carried (notices p) h := by
  cases h with
  | wake t =>
      have ht : t ∈ p.wake := hm
      simp [Carried, notices, ht]
  | cancel i =>
      have hi : i ∈ p.cancel := hm
      simp only [Carried, notices, List.mem_append, List.mem_map]
      exact Or.inl (Or.inr ⟨i, hi, rfl⟩)
  | feed t =>
      have ht : t ∈ p.feed := hm
      refine ⟨p.feed, ht, ?_⟩
      have hne : p.feed ≠ [] := List.ne_nil_of_mem ht
      simp [notices, hne]

end Pending

/-! ## The invariant -/

/-- A send that began after the first `k` ones and succeeded has carried the hint. -/
def Sys.Sent (s : Sys) (h : Hint) (k : ℕ) : Prop := ∃ n l, (n, l) ∈ s.delivered ∧ k ≤ n ∧ Carried l h

/-- The task runs and will come to the head of its loop. -/
def Background.working : Background → Bool
  | .created cancelled => !cancelled
  | .waiting => true
  | .connecting _ => true
  | .sending _ => true
  | .dropping => true
  | .sleeping => true
  | _ => false

/-- A call of `close` that has not given up. -/
def Closer.Orderly (s : Sys) : Closer → Prop
  | .flushed outcome => outcome = .returned ∧ s.task = some (.done .returned)
  | .gathering done => done = true ∧ s.task = some (.done .returned)
  | _ => True

structure Inv (s : Sys) : Prop where
  kept : ∀ h k, (h, k) ∈ s.submitted → k ≤ s.begun ∧
    (h ∈ s.pending ∨ (∃ batch, s.inFlight = some batch ∧ h ∈ batch ∧ k < s.begun) ∨ s.Sent h k)
  awake : s.pending ≠ {} → s.ready = true ∧ s.task.any Background.working = true
  pending : s.pending.encodable = true
  batch : ∀ batch, s.inFlight = some batch → batch.encodable = true
  cancelling : s.cancelling = false
  task : ∀ t, s.task = some t → t.working = true ∨ t = .finishing .returned ∨ t = .done .returned
  closers : ∀ x c, s.closers.get x = some c → c.Orderly s

/-- At the head of the loop: nothing is in flight, and no call of `close` has gone on. -/
structure Turning (s : Sys) : Prop where
  kept : ∀ h k, (h, k) ∈ s.submitted → k ≤ s.begun ∧ (h ∈ s.pending ∨ s.Sent h k)
  awake : s.pending ≠ {} → s.ready = true
  pending : s.pending.encodable = true
  cancelling : s.cancelling = false
  closers : ∀ x c, s.closers.get x = some c → c = .flushing ∨ c = .ended ∨ c = .raised

theorem Turning.orderly (ht : Turning s) (x : ℕ) (c : Closer) (hc : s.closers.get x = some c) :
    c.Orderly s' := by
  rcases ht.closers x c hc with rfl | rfl | rfl <;> trivial

theorem Turning.done (ht : Turning s) (he : s.pending = {}) : Inv (s.done .returned) where
  kept := by
    intro h k hm
    obtain ⟨hk, hm⟩ := ht.kept h k hm
    exact ⟨hk, hm.imp_right Or.inr⟩
  awake := fun hne => absurd he hne
  pending := ht.pending
  batch := by simp [Sys.inFlight, Sys.done]
  cancelling := ht.cancelling
  task := by simp [Background.working, Sys.done]
  closers := by
    intro x c hc
    obtain ⟨c₀, hc₀, hcases⟩ := Table.get_update_cases hc
    rcases ht.closers x c₀ hc₀ with rfl | rfl | rfl
    · rcases hcases with ⟨hn, -⟩ | hcases
      · cases hn
      · cases hcases
        exact ⟨rfl, rfl⟩
    all_goals
      rcases hcases with ⟨-, rfl⟩ | hcases
      · trivial
      · cases hcases

theorem Turning.finish (ht : Turning s) (he : s.pending = {}) : Inv (s.finish .returned) := by
  unfold Sys.finish
  split
  · constructor
    · intro h k hm
      obtain ⟨hk, hm⟩ := ht.kept h k hm
      exact ⟨hk, hm.imp_right Or.inr⟩
    · exact fun hne => absurd he hne
    · exact ht.pending
    · simp [Sys.inFlight]
    · exact ht.cancelling
    · simp [Background.working]
    · exact fun x c hc => ht.orderly x c hc
  · exact ht.done he

theorem Turning.loop (ht : Turning s) : Inv s.loop := by
  unfold Sys.loop
  split
  · rename_i hready
    have he : s.pending = {} := by
      by_contra hne
      simp [ht.awake hne] at hready
    constructor
    · intro h k hm
      obtain ⟨hk, hm⟩ := ht.kept h k hm
      exact ⟨hk, hm.imp_right Or.inr⟩
    · exact fun hne => absurd he hne
    · exact ht.pending
    · simp [Sys.inFlight]
    · exact ht.cancelling
    · simp [Background.working]
    · exact fun x c hc => ht.orderly x c hc
  · split
    · rename_i hidle
      have he : s.pending = {} := by
        simp only [Bool.and_eq_true, Sys.idle, decide_eq_true_eq] at hidle
        exact hidle.2
      have ht' : Turning { s with ready := false } :=
        ⟨ht.kept, fun hne => absurd he hne, ht.pending, ht.cancelling, ht.closers⟩
      exact ht'.finish he
    · have hflight : ({ s with
          ready := false
          pending := {}
          begun := s.begun + 1
          task := some (if s.conn then .sending s.pending else .connecting s.pending) } : Sys).inFlight =
            some s.pending := by
        cases hconn : s.conn <;> rfl
      constructor
      · intro h k hm
        obtain ⟨hk, hm⟩ := ht.kept h k hm
        exact ⟨Nat.le_succ_of_le hk,
          Or.inr (hm.imp_left fun hm => ⟨s.pending, hflight, hm, Nat.lt_succ_of_le hk⟩)⟩
      · simp
      · rfl
      · intro batch hb
        rw [hflight] at hb
        exact Option.some.inj hb ▸ ht.pending
      · exact ht.cancelling
      · intro t htask
        cases htask
        split <;> exact Or.inl rfl
      · exact fun x c hc => ht.orderly x c hc

end Fronta.Hints
