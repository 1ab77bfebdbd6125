import Fronta.Deadlock.Lemmas.Runs

/-!
# Statements do not wait for one another in a circle

Every statement takes its rows in one order: tasks by id, then subscriptions, then events. The exception is
`unsubscribe`, which deletes the events of a name in no particular order, and which holds the row of the
subscription at that time only if there was one to delete.
-/

namespace Fronta.Deadlock

open Sql Runs Waits
open Feed (Target TxnId Generation Seq)

variable {s : Sys} {actions : List Action}

theorem Inv.not_deadlock (h : Inv s) (ha : Owned s ∨ Ascending s) : ¬Deadlock s.Waiting := by
  refine Waits.not_deadlock (fun p => ((s.txns.get p).map Txn.rank).getD (toLex (0, 0))) ?_
  intro p q o hpq hqo
  obtain ⟨x, y, hx, hy, hlt⟩ := h.rank_lt ha hpq hqo
  simpa [hx, hy] using hlt

theorem inv_of_run (hr : run Sys.step .init actions = some s) : Inv s :=
  Reachable.invariant ⟨actions, hr⟩ Inv.init fun _ _ _ h hs => h.step hs

theorem owned_of_run (hc : Along Sys.step (fun s action => s.clean action = true) .init actions)
    (hr : run Sys.step .init actions = some s) : Owned s :=
  Runs.invariant (fun _ _ _ h hc hs => h.step hc hs) Owned.init hc hr

theorem ascending_of_run (hc : Along Sys.step (fun _ action => Sys.ascending action = true) .init actions)
    (hr : run Sys.step .init actions = some s) : Ascending s :=
  (Runs.invariant (I := fun s => Inv s ∧ Ascending s)
    (fun _ _ _ h hc hs => ⟨h.1.step hs, h.2.step h.1 hc hs⟩) ⟨Inv.init, Ascending.init⟩ hc hr).2

/-- No deadlock where an `unsubscribe` of no subscription finds no events, or where events are deleted in
the order of their numbers. -/
theorem statements_never_block
    (hc : Along Sys.step (fun s action => s.clean action = true) .init actions ∨
      Along Sys.step (fun _ action => Sys.ascending action = true) .init actions)
    (hr : run Sys.step .init actions = some s) : ¬Deadlock s.Waiting :=
  (inv_of_run hr).not_deadlock (hc.imp (owned_of_run · hr) (ascending_of_run · hr))

section Runs

/-- Batches that overlap, given in different orders, a reader and an `unsubscribe` that waits for it. -/
def overlapping : List Action :=
  [.register "feed", .begin (.complete [2, 1]), .begin (.heartbeat [1, 2]), .lock 1, .lock 1,
    .publish 1 [1], .begin (.unsubscribe "feed"), .lock 3]

theorem overlapping_batches_never_block :
    ∃ s, run Sys.step .init overlapping = some s ∧ s.Waiting 2 1 ∧ ¬Deadlock s.Waiting := by
  have hrun : (run Sys.step .init overlapping).any (fun s => s.Waiting 2 1 ∧ s.Waiting 1 3) = true := by
    decide +kernel
  obtain ⟨s, hs, hp⟩ := Option.any_eq_true _ _ |>.mp hrun
  have hp := of_decide_eq_true hp
  exact ⟨s, hs, hp.1, statements_never_block (Or.inl (by decide +kernel)) hs⟩

/-- Two `unsubscribe` statements find no subscription, then one is registered and two events come. -/
def unregistered : List Action :=
  [.begin (.unsubscribe "feed"), .begin (.unsubscribe "feed"), .register "feed",
    .begin (.complete [1, 2]), .lock 3, .lock 3, .publish 3 [1], .lock 3, .commit 3 ["feed", "feed"],
    .see 1 [1, 2], .see 2 [2, 1], .lock 1, .lock 2]

/-- They delete the events in different orders, each waiting for the other one. -/
theorem unregistered_unsubscribes_block :
    ∃ s, Reachable Sys.step .init s ∧ Deadlock s.Waiting := by
  have hrun : (run Sys.step .init unregistered).any (fun s => s.Waiting 1 2 ∧ s.Waiting 2 1) = true := by
    decide +kernel
  obtain ⟨s, hs, hp⟩ := Option.any_eq_true _ _ |>.mp hrun
  have hp := of_decide_eq_true hp
  exact ⟨s, ⟨_, hs⟩, deadlock_of_pair hp.1 hp.2⟩

end Runs

end Fronta.Deadlock
