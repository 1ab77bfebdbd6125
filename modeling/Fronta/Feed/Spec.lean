import Fronta.Feed.System

/-!
# What the feed promises

The events that a registration owes to its tasks, in terms of the committed changes and insertions.
-/

namespace Fronta.Feed

open Sql

/-- The transaction is a chunk of this registration. -/
def Role.fills : Role → Generation → Bool
  | .chunk c, g => c.generation = g
  | _, _ => false

/-! ## Live events -/

/-- The registration is there with the filters of `r`. -/
def Sys.serves (s : Sys) (g : Generation) (r : Registration) : Bool :=
  (s.registrations.get g).any fun r' => r'.states = r.states && r'.types = r.types

/-- The action commits a chunk of the registration's backfill. -/
def Sys.backfills (s : Sys) (g : Generation) : Action → Bool
  | .commit p => (s.txns.get p).any fun x => x.role.fills g
  | _ => false

/-- The changes of a task that the filters select. -/
def selected (r : Registration) (id : TaskId) (changes : List Change) : List Applied :=
  (changes.map Change.applied).filter fun a => a.id = id && r.selects a.type a.state

/-- The events of a registration for a task. -/
def eventsFor (g : Generation) (id : TaskId) (ledger : List (Seq × Insertion)) :
    List (Seq × Insertion) :=
  ledger.filter fun n => n.2.generation = g && n.2.event.taskId = id

/-- A manual requeue. -/
def Action.requeues : Action → Bool
  | .within _ (.transition _ op) => op.isRequeue
  | _ => false

/-- What consumers deduplicate by. -/
def Insertion.key (n : Insertion) : TaskId × ℕ × State := (n.event.taskId, n.event.attempt, n.event.state)

/-! ## Backfill -/

/-- An event of the registration tells of this state of a task. -/
def Covers (ledger : List (Seq × Insertion)) (g : Generation) (a : Applied) : Prop :=
  ∃ n ∈ ledger, n.2.generation = g ∧ n.2.event.applied = a

/-- The action leaves the filters of the registration as they are. -/
def Sys.steady (s : Sys) (g : Generation) : Action → Bool
  | .subscribe name states types _ _ _ => (s.registrations.get g).all fun r =>
      r.name ≠ name || (states = r.states && types = r.types)
  | _ => true

/-- A transaction that commits now, and ended a selected task in a statement that did not see the
registration, has begun within the window. -/
def Sys.timely (s : Sys) (w : Window) : Action → Bool
  | .commit p => (s.txns.get p).all fun x => (s.registrations.get w.generation).all fun r =>
      x.changes.all fun c =>
        (c.snapshot.get w.generation).isSome || !r.selects c.applied.type c.applied.state ||
          !c.applied.state.terminal || w.since.all fun b => b ≤ x.now
  | _ => true

end Fronta.Feed
