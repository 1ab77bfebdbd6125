import Fronta.Feed.Chunk
import Fronta.Library.Runs

/-!
# Chunks of many consumers over fixed tasks

Any number of consumers call `backfill_chunk` for one registration whose tasks and filters stay as they
are. A call holds the registration's row from its first statement to its end, so one call is open at a
time; it commits events and marker together, or rolls both back. A consumer that dies after a commit
simply makes no further call.
-/

namespace Fronta.Backfill

open Feed Sql

/-- What the calls find unchanged: the tasks, the filters and the window of the registration. -/
structure Source where
  tasks : Table Row
  states : List State
  types : Option (List Name)
  since : Option Time

/-- A task whose state is registered, whose type passes the filter and which is inside the window. -/
def Source.selects (src : Source) (t : Row) : Bool :=
  src.states.contains t.state && listed src.types t && inWindow src.since t

structure Sys where
  /-- The committed marker. -/
  marker : Option Marker
  /-- The rows of the committed events, in the order in which chunks inserted them. -/
  inserted : List (TaskId × Row)
  /-- What the open call will commit. -/
  call : Option (List (TaskId × Row) × Option Marker)
  /-- The chunks committed so far. -/
  commits : ℕ

namespace Sys

def init (src : Source) : Sys := ⟨some (.fresh src.since src.states), [], none, 0⟩

inductive Action
  | call (limit : ℕ)
  | commit
  | rollback

/-- A call without a marker returns at once, and every limit is at least 1. -/
def step (src : Source) (s : Sys) : Action → Option Sys
  | .call limit =>
      match s.call, s.marker with
      | none, some m =>
          if 1 ≤ limit then some { s with call := some (chunk src.tasks src.types m limit) } else none
      | _, _ => none
  | .commit => s.call.map fun c =>
      { marker := c.2, inserted := s.inserted ++ c.1, call := none, commits := s.commits + 1 }
  | .rollback => s.call.map fun _ => { s with call := none }

end Sys

/-- The rows that a complete projection inserts. -/
def Source.rows (src : Source) : List (TaskId × Row) :=
  src.tasks.entries.filter fun x => src.selects x.2

/-- The rows that a marker has left behind: those of the removed states and, of a pending state, those up
to its cursor. -/
def Source.passed (src : Source) (marker : Option Marker) : List (TaskId × Row) :=
  src.rows.filter fun x => match marker.bind fun m => m.pending.lookup x.2.state with
    | none => true
    | some after => x.1 ≤ after

end Fronta.Backfill
