import Mathlib.Data.List.MinMax
import Mathlib.Data.String.Basic
import Fronta.Store.Model

/-!
# One chunk of a backfill

What `backfill_chunk` reads of the tasks and what it makes of the marker: the rows of the first state in
alphabetical order, from its cursor upwards. A short chunk ends the state, a full one moves its cursor.
-/

namespace Fronta

open Sql

namespace Marker

/-- The marker of a new registration: `dict.fromkeys(states, 0)`. -/
def fresh (since : Option Time) (states : List State) : Marker :=
  ⟨since, (states.map fun st => (⟨st, 0⟩ : Sigma fun _ : State => TaskId)).toAList⟩

/-- `state = min(pending)` with its cursor. -/
def first (m : Marker) : Option (State × TaskId) :=
  (m.pending.keys.argmin State.value).bind fun st =>
    (m.pending.lookup st).map fun after => (st, after)

/-- The marker's boundary for a state: active rows are not windowed. -/
def sinceOf (m : Marker) (st : State) : Option Time :=
  if st = .queued ∨ st = .running then none else m.since

/-- The marker after a chunk that inserted these rows, `none` once no state is pending. -/
def advance (m : Marker) (st : State) (rows : List (TaskId × Row)) (limit : ℕ) :
    Option Marker :=
  let pending :=
    if rows.length < limit then m.pending.erase st
    else m.pending.insert st ((rows.map Prod.fst).foldl max 0)
  if pending.keys = [] then none else some { m with pending := pending }

end Marker

namespace Feed

/-- `%(types)s IS NULL OR t.type = ANY(%(types)s)` -/
def listed (types : Option (List Name)) (t : Row) : Bool := types.all fun ts => ts.contains t.type

/-- `%(since)s IS NULL OR t.finished_at >= %(since)s` -/
def finishedSince (since : Option Time) (t : Row) : Bool :=
  since.all fun b => t.finishedAt.any fun f => b ≤ f

/-- `_BACKFILL`: the rows of one state after a cursor, in ascending order of their ids. -/
def projected (tasks : Table Row) (types : Option (List Name)) (st : State) (after : TaskId)
    (since : Option Time) (limit : ℕ) : List (TaskId × Row) :=
  (tasks.entries.filter fun x =>
    x.2.state = st && after < x.1 && listed types x.2 && finishedSince since x.2).take limit

/-- The rows that a chunk projects and the marker that it stores. -/
def chunk (tasks : Table Row) (types : Option (List Name)) (m : Marker) (limit : ℕ) :
    List (TaskId × Row) × Option Marker :=
  match m.first with
  | none => ([], none)
  | some (st, after) =>
      let rows := projected tasks types st after (m.sinceOf st) limit
      (rows, m.advance st rows limit)

/-! ## What a marker still promises -/

/-- Only terminal rows are windowed. -/
def inWindow (since : Option Time) (t : Row) : Bool := !t.state.terminal || finishedSince since t

/-- The state's cursor has not reached the id. -/
def awaits (m : Option Marker) (st : State) (id : TaskId) : Bool :=
  m.any fun m => (m.pending.lookup st).any fun after => after < id

end Feed

end Fronta
