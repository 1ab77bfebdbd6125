import Fronta.Feed.Chunk
import Fronta.Library.Locks
import Fronta.Store.Checks
import Fronta.Store.Transitions

/-!
# Transactions of the feed

What an open transaction has read and written, and what its statements have still to do. The fields on
changes and insertions that only proofs read say which subscriptions a statement saw.
-/

namespace Fronta

open Sql

/-- `now()` of the statement, where it uses it. -/
def RowOp.now : RowOp → Option Time
  | claim now .. | complete now .. | requestCancel now | reap now .. | requeue now => some now
  | heartbeat .. | setProgress .. => none

/-- What an event says of its task. -/
def Event.applied (e : Event) : Applied := ⟨e.taskId, e.type, e.state, e.attempt⟩

namespace Feed

abbrev TxnId := ℕ
abbrev Generation := ℕ
abbrev Seq := ℕ
abbrev ConsumerId := ℕ

/-- The rows that transactions lock. -/
inductive Target
  | task (id : TaskId)
  | registration (generation : Generation)
  | event (seq : Seq)
  deriving DecidableEq, Repr

/-- A change of a task's state and the subscriptions that its statement saw. -/
structure Change where
  applied : Applied
  snapshot : Table Registration

/-- An event that a statement inserts once it holds the subscription's row. -/
structure Notice where
  generation : Generation
  applied : Applied
  snapshot : Table Registration

/-- Who inserted an event: a transition, or the backfill of a registration. -/
inductive Origin
  | transition (snapshot : Table Registration)
  | backfill (generation : Generation)

namespace Origin

def isTransition : Origin → Bool
  | transition _ => true
  | backfill _ => false

/-- A transition that saw the registration, or the registration's own backfill. -/
def Admits : Origin → Generation → Prop
  | transition snapshot, g => (snapshot.get g).isSome
  | backfill g', g => g' = g

end Origin

/-- A row of `fronta.events`, with the registration and the statement that it stems from. -/
structure Insertion where
  generation : Generation
  event : Event
  origin : Origin

/-- `_PUBLISHED`: one event for each subscription of the snapshot that selects the row. -/
def noticesOf (snapshot : Table Registration) (a : Applied) : List Notice :=
  (snapshot.entries.filter fun y => y.2.selects a.type a.state).map fun y => ⟨y.1, a, snapshot⟩

/-! ## Transactions -/

/-- A call of `backfill_chunk`: what it read under its lock, then the marker that it will store. -/
structure ChunkCall where
  consumer : ConsumerId
  name : Name
  generation : Generation
  types : Option (List Name)
  marker : Marker
  update : Option (Option Marker) := none

/-- A delivery: the pulled batch stays locked until it is acknowledged or rolled back. -/
structure Delivery where
  consumer : ConsumerId
  name : Name
  generation : Generation
  limit : ℕ
  batch : Option (List Seq) := none
  acked : Bool := false

/-- An `unsubscribe`: the registration that its first DELETE saw, and the events that the second one has
still to delete. -/
structure Removal where
  name : Name
  target : Option Generation
  dropped : Bool := false
  visible : Option (List Seq) := none

inductive Role
  | plain
  | chunk (call : ChunkCall)
  | pull (delivery : Delivery)
  | unsubscribe (removal : Removal)

structure Txn where
  now : Time
  repeatable : Bool
  role : Role
  /-- The subscriptions as its statements saw them, the current statement first. -/
  snapshots : List (Table Registration) := []
  /-- The task rows that it wrote, the newest first. -/
  rows : List (TaskId × Option Row) := []
  changes : List Change := []
  /-- What its current statement has still to publish. -/
  notices : List Notice := []
  inserted : List (Seq × Insertion) := []
  deleted : List Seq := []

namespace Txn

variable (x : Txn)

/-- Statements of the caller run here: any in a transaction of its own, enqueues next to a delivery. -/
def hosts : Bool :=
  match x.role with
  | .plain => true
  | .pull f => f.batch.isSome && !f.acked
  | _ => false

def isPlain : Bool :=
  match x.role with
  | .plain => true
  | _ => false

/-- Some statement did not see the registration. -/
def misses (g : Generation) : Bool := x.snapshots.any fun snapshot => (snapshot.get g).isNone

/-- The statements are complete, so the transaction may commit. -/
def complete : Bool :=
  x.notices.isEmpty &&
    match x.role with
    | .plain => true
    | .chunk c => c.update.isSome
    | .pull f => f.acked
    | .unsubscribe u => u.visible.any List.isEmpty

/-- Write a task's row under a statement's snapshot. A new state is a change, and `publishes` says
whether the statement inserts events for the row. -/
def write (snapshot : Table Registration) (id : TaskId) (old : Option Row) (t : Row)
    (publishes : Bool) : Txn :=
  { x with
    rows := (id, some t) :: x.rows
    changes :=
      if old.any fun t₀ => t₀.state = t.state then x.changes
      else x.changes ++ [⟨t.applied id, snapshot⟩]
    notices := if publishes then x.notices ++ noticesOf snapshot (t.applied id) else x.notices }

end Txn

end Feed

end Fronta
