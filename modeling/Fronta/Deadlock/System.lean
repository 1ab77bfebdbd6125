import Fronta.Feed.Transaction
import Fronta.Library.Order
import Fronta.Library.Runs
import Fronta.Library.Waits
import Mathlib.Data.List.Dedup

/-!
# The row locks of the statements

Every statement runs in a transaction of its own and locks task, subscription and event rows in its own
order and mode. A request waits while another transaction holds a mode that conflicts, or passes over the
row where the statement says SKIP LOCKED. Which rows a statement asks for is left open. A statement of
`complete` or `claim` first locks its tasks and then the subscriptions that it publishes to.
-/

namespace Fronta.Deadlock

open Sql
open Feed (Target TxnId Generation Seq)

inductive Statement
  | complete (ids : List TaskId)
  | releaseOrphans (ids : List TaskId)
  | heartbeat (ids : List TaskId)
  | setProgress (id : TaskId)
  | requestCancel (id : TaskId)
  | requeue (id : TaskId)
  | claim
  | reap
  | purgeTasks
  | purgeEvents
  | pull (name : Name)
  | backfillChunk (name : Name)
  | unsubscribe (name : Name)
  deriving DecidableEq

/-- What a transaction has still to lock. `skip` stages take what is free. -/
inductive Stage
  | tasks (mode : Mode) (rest : List TaskId) (publishes : Bool)
  | skipTasks (publishes : Bool)
  | publishing (rest : List Generation)
  | registration (g : Generation)
  | skipEvents
  | registrationDeleted
  | events (rest : List Seq)
  | done
  deriving DecidableEq

structure Txn where
  statement : Statement
  stage : Stage
  /-- The registration that an `unsubscribe` has deleted. -/
  target : Option Generation := none
  deriving DecidableEq

namespace Statement

/-- `ORDER BY t.id FOR UPDATE` -/
def ordered (ids : List TaskId) (publishes : Bool) : Stage :=
  .tasks .update (orderBy id ids.dedup) publishes

/-- The mode in which the statement locks the row of its subscription. -/
def mode : Statement → Mode
  | pull _ => .keyShare
  | backfillChunk _ => .noKeyUpdate
  | _ => .update

/-- The stage after the row of its subscription. -/
def after : Statement → Stage
  | pull _ => .skipEvents
  | unsubscribe _ => .registrationDeleted
  | _ => .done

/-- The stage where there is no row of its subscription. -/
def without : Statement → Stage
  | unsubscribe _ => .registrationDeleted
  | _ => .done

/-- The first stage, for the generation of the subscription that the statement sees. -/
def first (registered : Option Generation) : Statement → Stage
  | complete ids => ordered ids true
  | releaseOrphans ids => ordered ids true
  | heartbeat ids => ordered ids false
  | setProgress id => .tasks .noKeyUpdate [id] false
  | requestCancel id => .tasks .noKeyUpdate [id] true
  | requeue id => .tasks .noKeyUpdate [id] true
  | claim => .skipTasks true
  | reap => .skipTasks true
  | purgeTasks => .skipTasks false
  | purgeEvents => .skipEvents
  | statement => registered.elim statement.without .registration

end Statement

namespace Txn

variable (x : Txn)

/-- The row that the transaction asks for, and waits for. -/
def wants : Option (Target × Mode) :=
  match x.stage with
  | .tasks mode (i :: _) _ => some (.task i, mode)
  | .publishing (g :: _) => some (.registration g, .keyShare)
  | .registration g => some (.registration g, x.statement.mode)
  | .events (seq :: _) => some (.event seq, .update)
  | _ => none

/-- The transaction has got the row. -/
def locked : Txn :=
  match x.stage with
  | .tasks mode (_ :: rest) publishes => { x with stage := .tasks mode rest publishes }
  | .publishing (_ :: rest) => { x with stage := .publishing rest }
  | .registration g =>
      { x with
        stage := x.statement.after
        target := if x.statement.after = .registrationDeleted then some g else none }
  | .events (_ :: rest) => { x with stage := .events rest }
  | _ => x

/-- The row that it asked for has gone. -/
def passed : Txn :=
  match x.stage with
  | .registration _ => { x with stage := x.statement.without }
  | _ => x.locked

/-- The transaction may take such a row with SKIP LOCKED. -/
def skips : Target → Bool
  | .task _ => match x.stage with
    | .skipTasks _ => true
    | _ => false
  | .event _ => x.stage = .skipEvents
  | .registration _ => false

/-- The tasks are locked and written, the events come next. -/
def publishes : Bool :=
  match x.stage with
  | .tasks _ [] publishes => publishes
  | .skipTasks publishes => publishes
  | _ => false

def complete : Bool :=
  match x.stage with
  | .tasks _ [] publishes => !publishes
  | .skipTasks publishes => !publishes
  | .publishing [] => true
  | .skipEvents => true
  | .events [] => true
  | .done => true
  | _ => false

end Txn

structure Sys where
  registrations : Table Name
  events : Table Name
  locks : Locks Target TxnId
  txns : Table Txn

inductive Action
  | begin (statement : Statement)
  | lock (p : TxnId)
  | pass (p : TxnId)
  | skip (p : TxnId) (r : Target)
  | publish (p : TxnId) (generations : List Generation)
  | see (p : TxnId) (seqs : List Seq)
  | commit (p : TxnId) (inserted : List Name)
  | rollback (p : TxnId)
  | register (name : Name)

namespace Sys

def init : Sys := ⟨.empty, .empty, [], .empty⟩

variable (s : Sys) (p : TxnId) (x : Txn)

def registered (name : Name) : Option Generation :=
  (s.registrations.find fun n => n = name).map Prod.fst

/-- The name of the subscription of a statement. -/
def generation : Statement → Option Generation
  | .pull name => s.registered name
  | .backfillChunk name => s.registered name
  | .unsubscribe name => s.registered name
  | _ => none

/-- The row has not been deleted. -/
def there : Target → Bool
  | .task _ => true
  | .registration g => (s.registrations.get g).isSome
  | .event seq => (s.events.get seq).isSome

/-- One transaction waits for another one. -/
def Waiting (q : TxnId) : Prop :=
  p ≠ q ∧ ∃ x ∈ s.txns.get p, ∃ r ∈ x.wants, s.there r.1 = true ∧
    ∃ l ∈ s.locks, l.1 = r.1 ∧ l.2.1 = q ∧ l.2.2.compatible r.2 = false

instance (q : TxnId) : Decidable (s.Waiting p q) :=
  inferInstanceAs (Decidable (p ≠ q ∧ ∃ x ∈ s.txns.get p, ∃ r ∈ x.wants, s.there r.1 = true ∧
    ∃ l ∈ s.locks, l.1 = r.1 ∧ l.2.1 = q ∧ l.2.2.compatible r.2 = false))

def setTxn (x : Txn) : Sys :=
  { s with txns := s.txns.modify p fun _ => x }

/-- The end of a transaction. -/
def finish : Sys :=
  { s with locks := s.locks.release p, txns := s.txns.erase fun q _ => q = p }

/-- A pull takes events of its subscription only. -/
def suits : Target → Bool
  | .event seq => match x.statement with
    | .pull name => s.events.get seq = some name
    | _ => true
  | _ => true

/-- The transaction holds the row of this subscription, and has not deleted it. -/
def feeds (name : Name) : Bool :=
  s.locks.any fun l => l.2.1 = p && l.2.2 ≠ .update &&
    match l.1 with
    | .registration g => s.registrations.get g = some name
    | _ => false

/-- The rows that were deleted go, and the events that were inserted come. -/
def commit (inserted : List Name) : Sys :=
  { s.finish p with
    registrations := s.registrations.erase fun g _ => x.target = some g
    events := inserted.foldl Table.insert
      (s.events.erase fun seq _ => decide (s.locks.Holds (.event seq) p .update)) }

/-- The events of a subscription. -/
def eventsOf (name : Name) : List Seq :=
  (s.events.entries.filter fun e => e.2 = name).map Prod.fst

def step : Action → Option Sys
  | .begin statement =>
      let stage := statement.first (s.generation statement)
      some { s with txns := s.txns.insert { statement := statement, stage := stage } }
  | .lock p =>
      (s.txns.get p).bind fun x => x.wants.bind fun r =>
        if s.there r.1 && s.locks.grantable r.1 p r.2 then
          some { s.setTxn p x.locked with locks := s.locks.acquire r.1 p r.2 }
        else none
  | .pass p =>
      (s.txns.get p).bind fun x => x.wants.bind fun r =>
        if s.there r.1 then none else some (s.setTxn p x.passed)
  | .skip p r =>
      (s.txns.get p).bind fun x =>
        if x.skips r && s.suits x r && s.there r && s.locks.grantable r p .update then
          some { s with locks := s.locks.acquire r p .update }
        else none
  | .publish p generations =>
      (s.txns.get p).bind fun x =>
        if x.publishes then some (s.setTxn p { x with stage := .publishing generations }) else none
  -- The second DELETE of `unsubscribe` has no ORDER BY.
  | .see p seqs =>
      (s.txns.get p).bind fun x =>
        match x.statement, x.stage with
        | .unsubscribe name, .registrationDeleted =>
            if seqs.isPerm (s.eventsOf name) then some (s.setTxn p { x with stage := .events seqs })
            else none
        | _, _ => none
  | .commit p inserted =>
      (s.txns.get p).bind fun x =>
        if x.complete && inserted.all (s.feeds p) then some (s.commit p x inserted) else none
  | .rollback p => (s.txns.get p).map fun _ => s.finish p
  -- The upsert of `register_subscription`, which commits at once.
  | .register name =>
      match s.registered name with
      | none => some { s with registrations := s.registrations.insert name }
      | some g => if s.locks.grantable (.registration g) s.txns.next .noKeyUpdate then some s else none

/-- An `unsubscribe` that has deleted no registration finds no events. -/
def clean : Action → Bool
  | .see p seqs => seqs = [] || (s.txns.get p).any fun x => x.target.isSome
  | _ => true

/-- The events of a subscription are deleted in the order of their numbers. -/
def ascending : Action → Bool
  | .see _ seqs => seqs = orderBy id seqs
  | _ => true

end Sys

end Fronta.Deadlock
