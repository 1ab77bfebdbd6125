import Fronta.Feed.System
import Fronta.Store.Statements

/-!
# Calls of `enqueue` and `requeue`

A call of `enqueue` alternates between `_ENQUEUE` and `_FIND_ACTIVE_BY_KEY` until one of them returns an
id or its deadline passes. In autocommit every statement is a transaction of its own; otherwise both run
in the caller's transaction, which sees its own writes and may commit or roll back later. All other
statements and transactions take their steps in between.
-/

namespace Fronta.Dedupe

open Sql
open Feed (TxnId Txn)

abbrev CallId := ℕ

/-- Where a call is: the statement that comes next, or what it returned. -/
inductive Phase
  | inserting
  | publishing (p : TxnId) (id : TaskId)
  | finding
  | returned (id : TaskId) (inserted : Bool)
  | failed
  deriving DecidableEq, Repr

structure Call where
  task : NewTask
  /-- The transaction that the caller has open. -/
  caller : Option TxnId
  phase : Phase

structure Sys where
  feed : Feed.Sys
  calls : Table Call

/-! ## Statements -/

/-- `_ENQUEUE` inside `p`: the id that it returns, none where the key is taken. -/
def insertIn (s : Feed.Sys) (p : TxnId) (task : NewTask) : Option (Option TaskId × Feed.Sys) :=
  (s.step (.within p .statement)).bind fun s =>
    (s.txns.get p).bind fun x =>
      (s.step (.within p (.enqueue task))).map fun s' =>
        (if s.taken x task.type task.key then none else some s.tasks.next, s')

/-- `_FIND_ACTIVE_BY_KEY` over the rows that the statement sees. -/
def findActiveByKey (tasks : Table Row) (type : Name) (key : Option String) : Option TaskId :=
  key.bind fun k => (tasks.find (Row.keyed type k)).map Prod.fst

/-- The tasks that a statement of the caller sees. -/
def seen (s : Feed.Sys) : Option TxnId → Option (Table Row)
  | none => some s.tasks
  | some p => (s.txns.get p).map fun x => s.tasks.overlay x.rows

/-- `tasks_active_key_uidx`: another active task has the key of this row. -/
def duplicated (tasks : Table Row) (id : TaskId) (t : Row) : Bool :=
  t.state.active && t.key.any fun k => tasks.entries.any fun e => e.1 ≠ id && e.2.keyed t.type k

/-- `_REQUEUE` up to the check of the index: the new version of the row, none where it is not there or
neither failed nor cancelled. -/
def requeueIn (s : Feed.Sys) (p : TxnId) (x : Txn) (id : TaskId) : Option (Option Row × Feed.Sys) :=
  match x.snapshots, (s.rowOf x id).bind fun t => t.requeue x.now with
  | snapshot :: _, some t =>
      if s.free p (.task id) .update then
        some (some t, s.move p
          { txn := x.write snapshot id (s.rowOf x id) t true
            locks := [(.task id, .update)] })
      else none
  | _, _ => some (none, s)

/-- `requeue` where it raises: the index rejects the new version, or there is none and the row is read
once more for the text of the error. -/
def refuse (s : Feed.Sys) (p : TxnId) (id : TaskId) : Option (Db.RequeueError × Feed.Sys) :=
  (s.step (.within p .statement)).bind fun s =>
    (s.txns.get p).bind fun x =>
      (requeueIn s p x id).bind fun (updated, s') =>
        match updated with
        | some t =>
            (seen s' (some p)).bind fun tasks =>
              if duplicated tasks id t then some (.activeDuplicate, s') else none
        | none =>
            match s.rowOf x id with
            | none => some (.notFound, s)
            | some t => some (.notRequeueable t.state, s)

/-! ## Steps -/

inductive Action
  /-- Any step of a transaction, a registration or a consumer. -/
  | sys (action : Feed.Action)
  | enqueue (task : NewTask) (caller : Option TxnId)
  | insert (k : CallId) (now : Time)
  | reply (k : CallId)
  | find (k : CallId) (late : Bool)
  | requeue (caller : Option TxnId) (id : TaskId) (now : Time)

/-- The call that takes the step. -/
def Action.call : Action → Option CallId
  | insert k _ | reply k | find k _ => some k
  | _ => none

namespace Sys

def init (catalog : Catalog) : Sys := ⟨.init catalog, .empty⟩

variable (s : Sys)

def enter (k : CallId) (phase : Phase) : Table Call :=
  s.calls.modify k fun c => { c with phase := phase }

/-- A transaction in which a statement can run under read committed. -/
def isOpen (p : TxnId) : Bool := (s.feed.txns.get p).any fun x => !x.repeatable

/-- The phase after `_ENQUEUE`. -/
def afterInsert (p : TxnId) : Option TaskId → Phase
  | some id => .publishing p id
  | none => .finding

/-- `_ENQUEUE` of a call. In autocommit a conflict ends its transaction at once. -/
def insert (k : CallId) (now : Time) : Option Sys :=
  match s.calls.get k with
  | some ⟨task, some p, .inserting⟩ =>
      if s.isOpen p then
        (insertIn s.feed p task).map fun (id, feed) => ⟨feed, s.enter k (afterInsert p id)⟩
      else none
  | some ⟨task, none, .inserting⟩ =>
      let p := s.feed.txns.next
      (s.feed.step (.begin now false)).bind fun feed =>
        (insertIn feed p task).bind fun (id, feed) =>
          match id with
          | some id => some ⟨feed, s.enter k (.publishing p id)⟩
          | none => (feed.step (.commit p)).map fun feed => ⟨feed, s.enter k .finding⟩
  | _ => none

/-- `_ENQUEUE` has inserted its events and returns, in autocommit with the commit. -/
def reply (k : CallId) : Option Sys :=
  match s.calls.get k with
  | some ⟨_, some _, .publishing p id⟩ =>
      (s.feed.txns.get p).bind fun x =>
        if x.notices.isEmpty then some ⟨s.feed, s.enter k (.returned id true)⟩ else none
  | some ⟨_, none, .publishing p id⟩ =>
      (s.feed.step (.commit p)).map fun feed => ⟨feed, s.enter k (.returned id true)⟩
  | _ => none

/-- `_FIND_ACTIVE_BY_KEY` of a call. It inserts again where the row has ended meanwhile, unless it is
late. -/
def find (k : CallId) (late : Bool) : Option Sys :=
  match s.calls.get k with
  | some ⟨task, caller, .finding⟩ =>
      (seen s.feed caller).map fun tasks =>
        match findActiveByKey tasks task.type task.key with
        | some id => ⟨s.feed, s.enter k (.returned id false)⟩
        | none => ⟨s.feed, s.enter k (if late then .failed else .inserting)⟩
  | _ => none

/-- `requeue` where it raises, in the caller's transaction or in autocommit. A violation of the index
aborts the transaction. -/
def requeue (caller : Option TxnId) (id : TaskId) (now : Time) : Option (Db.RequeueError × Sys) :=
  match caller with
  | some p =>
      if s.isOpen p then
        (refuse s.feed p id).map fun (e, feed) =>
          (e, ⟨if e = .activeDuplicate then feed.finish p else feed, s.calls⟩)
      else none
  | none =>
      let p := s.feed.txns.next
      (s.feed.step (.begin now false)).bind fun feed =>
        (refuse feed p id).map fun (e, feed) => (e, ⟨feed.finish p, s.calls⟩)

def step : Action → Option Sys
  | .sys action => (s.feed.step action).map fun feed => ⟨feed, s.calls⟩
  | .enqueue task caller =>
      if task.check.isOk then some ⟨s.feed, s.calls.insert ⟨task, caller, .inserting⟩⟩ else none
  | .insert k now => s.insert k now
  | .reply k => s.reply k
  | .find k late => s.find k late
  | .requeue caller id now => (s.requeue caller id now).map Prod.snd

end Sys

end Fronta.Dedupe
