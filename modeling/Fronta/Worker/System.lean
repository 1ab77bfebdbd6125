import Fronta.Library.Runs
import Fronta.Store.Statements

/-!
# The attempts of one worker

The claim loop, the attempt controllers and the map `worker.attempts` of one worker, over the tables
that every other party changes at will. A controller may end at any time; its done-callback runs
later. `Attempt` objects have an identity of their own, the map knows them by the id of their row.
-/

namespace Fronta.Worker

open Sql

abbrev Ref := ℕ

/-- Why an attempt was asked to end. -/
inductive Cause
  | timeout
  | cancel
  | shutdown
  | lost
  deriving DecidableEq

/-- Where the controller task is: running, ended with its callback still to run, or done. -/
inductive Phase
  | running
  | ended
  | done
  deriving DecidableEq

structure Attempt where
  row : TaskId
  token : Token
  cause : Option Cause
  phase : Phase
  deriving DecidableEq

namespace Attempt

/-- `stop`: the first cause wins. -/
def stop (cause : Cause) (a : Attempt) : Attempt := { a with cause := some (a.cause.getD cause) }

/-- `_renew_attempts`: what the reply about its row tells an attempt. -/
def renewed (a : Attempt) (row : Option Row) : Option Attempt :=
  match row.filter fun t => t.state = .running && t.token = some a.token with
  | none => some (a.stop .lost)
  | some t => if t.cancelRequestedAt = none then none else some (a.stop .cancel)

end Attempt

/-- The claim that the loop waits for. -/
inductive Call
  | issued (count : ℕ)
  | executed (rows : List (TaskId × Token))
  deriving DecidableEq

structure Sys where
  db : Db
  concurrency : ℕ
  stopping : Bool
  /-- The `Attempt` objects. -/
  objects : Table Attempt
  /-- `worker.attempts` -/
  attempts : AList fun _ : TaskId => Ref
  call : Option Call

namespace Sys

def init (concurrency : ℕ) (db : Db) : Sys := ⟨db, concurrency, false, .empty, ∅, none⟩

inductive Action
  | statement (op : Op)
  | requestShutdown
  | claim
  | execute (now : Time) (clock : TaskId → Time) (leaseS : ℚ) (worker : Name)
      (tokens : TaskId → Token) (ids : List TaskId)
  | claimFailed
  | dispatch
  | expire (x : Ref)
  | renew (clock : TaskId → Time) (leaseS : ℚ) (due : List Ref)
  | stop (x : Ref) (cause : Cause)
  | finish (x : Ref)
  | attemptDone (x : Ref)

/-- `_start_attempt` -/
def startAttempt (s : Sys) (row : TaskId × Token) : Sys :=
  { s with
    objects := s.objects.insert ⟨row.1, row.2, none, .running⟩
    attempts := s.attempts.insert row.1 s.objects.next }

/-- Change one `Attempt` object. -/
def modify (s : Sys) (x : Ref) (f : Attempt → Attempt) : Sys :=
  { s with objects := s.objects.modify x f }

/-- `_attempt_done`: pops by the row's id. -/
def attemptDone (s : Sys) (x : Ref) (a : Attempt) : Sys :=
  { s.modify x fun a => { a with phase := .done } with attempts := s.attempts.erase a.row }

/-- The row ids and tokens that a renewal sends. -/
def renewals (s : Sys) (due : List Ref) : List (TaskId × Token) :=
  due.filterMap fun x => (s.objects.get x).map fun a => (a.row, a.token)

def step (s : Sys) : Action → Option Sys
  | .statement op => some { s with db := s.db.exec op }
  | .requestShutdown => some { s with stopping := true }
  | .claim =>
      let free := s.concurrency - s.attempts.entries.length
      if s.call = none ∧ s.stopping = false ∧ 0 < free then some { s with call := some (.issued free) }
      else none
  | .execute now clock leaseS worker tokens ids =>
      match s.call with
      | some (.issued count) =>
          if ids.length ≤ min count 256 then
            let (applied, db) := s.db.claim now clock leaseS worker tokens ids
            some { s with
              db := db
              call := some (.executed (applied.map fun a => (a.id, tokens a.id))) }
          else none
      | _ => none
  -- The connection failed before or after the commit: nothing is dispatched, and nothing commits any more.
  | .claimFailed => if s.call = none then none else some { s with call := none }
  | .dispatch =>
      match s.call with
      | some (.executed rows) =>
          if s.stopping then some { s with call := none }
          else some { rows.foldl startAttempt s with call := none }
      | _ => none
  -- No renewal was confirmed within the lease.
  | .expire x => some (s.modify x (Attempt.stop .lost))
  | .renew clock leaseS due =>
      if ((s.renewals due).map Prod.fst).Nodup then
        some { s with
          db := s.db.heartbeat clock leaseS (s.renewals due)
          objects := s.objects.update fun x a =>
            if x ∈ due then a.renewed (s.db.tasks.get a.row) else none }
      else none
  | .stop x cause => some (s.modify x (Attempt.stop cause))
  | .finish x =>
      (s.objects.get x).bind fun a =>
        if a.phase = .running then some (s.modify x fun a => { a with phase := .ended }) else none
  | .attemptDone x =>
      (s.objects.get x).bind fun a =>
        if a.phase = .ended then some (s.attemptDone x a) else none

/-- The controllers whose task has not finished. -/
def unfinished (s : Sys) : List (Ref × Attempt) :=
  s.objects.entries.filter fun x => x.2.phase = .running

/-- Every unfinished attempt is the one that the map stores under its row. -/
def Tracked (s : Sys) : Prop :=
  ∀ x ∈ s.unfinished, s.attempts.lookup x.2.row = some x.1

instance (s : Sys) : Decidable s.Tracked :=
  inferInstanceAs (Decidable (∀ x ∈ s.unfinished, _))

/-- The rows that a claim returned and that are not dispatched yet. -/
def claimed (s : Sys) : List (TaskId × Token) :=
  match s.call with
  | some (.executed rows) => rows
  | _ => []

/-- No dispatched row is one that the map still holds an attempt of. -/
def Apart (s : Sys) : Action → Prop
  | .dispatch => s.stopping = false → ∀ row ∈ s.claimed, row.1 ∉ s.attempts
  | _ => True

instance (s : Sys) (action : Action) : Decidable (s.Apart action) :=
  match action with
  | .dispatch => inferInstanceAs (Decidable (_ → ∀ row ∈ s.claimed, _))
  | .statement _ | .requestShutdown | .claim | .execute .. | .claimFailed | .expire _ | .renew ..
  | .stop .. | .finish _ | .attemptDone _ => isTrue trivial

end Sys

end Fronta.Worker
