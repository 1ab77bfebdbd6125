import Fronta.Library.Runs
import Fronta.Claim.Function

/-!
# Claims at work at the same time

Every statement of the claim function is a step of its own on the tables as they are committed then.
What a claim locks of the type rows it keeps until it ends; publications and pauses wait for the row.
The locks on task rows only keep other transactions out, so the steps leave them open: `busy` is
whatever the query skips, and the statements of others may move any row. Those statements commit one
by one.
-/

namespace Fronta.Claim

open Sql

abbrev TxnId := ℕ

/-- One row of a round, as the inner loop reads it. -/
structure Pick where
  candidate : Candidate
  limited : Bool
  locked : Bool
  deriving DecidableEq

/-- Which statement of the function comes next. -/
inductive Pc
  | scan
  | loop (seen : Bool) (rest : List Pick)
  | share (c : Candidate) (rest : List Pick)
  | exclusive (c : Candidate) (rest : List Pick)
  | recount (c : Candidate) (ty : TaskType) (rest : List Pick)
  | check (c : Candidate) (rest : List Pick)
  | apply
  deriving DecidableEq

/-- A claim call. -/
structure Call where
  request : Request
  now : Time
  vars : Vars
  pc : Pc

/-- A change of a row of `fronta.task_types`. -/
inductive Change
  | publish (maxConcurrency maxConcurrencyPerKey : Option ℕ)
  | setPaused (paused : Bool)

/-- `_PUBLISH` keeps `paused`, `set_paused` changes only it and only on a published type. -/
def Change.apply : Change → Option TaskType → Option TaskType
  | .publish limit keyLimit, ty => some ⟨limit, keyLimit, (ty.map TaskType.paused).getD false⟩
  | .setPaused paused, ty => ty.map fun ty => { ty with paused := paused }

/-- An open transaction: a claim, or one that publishes and pauses types. -/
inductive Txn
  | claim (call : Call)
  | writer (staged : List (Name × Option TaskType))

structure Sys where
  db : Db
  catalog : Catalog
  locks : Locks Name TxnId
  txns : Table Txn

namespace Sys

/-- Any tables, no transaction. -/
def init (db : Db) (catalog : Catalog) : Sys := ⟨db, catalog, [], .empty⟩

inductive Action
  | statement (op : Op)
  | call (request : Request) (now : Time)
  | advance (p : TxnId) (size : Jsonb → ℕ) (busy : TaskId → Bool) (clock : ℕ → Time)
  | commitClaim (p : TxnId) (clock : TaskId → Time) (tokens : TaskId → Token)
  | write
  | stage (p : TxnId) (name : Name) (change : Change)
  | commitWrite (p : TxnId)
  | rollback (p : TxnId)

/-- The statements other than a claim. -/
def others : Op → Bool
  | .claim .. => false
  | _ => true

/-- What a statement of a claim reads now. -/
def view (s : Sys) (now : Time) (size : Jsonb → ℕ) (busy : TaskId → Bool) (p : TxnId) : View :=
  ⟨size, s.db.tasks, s.catalog, now, busy, fun name m => !s.locks.grantable name p m⟩

/-- Where a row of the round leads: past it, to its checks or to the lock on its type. -/
def visited (v : Vars) (k : Pick) (rest : List Pick) : Pc :=
  if ¬ k.locked ∨ k.candidate.type ∈ v.skipTypes then .loop true rest
  else if (v.entry k.candidate.type).isSome then .check k.candidate rest
  else if k.limited then .exclusive k.candidate rest
  else .share k.candidate rest

/-- The row of a type after its lock: skip it where the lock is not free or the type is paused, upgrade
a share lock where there is a limit. -/
def lock (w : View) (locks : Locks Name TxnId) (p : TxnId) (x : Call) (c : Candidate)
    (rest : List Pick) (m : Mode) : Call × Locks Name TxnId :=
  match w.lockRow c.type m with
  | none => ({ x with vars := x.vars.skipType c.type, pc := .loop true rest }, locks)
  | some ty =>
      (if m = .share ∧ ty.limited then { x with pc := .exclusive c rest }
        else if ty.paused then { x with vars := x.vars.skipType c.type, pc := .loop true rest }
        else { x with pc := .recount c ty rest },
      locks.acquire c.type p m)

/-- The next statement of a claim, with the local steps that follow it. -/
def advance (w : View) (clock : ℕ → Time) (locks : Locks Name TxnId) (p : TxnId) (x : Call) :
    Option (Call × Locks Name TxnId) :=
  match x.pc with
  | .scan =>
      let picks := (w.chosen x.request.types x.vars.skips (x.request.cap - x.vars.ids.length)).map
        fun c => ⟨c.1, c.2, w.locked c.1⟩
      some ({ x with pc := .loop false picks }, locks)
  | .loop seen [] =>
      some (if ¬ seen ∨ late x.request clock x.vars then { x with pc := .apply }
        else { x with vars := x.vars.read, pc := .scan }, locks)
  | .loop _ (k :: rest) =>
      let vars := x.vars.see k.candidate.id
      some ({ x with vars := vars, pc := visited vars k rest }, locks)
  | .share c rest => some (lock w locks p x c rest .share)
  | .exclusive c rest => some (lock w locks p x c rest .update)
  | .recount c ty rest =>
      some ({ x with
        vars := x.vars.enter c.type ty (running w.tasks c.type)
        pc := .check c rest }, locks)
  | .check c rest =>
      (x.vars.entry c.type).map fun e =>
        match checkRow x.request w clock x.vars c e with
        | (vars, .exit) => ({ x with vars := vars, pc := .apply }, locks)
        | (vars, .continue) => ({ x with vars := vars, pc := .loop true rest }, locks)
  | .apply => none

/-- The end of a transaction. -/
def finish (s : Sys) (p : TxnId) : Sys :=
  { s with locks := s.locks.release p, txns := s.txns.erase fun i _ => i = p }

/-- The type rows with the staged ones over them. -/
def applyStaged (catalog : Catalog) (staged : List (Name × Option TaskType)) : Catalog :=
  fun name => (staged.lookup name).getD (catalog name)

def step (s : Sys) : Action → Option Sys
  | .statement op => if others op then some { s with db := s.db.exec op } else none
  | .call request now =>
      if request.count < 1 then none
      else some { s with txns := s.txns.insert (.claim ⟨request, now, .init, .scan⟩) }
  | .advance p size busy clock =>
      match s.txns.get p with
      | some (.claim x) =>
          (advance (s.view x.now size busy p) clock s.locks p x).map fun r =>
            { s with
              locks := r.2
              txns := s.txns.modify p fun _ => .claim r.1 }
      | _ => none
  | .commitClaim p clock tokens =>
      match s.txns.get p with
      | some (.claim x) =>
          if x.pc = .apply then
            some { s.finish p with
              db := (s.db.claim x.now clock x.request.leaseS x.request.worker tokens x.vars.ids).2 }
          else none
      | _ => none
  | .write => some { s with txns := s.txns.insert (.writer []) }
  -- An UPDATE of the type's row waits until nobody holds a conflicting lock.
  | .stage p name change =>
      match s.txns.get p with
      | some (.writer staged) =>
          if s.locks.grantable name p .noKeyUpdate then
            let ty := change.apply ((staged.lookup name).getD (s.catalog name))
            some { s with
              locks := s.locks.acquire name p .noKeyUpdate
              txns := s.txns.modify p fun _ => .writer ((name, ty) :: staged) }
          else none
      | _ => none
  | .commitWrite p =>
      match s.txns.get p with
      | some (.writer staged) => some { s.finish p with catalog := applyStaged s.catalog staged }
      | _ => none
  | .rollback p => (s.txns.get p).map fun _ => s.finish p

end Sys

end Fronta.Claim
