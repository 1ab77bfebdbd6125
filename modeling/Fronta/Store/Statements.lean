import Fronta.Library.Order
import Fronta.Store.Checks
import Fronta.Store.Transitions

/-!
# Managed statements

The statements of `store.py` over the committed tables. A managed transition updates the rows that
match and inserts, in the same statement, one event for each of them and each subscription that
selects it.
-/

namespace Fronta

open Sql

/-- The tables that the statements read and write. -/
structure Db where
  tasks : Table Row
  subscriptions : Table Registration
  events : Table Event

namespace Db

variable (db : Db)

/-- The tables right after `fronta db init`. -/
def init : Db := ⟨.empty, .empty, .empty⟩

/-! ## Publication -/

/-- `_PUBLISHED`: the events of one applied row, one for each subscription that selects it. -/
def notices (now : Time) (a : Applied) : List Event :=
  (db.subscriptions.entries.filter fun s => s.2.selects a.type a.state).map fun s =>
    a.event s.2.name now

/-- `_PUBLISHED`: the events of all applied rows. -/
def eventsOf (now : Time) (applied : List Applied) : List Event := applied.flatMap (db.notices now)

/-- `_PUBLISHED`: insert the events of the applied rows. -/
def publish (now : Time) (applied : List Applied) : Db :=
  { db with events := (db.eventsOf now applied).foldl Table.insert db.events }

/-- The rows that an update by `f` returns. -/
def applied (f : TaskId → Row → Option Row) : List Applied :=
  (db.tasks.returning f).map fun x => x.2.applied x.1

/-- `_with_events`: update by `f` and publish the returned rows for which `p` holds. -/
def withEvents (now : Time) (f : TaskId → Row → Option Row) (p : Applied → Bool) :
    List Applied × Db :=
  (db.applied f,
    { db.publish now ((db.applied f).filter p) with tasks := db.tasks.update f })

/-! ## Enqueue -/

/-- `_FIND_ACTIVE_BY_KEY` -/
def findActiveByKey (type : Name) (key : Option String) : Option TaskId :=
  key.bind fun k => (db.tasks.find (Row.keyed type k)).map Prod.fst

/-- `enqueue`: insert a queued task, or return the active task with the same type and key. -/
def enqueue (now : Time) (task : NewTask) : Except String (TaskId × Db) := do
  task.check
  match db.findActiveByKey task.type task.key with
  | some id => return (id, db)
  | none =>
      let row := Row.enqueued now task
      return (db.tasks.next,
        { db.publish now [row.applied db.tasks.next] with tasks := db.tasks.insert row })

/-! ## Claim and the writes of a running attempt -/

/-- The last statement of the claim function: start the admitted rows. -/
def claim (now : Time) (clock : TaskId → Time) (leaseS : ℚ) (worker : Name)
    (tokens : TaskId → Token) (ids : List TaskId) : List Applied × Db :=
  db.withEvents now
    (fun id t => if id ∈ ids then t.claim now (clock id) leaseS worker (tokens id) else none)
    fun _ => true

/-- `heartbeat` -/
def heartbeat (clock : TaskId → Time) (leaseS : ℚ) (renewals : List (TaskId × Token)) : Db :=
  { db with
    tasks := db.tasks.update fun id t =>
      (renewals.find? fun r => r.1 = id && t.token = some r.2).bind fun r =>
        t.heartbeat (clock id) leaseS r.2 }

/-- `set_progress` -/
def setProgress (id : TaskId) (token : Token) (progress : Jsonb) : Db :=
  { db with
    tasks := db.tasks.update fun i t => if i = id then t.setProgress token progress else none }

/-- `complete.sql`: the outcome that joins a row, if any. -/
def outcomeOf (outcomes : List Completion) (id : TaskId) (t : Row) : Option Completion :=
  outcomes.find? fun c => c.id = id && t.token = some c.token

/-- `_completion_statement`: every row with an outcome under its own token. -/
def applyOutcomes (now : Time) (jitter : TaskId → ℚ) (outcomes : List Completion) :
    List Applied × Db :=
  db.withEvents now
    (fun id t => (outcomeOf outcomes id t).bind fun c => t.complete now (jitter id) c)
    fun _ => true

/-- `complete` -/
def complete (now : Time) (jitter : TaskId → ℚ) (completions : List Completion) :
    Except String (List Applied × Db) :=
  if completions = [] then .ok ([], db)
  else if 256 < completions.length ∨ ¬ (completions.map Completion.id).Nodup then
    .error "completion batches require at most 256 distinct task ids"
  else .ok (db.applyOutcomes now jitter completions)

/-- `_ORPHANS`: the running rows of a worker that it does not list as live. -/
def orphans (worker : Name) (live : List TaskId) : List Completion :=
  ((db.tasks.entries.filter fun x =>
      x.2.worker = some worker && x.2.state = .running && !live.contains x.1).take 256).filterMap
    fun x => x.2.token.map fun token => ⟨x.1, token, .release, none, by simp⟩

/-- `release_orphans` -/
def releaseOrphans (now : Time) (jitter : TaskId → ℚ) (worker : Name) (live : List TaskId) :
    List Applied × Db :=
  db.applyOutcomes now jitter (db.orphans worker live)

/-! ## Control plane -/

/-- `request_cancel`: publishes only where the row became cancelled at once. -/
def requestCancel (now : Time) (id : TaskId) : List Applied × Db :=
  db.withEvents now (fun i t => if i = id then t.requestCancel now else none)
    fun a => a.state = .cancelled

/-- The rows of a `… ORDER BY … LIMIT n FOR UPDATE SKIP LOCKED` selection. -/
def selectFree (busy : TaskId → Bool) (p : Row → Bool) (at' : Row → Option Time) (limit : ℕ) :
    List TaskId :=
  (orderLimit (fun x : TaskId × Row => (at' x.2).getD 0) limit
    (db.tasks.entries.filter fun x => p x.2 && !busy x.1)).map Prod.fst

/-- `reap`: `busy` are the rows that other transactions lock. -/
def reap (now : Time) (jitter : TaskId → ℚ) (limit : ℕ) (busy : TaskId → Bool) :
    List Applied × Db :=
  let expired := db.selectFree busy (Row.reapable now) Row.leaseUntil limit
  db.withEvents now (fun id t => if id ∈ expired then t.reap now (jitter id) else none)
    fun _ => true

inductive RequeueError
  | activeDuplicate
  | notFound
  | notRequeueable (state : State)
  deriving DecidableEq, Repr

def RequeueError.message (id : TaskId) : RequeueError → String
  | .activeDuplicate => "task " ++ toString id ++ " has an active duplicate"
  | .notFound => "no task " ++ toString id
  | .notRequeueable state =>
      "task " ++ toString id ++ " is " ++ state.value
        ++ "; only failed or cancelled tasks can be requeued"

/-- `requeue`: the unique index on active keys rejects a row whose key was taken meanwhile. -/
def requeue (now : Time) (id : TaskId) : Except RequeueError (List Applied × Db) :=
  match db.tasks.get id with
  | none => .error .notFound
  | some t =>
      if t.requeue now = none then .error (.notRequeueable t.state)
      else if (db.findActiveByKey t.type t.key).isSome then .error .activeDuplicate
      else .ok (db.withEvents now (fun i t => if i = id then t.requeue now else none) fun _ => true)

/-- `purge_tasks` -/
def purgeTasks (now retentionS : ℚ) (batch : ℕ) (busy : TaskId → Bool) : Db :=
  let purged := db.selectFree busy (Row.purgeable now retentionS) Row.finishedAt batch
  { db with tasks := db.tasks.erase fun id _ => id ∈ purged }

end Db

/-! ## Runs of statements -/

/-- One statement with everything it reads besides the tables: clocks, random draws and fresh tokens. -/
inductive Op
  | enqueue (now : Time) (task : NewTask)
  | claim (now : Time) (clock : TaskId → Time) (leaseS : ℚ) (worker : Name)
      (tokens : TaskId → Token) (ids : List TaskId)
  | heartbeat (clock : TaskId → Time) (leaseS : ℚ) (renewals : List (TaskId × Token))
  | setProgress (id : TaskId) (token : Token) (progress : Jsonb)
  | complete (now : Time) (jitter : TaskId → ℚ) (completions : List Completion)
  | releaseOrphans (now : Time) (jitter : TaskId → ℚ) (worker : Name) (live : List TaskId)
  | requestCancel (now : Time) (id : TaskId)
  | reap (now : Time) (jitter : TaskId → ℚ) (limit : ℕ) (busy : TaskId → Bool)
  | requeue (now : Time) (id : TaskId)
  | purgeTasks (now retentionS : ℚ) (batch : ℕ) (busy : TaskId → Bool)

/-- A rejected request leaves the tables as they were. -/
def Db.exec (db : Db) : Op → Db
  | .enqueue now task => ((db.enqueue now task).map Prod.snd).toOption.getD db
  | .claim now clock leaseS worker tokens ids => (db.claim now clock leaseS worker tokens ids).2
  | .heartbeat clock leaseS renewals => db.heartbeat clock leaseS renewals
  | .setProgress id token progress => db.setProgress id token progress
  | .complete now jitter completions =>
      ((db.complete now jitter completions).map Prod.snd).toOption.getD db
  | .releaseOrphans now jitter worker live => (db.releaseOrphans now jitter worker live).2
  | .requestCancel now id => (db.requestCancel now id).2
  | .reap now jitter limit busy => (db.reap now jitter limit busy).2
  | .requeue now id => ((db.requeue now id).map Prod.snd).toOption.getD db
  | .purgeTasks now retentionS batch busy => db.purgeTasks now retentionS batch busy

/-- The tables after a sequence of statements. -/
def Db.execAll (db : Db) (ops : List Op) : Db := ops.foldl Db.exec db

end Fronta
