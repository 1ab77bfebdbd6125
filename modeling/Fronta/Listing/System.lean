import Fronta.Library.Runs
import Fronta.Store.Statements

/-!
# Pages of tasks

`Service.list_tasks` and a client that follows `next` from the first page. Between two of its requests other
transactions leave the tables as they like: rows come, also below the newest id, change and go.
-/

namespace Fronta

open Sql

/-- A list row. -/
structure TaskSummary where
  id : TaskId
  type : Name
  state : State
  priority : ℤ
  key : Option String
  concurrencyKey : Option String
  attempt : ℕ
  failures : ℕ
  maxAttempts : ℕ
  worker : Option Name
  cancelRequestedAt : Option Time
  createdAt : Time
  runAt : Time
  startedAt : Option Time
  finishedAt : Option Time
  deriving DecidableEq

/-- `_SUMMARY_COLUMNS` -/
def Row.summary (id : TaskId) (t : Row) : TaskSummary where
  id := id
  type := t.type
  state := t.state
  priority := t.priority
  key := t.key
  concurrencyKey := t.concurrencyKey
  attempt := t.attempt
  failures := t.failures
  maxAttempts := t.maxAttempts
  worker := t.worker
  cancelRequestedAt := t.cancelRequestedAt
  createdAt := t.createdAt
  runAt := t.runAt
  startedAt := t.startedAt
  finishedAt := t.finishedAt

structure TaskFilter where
  type : Option Name := none
  state : Option State := none
  key : Option String := none
  before : Option ℤ := none
  limit : ℤ := 50

namespace TaskFilter

/-- The conditions on type, state and key. -/
def selects (flt : TaskFilter) (t : Row) : Bool :=
  flt.type.all (t.type = ·) && flt.state.all (t.state = ·) && flt.key.all (t.key = some ·)

end TaskFilter

/-- `store.list_tasks` -/
def Db.listTasks (db : Db) (flt : TaskFilter) : List TaskSummary :=
  (orderLimit (fun x : TaskId × Row => -(x.1 : ℤ)) flt.limit.toNat
    (db.tasks.entries.filter fun x => flt.selects x.2 && flt.before.all ((x.1 : ℤ) < ·))).map fun x =>
      x.2.summary x.1

namespace Listing

structure Settings where
  listPageMax : ℤ
  listPageMax_ge : 1 ≤ listPageMax

structure Page where
  items : List TaskSummary
  next : Option TaskId

/-- `Service.list_tasks` -/
def listTasks (settings : Settings) (db : Db) (flt : TaskFilter) : Page :=
  let limit := min (max flt.limit 1) settings.listPageMax
  let items := db.listTasks { flt with limit := limit }
  { items := items
    next := if (items.length : ℤ) = limit then items.getLast?.map TaskSummary.id else none }

/-- Where the walk is: before a page, or behind one without a next. -/
inductive Place
  | reading (before : Option ℤ)
  | ended
  deriving DecidableEq

structure Sys where
  db : Db
  place : Place
  /-- The items of all pages. -/
  listed : List TaskSummary

inductive Action
  /-- Other transactions leave these tables. -/
  | commit (db : Db)
  | page (limit : ℤ)

def Action.isPage : Action → Bool
  | page _ => true
  | commit _ => false

def init (db : Db) : Sys := ⟨db, .reading none, []⟩

/-- The walk under the filter's type, state and key. -/
def step (settings : Settings) (flt : TaskFilter) (s : Sys) : Action → Option Sys
  | .commit db => some { s with db := db }
  | .page limit =>
      match s.place with
      | .reading before =>
          let page := listTasks settings s.db { flt with before := before, limit := limit }
          some { s with
            place := page.next.elim .ended fun id => .reading (some id)
            listed := s.listed ++ page.items }
      | .ended => none

/-- The task is there and satisfies the filters. -/
def Sys.Lists (s : Sys) (flt : TaskFilter) (i : TaskId) : Prop := (s.db.tasks.get i).any flt.selects = true

instance (s : Sys) (flt : TaskFilter) (i : TaskId) : Decidable (s.Lists flt i) :=
  inferInstanceAs (Decidable (_ = true))

end Listing

end Fronta
