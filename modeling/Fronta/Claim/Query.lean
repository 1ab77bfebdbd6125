import Mathlib.Algebra.GroupWithZero.Nat
import Mathlib.Data.List.Dedup
import Mathlib.Data.Prod.Lex
import Fronta.Library.Locks
import Fronta.Store.Statements

/-!
# The candidate query

`claim_candidate.sql` over one snapshot: the bounded global head if every row of it is eligible, else
bounded heads of the eligible types. `size` is `pg_column_size`; `busy` and `typeBusy` tell which
locks other transactions make the query skip.
-/

namespace Fronta.Claim

open Sql

/-- The columns of a queued row that the queue order and the admission read. -/
structure Candidate where
  id : TaskId
  type : Name
  concurrencyKey : Option String
  bytes : ℕ
  priority : ℤ
  runAt : Time
  deriving DecidableEq

/-- `ORDER BY priority DESC, run_at, id` -/
def Candidate.order (c : Candidate) : ℤ ×ₗ ℚ ×ₗ ℕ := toLex (-c.priority, toLex (c.runAt, c.id))

/-- What a statement of the function reads: its snapshot, `now()` and what is locked. -/
structure View where
  size : Jsonb → ℕ
  tasks : Table Row
  catalog : Catalog
  now : Time
  busy : TaskId → Bool
  typeBusy : Name → Mode → Bool

/-- The arrays that the function passes to the query. -/
structure Skips where
  ids : List TaskId
  types : List Name
  keys : List (Name × String)

/-- `SELECT count(*) … WHERE r.type = … AND r.state = 'running'` -/
def running (tasks : Table Row) (type : Name) : ℕ :=
  tasks.count fun t => t.type = type && t.state = .running

/-- The running rows of a type and concurrency key. -/
def runningKey (tasks : Table Row) (type : Name) (key : String) : ℕ :=
  tasks.count fun t => t.type = type && t.concurrencyKey = some key && t.state = .running

namespace View

variable (w : View) (types : List Name) (skips : Skips)

/-- A row of `fronta.tasks` as a candidate. -/
def candidate (id : TaskId) (t : Row) : Candidate :=
  ⟨id, t.type, t.concurrencyKey, w.size t.input, t.priority, t.runAt⟩

/-- `t.state = 'queued' AND t.run_at <= now()` -/
def due (t : Row) : Bool := t.state = .queued && t.runAt ≤ w.now

/-- `eligible_types`: whether an eligible type is limited. -/
def eligible (name : Name) : Option Bool :=
  (w.catalog name).bind fun ty =>
    if types.contains name ∧ ty.paused = false ∧ ¬ skips.types.contains name ∧
        ty.maxConcurrency.all (fun n => running w.tasks name < n) then
      some ty.limited
    else none

/-- `eligible_types` -/
def eligibleTypes : List (Name × Bool) :=
  types.dedup.filterMap fun name => (w.eligible types skips name).map fun limited => (name, limited)

/-- `saturated_keys`: a group of running rows that reaches its limit, or a key to skip. -/
def saturated (type : Name) (key : String) : Bool :=
  skips.keys.contains (type, key) ||
    (types.contains type && 0 < runningKey w.tasks type key &&
      (w.catalog type).any fun ty =>
        ty.maxConcurrencyPerKey.any fun n => n ≤ runningKey w.tasks type key)

/-- `concurrency_key IS NULL OR (type, concurrency_key) NOT IN saturated_keys` -/
def unsaturated (c : Candidate) : Bool :=
  c.concurrencyKey.all fun key => !w.saturated types skips c.type key

/-- The due rows that nobody locks and that were not seen before. -/
def queue : List Candidate :=
  w.tasks.entries.filterMap fun x =>
    if w.due x.2 ∧ ¬ skips.ids.contains x.1 ∧ ¬ w.busy x.1 then some (w.candidate x.1 x.2) else none

/-- `head` -/
def head (count : ℕ) : List Candidate := orderLimit Candidate.order count (w.queue skips)

/-- `ready_head`, with the type's `limited`. -/
def readyHead (count : ℕ) : List (Candidate × Bool) :=
  (w.head skips count).filterMap fun c =>
    (w.eligible types skips c.type).bind fun limited =>
      if w.unsaturated types skips c then some (c, limited) else none

/-- The bounded head of one type. -/
def seek (count : ℕ) (name : Name) : List Candidate :=
  orderLimit Candidate.order count
    ((w.queue skips).filter fun c => c.type = name && w.unsaturated types skips c)

/-- The heads of the eligible types, in queue order. -/
def seeks (count : ℕ) : List (Candidate × Bool) :=
  orderLimit (fun x => x.1.order) count
    ((w.eligibleTypes types skips).flatMap fun ty =>
      (w.seek types skips count ty.1).map fun c => (c, ty.2))

/-- The query: both branches of its `UNION ALL`, in queue order. -/
def chosen (count : ℕ) : List (Candidate × Bool) :=
  orderLimit (fun x => x.1.order) count
    ((if (w.readyHead types skips count).length = (w.head skips count).length then
        w.readyHead types skips count else []) ++
      if (w.readyHead types skips count).length < (w.head skips count).length then
        w.seeks types skips count else [])

/-- `locked`: the row is still free, queued, due and of the same type. -/
def locked (c : Candidate) : Bool :=
  !w.busy c.id && (w.tasks.get c.id).any fun t => w.due t && t.type = c.type

/-- `SELECT max_concurrency, max_concurrency_per_key, paused … FOR SHARE/UPDATE SKIP LOCKED` -/
def lockRow (type : Name) (m : Mode) : Option TaskType :=
  if w.typeBusy type m then none else w.catalog type

end View

end Fronta.Claim
