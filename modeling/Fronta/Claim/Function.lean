import Fronta.Claim.Query

/-!
# The claim function

`claim.sql`: rounds of the candidate query, an admission loop over each round's rows, and the update
of the admitted rows. The parallel arrays of the function are lists of records. `clock` gives the
readings of `clock_timestamp()`, in the order in which the function takes them.
-/

namespace Fronta.Claim

open Sql

/-- The arguments of the function. -/
structure Request where
  types : List Name
  worker : Name
  leaseS : ℚ
  deadlineS : ℚ
  count : ℤ

/-- One index of `v_types`, `v_limits`, `v_key_limits` and `v_counts`. -/
structure Entry where
  type : Name
  limit : Option ℕ
  keyLimit : Option ℕ
  count : ℕ
  deriving DecidableEq

structure Vars where
  entries : List Entry
  ids : List TaskId
  /-- `v_reserved_types` and `v_keys` -/
  reserved : List (Name × Option String)
  skip : List TaskId
  skipTypes : List Name
  /-- `v_skip_key_types` and `v_skip_keys` -/
  skipKeys : List (Name × String)
  bytes : ℕ
  /-- The readings taken so far. -/
  reads : ℕ
  deriving DecidableEq

namespace Vars

/-- The first reading sets `v_until`. -/
def init : Vars := ⟨[], [], [], [], [], [], 0, 1⟩

def skips (v : Vars) : Skips := ⟨v.skip, v.skipTypes, v.skipKeys⟩

def see (v : Vars) (id : TaskId) : Vars := { v with skip := v.skip ++ [id] }

def skipType (v : Vars) (type : Name) : Vars := { v with skipTypes := v.skipTypes ++ [type] }

def skipKey (v : Vars) (type : Name) (key : String) : Vars :=
  { v with skipKeys := v.skipKeys ++ [(type, key)] }

/-- `array_position(v_types, type)` -/
def entry (v : Vars) (type : Name) : Option Entry := v.entries.find? fun e => e.type = type

/-- Append a locked type with the recount of its running rows. -/
def enter (v : Vars) (type : Name) (ty : TaskType) (count : ℕ) : Vars :=
  { v with
    entries := v.entries ++
      [⟨type, ty.maxConcurrency, ty.maxConcurrencyPerKey, if ty.maxConcurrency = none then 0 else count⟩] }

/-- The rows of this batch with a type and key. -/
def reservedFor (v : Vars) (type : Name) (key : String) : ℕ :=
  (v.reserved.filter fun r => r = (type, some key)).length

/-- Let the candidate in, and count it for its type and its key. -/
def reserve (v : Vars) (c : Candidate) : Vars :=
  { v with
    bytes := v.bytes + c.bytes
    ids := v.ids ++ [c.id]
    reserved := v.reserved ++ [(c.type, c.concurrencyKey)]
    entries := v.entries.map fun e => if e.type = c.type then { e with count := e.count + 1 } else e }

def read (v : Vars) : Vars := { v with reads := v.reads + 1 }

end Vars

/-- `v_limit IS NOT NULL AND v_counts[v_index] >= v_limit` -/
def Entry.full (e : Entry) : Bool := e.limit.any fun n => n ≤ e.count

/-- The key of a candidate whose type has a limit per key, with that limit. -/
def Entry.keyed (e : Entry) (c : Candidate) : Option (ℕ × String) :=
  e.keyLimit.bind fun n => c.concurrencyKey.map fun key => (n, key)

/-- `EXIT admission WHEN cardinality(v_ids) > 0 AND v_bytes + v_candidate.bytes > 524288` -/
def Vars.overflows (v : Vars) (c : Candidate) : Bool := v.ids ≠ [] && 524288 < v.bytes + c.bytes

/-- `v_cap` -/
def Request.cap (r : Request) : ℕ := (min r.count 256).toNat

section

variable (r : Request) (w : View) (clock : ℕ → Time)

/-- `clock_timestamp() >= v_until` at the next reading. -/
def late (v : Vars) : Bool := clock 0 + r.deadlineS ≤ clock v.reads

/-- The locks on a type's row: shared first unless the query saw a limit, then exclusive if there is
one now. -/
def lockLimits (type : Name) (limited : Bool) : Option TaskType :=
  if limited then w.lockRow type .update
  else (w.lockRow type .share).bind fun ty => if ty.limited then w.lockRow type .update else some ty

/-- The first row of a type: lock the type's row and recount. -/
def lockType (v : Vars) (c : Candidate) (limited : Bool) : Vars × Option Entry :=
  match lockLimits w c.type limited with
  | none => (v.skipType c.type, none)
  | some ty =>
      if ty.paused then (v.skipType c.type, none)
      else
        let v := v.enter c.type ty (running w.tasks c.type)
        (v, v.entry c.type)

/-- `EXIT admission` or the end of one pass of the inner loop. -/
inductive Next
  | continue
  | exit
  deriving DecidableEq

/-- The checks of a row whose type has its entry. -/
def checkRow (v : Vars) (c : Candidate) (e : Entry) : Vars × Next :=
  if e.full then (v.skipType c.type, .continue)
  else
    match e.keyed c with
    | some (n, key) =>
        if n ≤ runningKey w.tasks c.type key + v.reservedFor c.type key then
          (v.skipKey c.type key, .continue)
        else admitRow v c
    | none => admitRow v c
where
  admitRow (v : Vars) (c : Candidate) : Vars × Next :=
    if v.overflows c then (v, .exit)
    else
      let v := v.reserve c
      (v.read, if r.cap ≤ v.ids.length ∨ late r clock v then .exit else .continue)

/-- One pass of the inner loop. -/
def visit (v : Vars) (c : Candidate) (limited : Bool) : Vars × Next :=
  let v := v.see c.id
  if w.locked c = false ∨ c.type ∈ v.skipTypes then (v, .continue)
  else
    match v.entry c.type with
    | some e => checkRow r w clock v c e
    | none =>
        match lockType w v c limited with
        | (v, none) => (v, .continue)
        | (v, some e) => checkRow r w clock v c e

/-- The inner loop. -/
def visitAll (v : Vars) : List (Candidate × Bool) → Vars × Next
  | [] => (v, .continue)
  | c :: cs =>
      match visit r w clock v c.1 c.2 with
      | (v, .exit) => (v, .exit)
      | (v, .continue) => visitAll v cs

/-- The outer loop, `none` where `fuel` rounds do not end it. -/
def rounds (fuel : ℕ) (v : Vars) : Option Vars :=
  match fuel with
  | 0 => none
  | fuel + 1 =>
      let chosen := w.chosen r.types v.skips (r.cap - v.ids.length)
      match visitAll r w clock v chosen with
      | (v, .exit) => some v
      | (v, .continue) =>
          if chosen = [] ∨ late r clock v then some v else rounds fuel v.read

end

/-- `SELECT applied.* … ORDER BY array_position(v_ids, applied.id)` -/
def started (ids : List TaskId) (rows : List (TaskId × Row)) : List (TaskId × Row) :=
  orderBy (fun x => ids.idxOf x.1) rows

/-- What every statement of the function reads while no other transaction is at work. -/
def alone (size : Jsonb → ℕ) (db : Db) (catalog : Catalog) (now : Time) : View :=
  ⟨size, db.tasks, catalog, now, fun _ => false, fun _ _ => false⟩

/-- `claim_v{version}` with no other transaction at work. -/
def claim (fuel : ℕ) (r : Request) (size : Jsonb → ℕ) (db : Db) (catalog : Catalog) (now : Time)
    (clock : ℕ → Time) (leaseClock : TaskId → Time) (tokens : TaskId → Token) :
    Option (List (TaskId × Row) × Db) :=
  if r.count < 1 then some ([], db)
  else
    (rounds r (alone size db catalog now) clock fuel .init).map fun v =>
      (started v.ids (db.tasks.returning fun id t =>
          if id ∈ v.ids then t.claim now (leaseClock id) r.leaseS r.worker (tokens id) else none),
        (db.claim now leaseClock r.leaseS r.worker tokens v.ids).2)

end Fronta.Claim
