import Mathlib.Algebra.Order.Ring.Rat
import Mathlib.Data.List.AList
import Mathlib.Data.Rat.Defs
import Fronta.Library.Table

/-!
# Rows and value objects

The columns of `fronta.tasks`, `fronta.task_types`, `fronta.subscriptions` and `fronta.events`, and the
value objects of `model.py` that the statements read. Timestamps and durations are exact seconds.
-/

namespace Fronta

open Sql

abbrev TaskId := ℕ
abbrev Token := ℕ
abbrev Name := String
abbrev Time := ℚ

/-! ## Task states -/

inductive State
  | queued
  | running
  | succeeded
  | failed
  | cancelled
  deriving DecidableEq, Repr

namespace State

/-- The text that the column and the backfill marker store. -/
def value : State → String
  | queued => "queued"
  | running => "running"
  | succeeded => "succeeded"
  | failed => "failed"
  | cancelled => "cancelled"

/-- `state IN ('succeeded', 'failed', 'cancelled')` -/
def terminal : State → Bool
  | succeeded | failed | cancelled => true
  | queued | running => false

/-- `state IN ('queued', 'running')` -/
def active (s : State) : Bool := !s.terminal

end State

/-! ## Policies -/

/-- Retry n waits `min(cap_s, base_s * factor**(n-1))` seconds, jittered to `[d/2, d]`. -/
structure Backoff where
  baseS : ℚ
  factor : ℚ
  capS : ℚ
  base_nonneg : 0 ≤ baseS
  base_le_cap : baseS ≤ capS
  cap_le : capS ≤ 2592000
  one_le_factor : 1 ≤ factor
  factor_le : factor ≤ 10
  deriving DecidableEq

instance : Inhabited Backoff :=
  ⟨1, 2, 3600, by decide +kernel, by decide +kernel, by decide +kernel, by decide +kernel,
    by decide +kernel⟩

/-- The policy of a task type. Every task keeps the copy it was enqueued with. -/
structure Policy where
  maxAttempts : ℕ
  attemptTimeoutS : ℚ
  backoff : Backoff
  maxConcurrency : Option ℕ
  maxConcurrencyPerKey : Option ℕ
  one_le_maxAttempts : 1 ≤ maxAttempts
  maxConcurrency_pos : ∀ n, maxConcurrency = some n → 1 ≤ n
  maxConcurrencyPerKey_pos : ∀ n, maxConcurrencyPerKey = some n → 1 ≤ n

instance : Inhabited Policy := ⟨3, 3600, default, none, none, by decide, by simp, by simp⟩

/-! ## Stored JSON -/

inductive Scalar
  | null
  | number (n : ℕ)
  | string (s : String)
  deriving DecidableEq, Repr

/-- A `jsonb` value: text that a client sent, or an object that a statement built. -/
inductive Jsonb
  | text (s : String)
  | object (fields : List (String × Scalar))
  deriving DecidableEq, Repr

/-! ## Tasks -/

/-- A row of `fronta.tasks` without its id. -/
structure Row where
  type : Name
  state : State
  priority : ℤ
  key : Option String
  concurrencyKey : Option String
  input : Jsonb
  result : Option Jsonb
  error : Option Jsonb
  progress : Option Jsonb
  attempt : ℕ
  failures : ℕ
  maxAttempts : ℕ
  attemptTimeoutS : ℚ
  backoff : Backoff
  token : Option Token
  leaseUntil : Option Time
  worker : Option Name
  cancelRequestedAt : Option Time
  createdAt : Time
  runAt : Time
  startedAt : Option Time
  finishedAt : Option Time
  metadata : Option Jsonb
  deriving DecidableEq

/-- An enqueue request whose input is already encoded and cap-checked. -/
structure NewTask where
  type : Name
  inputJson : String
  policy : Policy
  priority : ℤ := 0
  runAt : Option Time := none
  key : Option String := none
  concurrencyKey : Option String := none
  metadataJson : Option String := none

inductive CompletionKind
  | succeed
  | fail
  | failFinal
  | release
  | cancel
  deriving DecidableEq, Repr

/-- A fenced attempt outcome. A success always carries its encoded result. -/
structure Completion where
  id : TaskId
  token : Token
  kind : CompletionKind
  data : Option String
  succeed_data : kind = .succeed → data ≠ none
  deriving DecidableEq

/-! ## Task types -/

/-- The columns of `fronta.task_types` that a claim reads. -/
structure TaskType where
  maxConcurrency : Option ℕ
  maxConcurrencyPerKey : Option ℕ
  paused : Bool
  deriving DecidableEq, Repr

/-- `claim_candidate.sql`: the type has one of the two limits. -/
def TaskType.limited (ty : TaskType) : Bool :=
  ty.maxConcurrency.isSome || ty.maxConcurrencyPerKey.isSome

/-- `fronta.task_types` by name. -/
abbrev Catalog := Name → Option TaskType

/-! ## Subscriptions and events -/

/-- The backfill marker: the window's boundary and the cursor of each state still to scan. -/
structure Marker where
  since : Option Time
  pending : AList fun _ : State => TaskId
  deriving DecidableEq

/-- A row of `fronta.subscriptions`. Its generation is the id under which it was inserted. -/
structure Registration where
  name : Name
  states : List State
  types : Option (List Name)
  backfill : Option Marker
  deriving DecidableEq

/-- What a transition returns: `RETURNING id, type, state, attempt`. -/
structure Applied where
  id : TaskId
  type : Name
  state : State
  attempt : ℕ
  deriving DecidableEq, Repr

/-- A row of `fronta.events`. Its sequence number is the id under which it was inserted. -/
structure Event where
  subscription : Name
  taskId : TaskId
  type : Name
  state : State
  attempt : ℕ
  createdAt : Time
  deriving DecidableEq

/-- `a.state = ANY(s.states) AND (s.types IS NULL OR a.type = ANY(s.types))` -/
def Registration.selects (s : Registration) (type : Name) (state : State) : Bool :=
  s.states.contains state && s.types.all fun ts => ts.contains type

/-- The returned columns of an updated row. -/
def Row.applied (id : TaskId) (t : Row) : Applied := ⟨id, t.type, t.state, t.attempt⟩

/-- The event that announces an applied row to a subscription. -/
def Applied.event (a : Applied) (subscription : Name) (now : Time) : Event :=
  ⟨subscription, a.id, a.type, a.state, a.attempt, now⟩

end Fronta
