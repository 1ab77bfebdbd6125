import Fronta.Library.Refinement
import Fronta.Store.Statements

/-!
# What the queue is for

Tasks without clocks, leases, priorities and texts. A task waits, is worked on under a token, or is over. It has a
budget of failures, and a release costs nothing.
-/

namespace Fronta.Queue

open Refinement

inductive Stage
  | waiting
  | working (token : Token)
  | succeeded
  | failed
  | cancelled
  deriving DecidableEq

def Stage.over : Stage → Bool
  | succeeded | failed | cancelled => true
  | waiting | working _ => false

structure Task where
  type : Name
  key : Option String
  budget : ℕ
  stage : Stage
  /-- How often it was started. -/
  started : ℕ
  /-- The failures of the current budget. -/
  spent : ℕ
  /-- A cancellation was asked for. -/
  doomed : Bool
  deriving DecidableEq

/-- A move of one task. -/
inductive Move
  | submit (type : Name) (key : Option String) (budget : ℕ)
  | start (token : Token)
  | succeed (token : Token)
  | fail (token : Token)
  | failForGood (token : Token)
  | giveBack (token : Token)
  | stop (token : Token)
  | ask
  | expire
  | again
  | forget
  deriving DecidableEq

def Move.givesBack : Move → Bool
  | .giveBack _ => true
  | _ => false

def Move.renews : Move → Bool
  | .again => true
  | _ => false

namespace Task

variable (t : Task)

/-- A failure is charged, and the task waits again while its budget lasts. -/
def charge : Task :=
  { t with
    spent := t.spent + 1
    stage := if t.doomed then .cancelled else if t.spent + 1 < t.budget then .waiting else .failed }

def move : Move → Option Task
  | .start token =>
      if t.stage = .waiting then some { t with stage := .working token, started := t.started + 1 } else none
  | .succeed token => if t.stage = .working token then some { t with stage := .succeeded } else none
  | .fail token => if t.stage = .working token then some t.charge else none
  | .failForGood token =>
      if t.stage = .working token then some { t with stage := .failed, spent := t.spent + 1 } else none
  | .giveBack token =>
      if t.stage = .working token then some { t with stage := if t.doomed then .cancelled else .waiting } else none
  | .stop token => if t.stage = .working token ∧ t.doomed then some { t with stage := .cancelled } else none
  | .ask =>
      if t.stage.over then none
      else some { t with stage := if t.stage = .waiting then .cancelled else t.stage, doomed := true }
  | .expire =>
      match t.stage with
      | .working _ => some (if t.doomed then { t with stage := .cancelled } else t.charge)
      | _ => none
  | .again =>
      if t.stage = .failed ∨ t.stage = .cancelled then some { t with stage := .waiting, spent := 0, doomed := false }
      else none
  | .submit .. | .forget => none

/-- A task is submitted where there is none, and forgotten once it is over. -/
def step : Option Task → Move → Option (Option Task)
  | none, .submit type key budget =>
      if 0 < budget then some (some ⟨type, key, budget, .waiting, 0, 0, false⟩) else none
  | none, _ => none
  | some t, .forget => if t.stage.over then some none else none
  | some t, m => (t.move m).map some

end Task

/-- Starts are paid by failures of the budget, by releases, and by budgets renewed. -/
structure Within (renewed released : ℕ) (t : Task) : Prop where
  budget : 0 < t.budget
  waiting : t.stage = .waiting → t.started ≤ t.budget * renewed + t.spent + released ∧ t.spent < t.budget
  working : ∀ token, t.stage = .working token →
    t.started ≤ t.budget * renewed + t.spent + released + 1 ∧ t.spent < t.budget
  started : t.started ≤ t.budget * renewed + t.budget + released

/-! ## The queue -/

abbrev Tasks := TaskId → Option Task

/-- No task of this type is active under this key. -/
def Free (q : Tasks) (type : Name) (key : Option String) : Prop :=
  ∀ id t, q id = some t → t.type = type → t.key = key → key ≠ none → t.stage.over = true

/-- A task becomes active only where its key is free. -/
def Admits (q : Tasks) (x : TaskId × Move) : Prop :=
  match x.2 with
  | .submit type key _ => Free q type key
  | .again => ∀ t, q x.1 = some t → Free q t.type t.key
  | _ => True

open Classical in
noncomputable def step (q : Tasks) (x : TaskId × Move) : Option Tasks :=
  if Admits q x then family Task.step q x else none

def empty : Tasks := fun _ => none

end Fronta.Queue

namespace Fronta

/-! ## Rows as tasks -/

namespace Row

def stage (t : Row) : Queue.Stage :=
  match t.state with
  | .queued => .waiting
  | .running => .working (t.token.getD 0)
  | .succeeded => .succeeded
  | .failed => .failed
  | .cancelled => .cancelled

def task (t : Row) : Queue.Task :=
  ⟨t.type, t.key, t.maxAttempts, t.stage, t.attempt, t.failures, t.cancelRequestedAt.isSome⟩

end Row

/-- What a transition means. Heartbeats and progress mean nothing. -/
def RowOp.move : RowOp → Option Queue.Move
  | claim _ _ _ _ token => some (.start token)
  | heartbeat .. | setProgress .. => none
  | complete _ _ c =>
      match c.kind with
      | .succeed => some (.succeed c.token)
      | .fail => some (.fail c.token)
      | .failFinal => some (.failForGood c.token)
      | .release => some (.giveBack c.token)
      | .cancel => some (.stop c.token)
  | requestCancel _ => some .ask
  | reap .. => some .expire
  | requeue _ => some .again

namespace Db

def queue (db : Db) : Queue.Tasks := fun id => (db.tasks.get id).map Row.task

def step (db : Db) (op : Op) : Option Db := some (db.exec op)

end Db

end Fronta
