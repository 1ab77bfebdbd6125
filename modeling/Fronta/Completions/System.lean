import Fronta.Library.Batching
import Fronta.Library.Runs
import Fronta.Store.Model

/-!
# Coalescing completions

`_Completions`: callers queue completions with a future each, one background task takes batches off the
queue and hands them to `write`. Between two awaits nothing else happens, so a step runs from one await to
the next. `withdrawn`, `handed`, `results` and `failures` only record what happened.
-/

namespace Fronta.Completions

open Sql Batching

abbrev Ref := ℕ

/-- An `asyncio.Future`. -/
inductive Future (ε : Type)
  | pending
  | result (state : Option State)
  | exception (e : ε)
  | cancelled
  deriving DecidableEq

namespace Future

variable {ε : Type}

def done : Future ε → Bool
  | .pending => false
  | _ => true

def isCancelled : Future ε → Bool
  | .cancelled => true
  | _ => false

end Future

/-- A call of `complete`. -/
structure Call (ε : Type) where
  completion : Completion
  future : Future ε := .pending
  /-- Cancelled before its batch was formed. -/
  withdrawn : Bool := false
  deriving DecidableEq

/-- An entry of the queue: a completion and the call whose future it resolves. -/
abbrev Entry := Completion × Ref

/-- `_task`: created and perhaps cancelled before its first step, waiting for `write`, or ended, after a
first step or without one. -/
inductive Background
  | created (cancelled : Bool)
  | writing (batch active : List Entry)
  | done (started : Bool)
  deriving DecidableEq

structure Sys (ε : Type) where
  calls : Table (Call ε)
  pending : List Entry
  task : Option Background
  /-- The batches handed to `write`. -/
  handed : List (List Entry)
  /-- The batches that `write` answered. -/
  results : List (List Entry × (TaskId → Option State))
  /-- The runs that failed or were cancelled (`none`), with the entries that they resolved. -/
  failures : List (Option ε × List Entry)

inductive Action (ε : Type)
  | complete (completion : Completion)
  | cancel (x : Ref)
  | begin
  | returns (applied : TaskId → Option State)
  | raises (e : Option ε)
  | close

namespace Sys

variable {ε : Type}

def init : Sys ε := ⟨.empty, [], none, [], [], []⟩

/-- Resolve the futures of some entries that are not done. -/
def resolve (s : Sys ε) (entries : List Entry) (f : TaskId → Future ε) : Sys ε :=
  { s with
    calls := s.calls.update fun x call =>
      if (call.completion, x) ∈ entries ∧ call.future.done = false then
        some { call with future := f call.completion.id }
      else none }

/-- The future of an entry is cancelled. -/
def cancelled (s : Sys ε) (entry : Entry) : Bool :=
  (s.calls.get entry.2).any fun call => call.future.isCancelled

/-- The loop of `_run` up to its next await. A batch of cancelled callers is not written. -/
def loop : ℕ → Sys ε → Sys ε
  | 0, s => { s with task := some (.done true) }
  | n + 1, s =>
      if s.pending = [] then { s with task := some (.done true) }
      else
        let (batch, pending) := collect (·.1.id) 256 [] [] s.pending
        let active := batch.filter fun entry => !s.cancelled entry
        if active = [] then loop n { s with pending := pending }
        else
          { s with
            pending := pending
            task := some (.writing batch active)
            handed := s.handed ++ [active] }

/-- Every turn of the loop shortens the queue. -/
def goOn (s : Sys ε) : Sys ε := loop s.pending.length s

/-- `complete` up to its await: it starts the task where none runs. -/
def complete (s : Sys ε) (completion : Completion) : Sys ε :=
  { s with
    calls := s.calls.insert { completion := completion }
    pending := s.pending ++ [(completion, s.calls.next)]
    task :=
      match s.task with
      | none => some (.created false)
      | some (.done _) => some (.created false)
      | some task => some task }

/-- The caller is cancelled. -/
def cancel (s : Sys ε) (x : Ref) : Sys ε :=
  { s with
    calls := s.calls.update fun y call =>
      if y = x ∧ call.future.done = false then
        some { call with
          future := .cancelled
          withdrawn := decide ((call.completion, x) ∈ s.pending) }
      else none }

/-- `write` has answered: the callers of the batch get the states of their tasks. -/
def answer (s : Sys ε) (batch active : List Entry) (applied : TaskId → Option State) : Sys ε :=
  { s.resolve batch fun id => .result (applied id) with results := s.results ++ [(active, applied)] }

/-- `_run` after a failure or a cancellation: the batch and the backlog share it. -/
def fail (s : Sys ε) (e : Option ε) (batch : List Entry) : Sys ε :=
  { s.resolve (batch ++ s.pending) fun _ => e.elim .cancelled .exception with
    pending := []
    task := some (.done true)
    failures := s.failures ++ [(e, batch ++ s.pending)] }

def step (s : Sys ε) : Action ε → Option (Sys ε)
  | .complete completion => some (s.complete completion)
  | .cancel x => some (s.cancel x)
  | .begin =>
      match s.task with
      | some (.created false) => some s.goOn
      -- A task that is cancelled before its first step never enters its `try`.
      | some (.created true) => some { s with task := some (.done false) }
      | _ => none
  | .returns applied =>
      match s.task with
      | some (.writing batch active) => some (s.answer batch active applied).goOn
      | _ => none
  | .raises e =>
      match s.task with
      | some (.writing batch _) => some (s.fail e batch)
      | _ => none
  -- A cancelled `write` fails, or answers nevertheless.
  | .close =>
      match s.task with
      | some (.created _) => some { s with task := some (.created true) }
      | _ => some s

end Sys

end Fronta.Completions
