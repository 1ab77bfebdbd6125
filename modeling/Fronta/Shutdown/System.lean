import Fronta.Completions.System
import Fronta.Orphans.System

/-!
# A graceful shutdown

`Worker.run` of one worker from its claim loop to the end of `_close`: the claims and releases of orphans, the
coalescing writer, a controller for each attempt and the two phases of `_drain`. Shutdown is requested at most
once, and nobody cancels `run`. A controller ends with the answer to its completion, or without one after its
lease was lost. `claimed`, `lost`, `answers` and `expired` only record what happened.
-/

namespace Fronta.Shutdown

open Sql
open Worker (Ref)

/-- A row under the token of one of its claims. -/
abbrev Claimed := TaskId × Token

abbrev ofAttempt (a : Worker.Attempt) : Claimed := (a.row, a.token)

abbrev ofCompletion (c : Completion) : Claimed := (c.id, c.token)

/-- What the worker has heard about a claimed row. -/
inductive Answer
  | applied (state : State)
  /-- The token is not valid. -/
  | rejected
  /-- The release of orphans has ended. -/
  | released
  /-- `fenced_write` has logged that the write failed permanently. -/
  | failed
  deriving DecidableEq

/-- The calls of `fenced_write`: for a batch of completions, and in `_release_unstarted`. -/
inductive Writer
  | completions
  | unstarted
  deriving DecidableEq

/-- Where `_serve` is: in the claim loop, in the waits of `_drain`, in the cleanup, or behind it. -/
inductive Stage
  | serving
  | grace
  | settling (tasks : List Ref)
  | cutting
  | closing
  | closed
  deriving DecidableEq

structure Sys where
  orphans : Orphans.Sys
  completions : Completions.Sys Empty
  /-- What `_release_unstarted` writes. -/
  unstarted : Option (List Completion)
  /-- The response of the last try, on its way. -/
  responses : Writer → Option (List Applied)
  /-- The completion that a controller waits for. -/
  waits : Ref → Option Completions.Ref
  stage : Stage
  claimed : List Claimed
  /-- The rows of the claim whose response was lost. -/
  lost : List Claimed
  answers : List (Claimed × Answer)
  /-- The attempts that were stopped because no renewal was confirmed in time. -/
  expired : List Claimed
  /-- The attempts whose controller raised before it wrote an outcome. -/
  crashed : List Claimed

inductive Action
  | orphans (action : Orphans.Action)
  | complete (x : Ref) (completion : Completion)
  | crash (x : Ref)
  /-- The writer makes its first step. -/
  | begin
  /-- A try of `fenced_write` commits. -/
  | write (writer : Writer) (now : Time) (jitter : TaskId → ℚ)
  | lose (writer : Writer)
  | answer (writer : Writer)
  /-- An error that is not retried. -/
  | refuse (writer : Writer)
  | endLoop
  | endGrace
  | settled
  | cut
  | close

namespace Sys

def init (concurrency : ℕ) (name : Name) : Sys where
  orphans := .init concurrency name
  completions := .init
  unstarted := none
  responses := fun _ => none
  waits := fun _ => none
  stage := .serving
  claimed := []
  lost := []
  answers := []
  expired := []
  crashed := []

variable (s : Sys)

def worker : Worker.Sys := s.orphans.worker

/-- The token is the current one of its running row. -/
def valid (c : Claimed) : Bool :=
  (s.worker.db.tasks.get c.1).any fun t => t.state = .running && t.token = some c.2

/-- The controller has the answer to its completion, or has none to wait for after a lost lease. -/
def mayFinish (x : Ref) : Bool :=
  match s.waits x with
  | some r =>
      (s.completions.calls.get r).any fun call =>
        match call.future with
        | .result _ => true
        | _ => false
  | none => (s.worker.objects.get x).any fun a => a.cause = some .lost

/-- What the worker does of itself. A progress write that finds the token gone stops its attempt as lost, and a
claim that fails without a release was refused by the database. -/
def admits : Orphans.Action → Bool
  | .worker .requestShutdown => !s.worker.stopping
  | .worker .claim => s.stage = .serving && s.unstarted.isNone
  | .worker .claimFailed =>
      match s.worker.call with
      | some (.issued _) => true
      | _ => false
  | .worker (.stop _ .timeout) => true
  | .worker (.stop x .lost) => (s.worker.objects.get x).all fun a => !s.valid (ofAttempt a)
  | .worker (.stop _ _) => false
  | .worker (.finish x) => s.mayFinish x
  | _ => true

/-- The rows that the claim has taken, if it is that. -/
def taken (o : Orphans.Sys) : Orphans.Action → List Claimed
  | .worker (.execute ..) => o.worker.claimed
  | _ => []

/-- The answers about tokens that an action brings. -/
def heard (o : Orphans.Sys) : Orphans.Action → List (Claimed × Answer)
  | .worker (.renew _ _ due) =>
      (s.worker.renewals due).filterMap fun c => if s.valid c then none else some (c, .rejected)
  | .worker (.stop x .lost) =>
      ((s.worker.objects.get x).map fun a => (ofAttempt a, .rejected)).toList
  | .reply => if o.release.isNone then s.lost.map fun c => (c, .released) else []
  | .abandon => s.lost.map fun c => (c, .failed)
  | _ => []

/-- The attempt that an action stops for want of a renewal. -/
def gaveUp : Orphans.Action → List Claimed
  | .worker (.expire x) =>
      ((s.worker.objects.get x).filter fun a => a.cause.isNone).toList.map ofAttempt
  | _ => []

theorem release_data : CompletionKind.release = .succeed → (none : Option String) ≠ none :=
  fun h => by cases h

/-- A row that goes back. -/
def release (c : Claimed) : Completion := ⟨c.1, c.2, .release, none, release_data⟩

/-- What else an action of the worker changes. -/
def after (action : Orphans.Action) (o : Orphans.Sys) : Sys :=
  { s with
    orphans := o
    unstarted :=
      match action with
      | .worker .dispatch => if s.worker.stopping then some (s.worker.claimed.map release) else s.unstarted
      | _ => s.unstarted
    claimed := s.claimed ++ taken o action
    lost :=
      match action with
      | .lose => s.worker.claimed
      | _ => if o.release.isNone then [] else s.lost
    answers := s.answers ++ s.heard o action
    expired := s.expired ++ s.gaveUp action }

/-- What a call of `fenced_write` writes. -/
def fenced : Writer → Option (List Completion)
  | .completions =>
      match s.completions.task with
      | some (.writing _ active) => some (active.map Prod.fst)
      | _ => none
  | .unstarted => s.unstarted

/-- `applied.get(id)` -/
def stateOf (applied : List Applied) (id : TaskId) : Option State :=
  (applied.find? fun a => a.id = id).map Applied.state

/-- A call of `fenced_write` returns. `_release_unstarted` drops what it gets, the writer's callers get their
states. -/
def returns (writer : Writer) (states : TaskId → Option State) (answers : List (Claimed × Answer)) :
    Option Sys :=
  let s := { s with
    responses := Function.update s.responses writer none
    answers := s.answers ++ answers }
  match writer with
  | .completions => (s.completions.step (.returns states)).map fun c => { s with completions := c }
  | .unstarted => some { s with unstarted := none }

/-- The tasks that `_drain` waits for. -/
def tasks : List Ref := s.worker.attempts.entries.map Sigma.snd

/-- Every tracked attempt is asked to stop. -/
def stopAll : Sys :=
  { s with
    orphans.worker.objects := s.worker.objects.update fun x a =>
      if x ∈ s.tasks then some (a.stop .shutdown) else none }

/-- `_drain` goes on, or returns where no task is left. -/
def orClosing (stage : Stage) : Sys := { s with stage := if s.tasks = [] then .closing else stage }

/-- No task that is left in the map still runs. -/
def allEnded (tasks : List Ref) : Bool :=
  tasks.all fun x => (s.worker.objects.get x).all fun a => a.phase ≠ .running

def step : Action → Option Sys
  | .orphans action => if s.admits action then (s.orphans.step action).map (s.after action) else none
  | .complete x completion =>
      match s.worker.objects.get x with
      | some a =>
          if a.phase = .running ∧ s.waits x = none ∧ a.cause ≠ some .lost ∧
              ofCompletion completion = ofAttempt a ∧ (completion.kind = .cancel → a.cause = some .cancel) then
            some { s with
              completions := s.completions.complete completion
              waits := Function.update s.waits x (some s.completions.calls.next) }
          else none
      | none => none
  | .crash x =>
      match s.worker.objects.get x with
      | some a =>
          if s.waits x = none then
            (s.orphans.step (.worker (.finish x))).map fun o =>
              { s with
                orphans := o
                crashed := s.crashed ++ [ofAttempt a] }
          else none
      | none => none
  | .begin => (s.completions.step .begin).map fun c => { s with completions := c }
  | .write writer now jitter =>
      (s.fenced writer).bind fun completions =>
        match s.worker.db.complete now jitter completions with
        | .ok (applied, _) =>
            (s.orphans.step (.worker (.statement (.complete now jitter completions)))).map fun o =>
              { s with
                orphans := o
                responses := Function.update s.responses writer (some applied) }
        | .error _ => none
  | .lose writer => some { s with responses := Function.update s.responses writer none }
  | .answer writer =>
      (s.fenced writer).bind fun completions =>
        (s.responses writer).bind fun applied =>
          s.returns writer (stateOf applied) (completions.map fun c =>
            (ofCompletion c, (stateOf applied c.id).elim .rejected .applied))
  | .refuse writer =>
      (s.fenced writer).bind fun completions =>
        s.returns writer (fun _ => none) (completions.map fun c => (ofCompletion c, .failed))
  | .endLoop =>
      if s.stage = .serving ∧ s.worker.stopping ∧ s.worker.call = none ∧ s.orphans.release.isNone ∧
          s.unstarted = none then
        some (s.orClosing .grace)
      else none
  -- Everything has ended, or the grace period is over.
  | .endGrace => if s.stage = .grace then some (s.stopAll.orClosing (.settling s.tasks)) else none
  | .settled =>
      match s.stage with
      | .settling tasks => if s.allEnded tasks then some (s.orClosing .cutting) else none
      | _ => none
  -- The tasks that get a cancellation here have ended.
  | .cut => if s.stage = .cutting ∧ s.allEnded s.tasks then some { s with stage := .closing } else none
  | .close =>
      if s.stage = .closing ∧ s.allEnded s.tasks then
        (s.completions.step .close).map fun c => { s with completions := c, stage := .closed }
      else none

/-- No claim brings back a row whose previous attempt is still in the map, and no page of a release misses a row
of the worker. -/
def Clean : Action → Prop
  | .orphans action => s.orphans.clean action = true
  | _ => True

instance (s : Sys) : (action : Action) → Decidable (s.Clean action)
  | .orphans action => inferInstanceAs (Decidable (s.orphans.clean action = true))
  | .complete .. | .crash _ | .begin | .write .. | .lose _ | .answer _ | .refuse _ | .endLoop | .endGrace
  | .settled | .cut | .close => isTrue True.intro

/-- The controllers that have not finished. -/
def unfinished : List (Ref × Worker.Attempt) := s.worker.unfinished

end Sys

end Fronta.Shutdown
