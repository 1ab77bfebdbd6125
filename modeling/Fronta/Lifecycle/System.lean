import Fronta.Worker.System

/-!
# From start to exit

`Worker.run` under any signals, failures and cancellations: the stages of its task from the opening of the pools
to the end of `_close`, beside the attempts, the background loops and everybody else. The operations of
`_finish_cleanup` are tasks of their own. `cut`, `cancelled`, `swallowed` and `leaked` only record what happened.
-/

namespace Fronta.Lifecycle

open Sql
open Worker (Ref)

/-- What a call ends with in place of a result. -/
inductive Raised
  | cancelled
  | error
  deriving DecidableEq

inductive ExitCode
  | ok
  | fatal
  | loopFailed
  deriving DecidableEq

inductive Loop
  | tick
  | listener
  | renewals
  | reaper
  | purger
  deriving DecidableEq

def Loop.all : List Loop := [.tick, .listener, .renewals, .reaper, .purger]

/-- What `_close` closes. -/
inductive Resource
  | completions
  | hints
  | renewalPool
  | pool
  deriving DecidableEq

def Resource.all : List Resource := [.completions, .hints, .renewalPool, .pool]

/-- The waits of `_drain`, in their order. -/
inductive Wait
  | grace
  | settle
  | budget
  | cut
  deriving DecidableEq

/-- Where `_stop_loops` is. -/
inductive Stopping
  | fresh
  | abandoning (tasks : List Ref)
  | halting
  | done
  deriving DecidableEq

/-- Where `_close` is. -/
inductive Closing
  | next (left : List Resource)
  | failed
  deriving DecidableEq

/-- `_finish_cleanup`: its operation, what was raised before it, and whether a cancellation waits for its end. -/
structure Cleanup (β : Type) where
  operation : β
  raised : Option Raised
  deferred : Bool
  deriving DecidableEq

/-- What `_finish_cleanup` leaves behind where its operation did not raise. -/
def Cleanup.outcome {β : Type} (c : Cleanup β) : Option Raised := if c.deferred then some .cancelled else c.raised

inductive Outcome
  | returned (code : ExitCode)
  | raised (e : Raised)
  /-- `os._exit` -/
  | aborted
  deriving DecidableEq

/-- Where the task of `run` is. The drain of the `except` clause keeps what was raised. -/
inductive Stage
  | opening
  | looping
  | draining (late : Option Raised) (wait : Wait) (tasks : List Ref)
  | stopping (cleanup : Cleanup Stopping)
  | leaving (raised : Option Raised)
  | closing (cleanup : Cleanup Closing)
  | ended (outcome : Outcome)
  deriving DecidableEq

structure Sys where
  worker : Worker.Sys
  signals : ℕ
  immediate : Bool
  exitCode : ExitCode
  /-- The background loops that have not ended. -/
  loops : List Loop
  /-- `_background_stop` is set and the loops are cancelled. -/
  halted : Bool
  /-- A cancellation of `run` that is not delivered yet. -/
  cancelling : Bool
  stage : Stage
  released : List Resource
  /-- The controllers that were cancelled while they ran. -/
  cut : List Ref
  /-- `run` was cancelled. -/
  cancelled : Bool
  /-- The database driver or the lifespan swallowed an exception. -/
  swallowed : Bool
  /-- A resource failed to close. -/
  leaked : Bool

inductive Action
  | worker (action : Worker.Sys.Action)
  | attemptDone (x : Ref) (fatal : Bool)
  | signal
  | cancel
  | loopEnds (l : Loop)
  | loopDies (l : Loop)
  | opened
  | fails
  /-- The cancellation is raised where the task waits. -/
  | deliver
  | swallow
  | endLoop
  /-- A wait of `_drain` ends. -/
  | wake
  /-- `_stop_loops` goes on. -/
  | stop
  | stopped
  /-- The lifespan ends. -/
  | leave (raised : Option Raised)
  /-- `_close` closes the next resource. -/
  | release
  | releaseFails
  | closed

namespace Sys

def init (concurrency : ℕ) (db : Db) : Sys where
  worker := .init concurrency db
  signals := 0
  immediate := false
  exitCode := .ok
  loops := []
  halted := false
  cancelling := false
  stage := .opening
  released := []
  cut := []
  cancelled := false
  swallowed := false
  leaked := false

variable (s : Sys)

/-- `request_shutdown` -/
def requestShutdown : Sys :=
  { s with
    signals := s.signals + 1
    immediate := s.immediate || decide (1 < s.signals + 1)
    worker.stopping := true }

/-- `_attempt_done` and `_loop_ended` ask only where nobody has asked. -/
def shutdownOnce : Sys := if s.worker.stopping then s else s.requestShutdown

/-! ## Drain -/

/-- The tasks of `worker.attempts`. -/
def tasks : List Ref := s.worker.attempts.entries.map Sigma.snd

/-- The tasks among them that are not done. -/
def running : List Ref := s.tasks.filter fun x => (s.worker.objects.get x).any fun a => a.phase = .running

def allEnded (tasks : List Ref) : Bool :=
  tasks.all fun x => (s.worker.objects.get x).all fun a => a.phase ≠ .running

/-- Every tracked attempt is asked to stop. -/
def stopAll : Sys :=
  { s with
    worker.objects := s.worker.objects.update fun x a => if x ∈ s.tasks then some (a.stop .shutdown) else none }

/-- `_drain` is over, and `_stop_loops` begins. -/
def drained (late : Option Raised) : Sys := { s with stage := .stopping ⟨.fresh, late, false⟩ }

/-- Whatever is still unsettled is cancelled. -/
def drainCut (late : Option Raised) : Sys :=
  if s.tasks = [] then s.drained late
  else { s with stage := .draining late .cut s.tasks, cut := s.cut ++ s.running }

/-- Wait out the stop protocol. -/
def drainBudget (late : Option Raised) : Sys :=
  if s.tasks = [] then s.drainCut late else { s with stage := .draining late .budget s.tasks }

def drainSettle (late : Option Raised) : Sys :=
  if s.tasks = [] then s.drained late
  else if s.immediate then s.drainBudget late
  else { s with stage := .draining late .settle s.tasks }

/-- `_drain` to its first wait. -/
def drain (late : Option Raised) : Sys :=
  if s.tasks ≠ [] ∧ s.immediate = false then { s with stage := .draining late .grace s.tasks }
  else s.stopAll.drainSettle late

/-- `_drain` after a wait. -/
def resume (late : Option Raised) : Wait → Sys
  | .grace => s.stopAll.drainSettle late
  | .settle => s.drainBudget late
  | .budget => s.drainCut late
  | .cut => s.drained late

/-- `_wait_all` returns: its tasks have ended, its time is over, or a second signal came. -/
def wakes (wait : Wait) (tasks : List Ref) : Bool :=
  s.allEnded tasks ||
    match wait with
    | .grace | .budget | .cut => true
    | .settle => s.immediate

/-- The `except` clause of `_serve`. The claim in flight is given up. -/
def failed (e : Raised) : Sys :=
  { s with
    immediate := true
    worker.stopping := true
    worker.call := none }.drain (some e)

/-! ## Steps -/

/-- What is raised where the task of `run` waits. -/
def interrupt (e : Raised) : Option Sys :=
  match s.stage with
  | .opening => some { s with stage := .closing ⟨.next Resource.all, some e, false⟩ }
  | .looping | .draining none _ _ => some (s.failed e)
  | .draining (some _) _ _ => some (s.drained (some e))
  | .stopping c => some { s with stage := .stopping { c with deferred := true } }
  | .closing c => some { s with stage := .closing { c with deferred := true } }
  | .leaving _ | .ended _ => none

/-- The claims are the loop's, a request to stop and the end of an attempt have actions of their own. -/
def admits : Worker.Sys.Action → Bool
  | .claim | .claimFailed | .dispatch => s.stage = .looping && !s.cancelling
  | .execute .. => s.stage = .looping
  | .requestShutdown | .attemptDone _ => false
  | _ => true

def isEnded : Bool :=
  match s.stage with
  | .ended _ => true
  | _ => false

/-- The lifespan has left with this. Where it suppresses what was raised, it swallows it. -/
def left (raised raised' : Option Raised) : Sys :=
  { s with
    stage := .closing ⟨.next Resource.all, raised', false⟩
    cancelling := false
    swallowed := s.swallowed || (raised'.isNone && (raised.isSome || s.cancelling)) }

def step (lifespan : Bool) (s : Sys) : Action → Option Sys
  | .worker action => if s.admits action then (s.worker.step action).map fun w => { s with worker := w } else none
  | .attemptDone x fatal =>
      (s.worker.step (.attemptDone x)).map fun w =>
        if fatal then { s with worker := w, exitCode := .fatal }.shutdownOnce else { s with worker := w }
  | .signal => if s.isEnded then none else some s.requestShutdown
  | .cancel => if s.isEnded then none else some { s with cancelling := true, cancelled := true }
  | .loopEnds l => if l ∈ s.loops ∧ s.halted then some { s with loops := s.loops.erase l } else none
  | .loopDies l =>
      if l ∈ s.loops then
        some { s with
          loops := s.loops.erase l
          exitCode := if s.exitCode = ExitCode.ok then ExitCode.loopFailed else s.exitCode }.shutdownOnce
      else none
  | .opened =>
      if s.stage = .opening ∧ s.cancelling = false then some { s with stage := .looping, loops := Loop.all } else none
  | .fails =>
      match s.stage with
      | .opening | .looping | .draining .. => if s.cancelling then none else s.interrupt .error
      | _ => none
  | .deliver => if s.cancelling then { s with cancelling := false }.interrupt .cancelled else none
  | .swallow =>
      match s.stage with
      | .opening | .looping => if s.cancelling then some { s with cancelling := false, swallowed := true } else none
      | _ => none
  | .endLoop =>
      if s.stage = .looping ∧ s.cancelling = false ∧ s.worker.stopping ∧ s.worker.call = none then some (s.drain none)
      else none
  | .wake =>
      match s.stage with
      | .draining late wait tasks =>
          if s.cancelling = false ∧ s.wakes wait tasks then some (s.resume late wait) else none
      | _ => none
  | .stop =>
      match s.stage with
      | .stopping c =>
          match c.operation with
          | .fresh =>
              if s.running = [] then
                some { s with halted := true, stage := .stopping { c with operation := .halting } }
              else
                some { s with
                  cut := s.cut ++ s.running
                  stage := .stopping { c with operation := .abandoning s.running } }
          | .abandoning tasks =>
              if s.allEnded tasks then
                some { s with halted := true, stage := .stopping { c with operation := .halting } }
              else none
          | .halting => if s.loops = [] then some { s with stage := .stopping { c with operation := .done } } else none
          | .done => none
      | _ => none
  | .stopped =>
      match s.stage with
      | .stopping c =>
          if c.operation = .done ∧ s.cancelling = false then
            if lifespan then some { s with stage := .leaving c.outcome }
            else some { s with stage := .closing ⟨.next Resource.all, c.outcome, false⟩ }
          else none
      | _ => none
  | .leave raised' =>
      match s.stage with
      | .leaving raised => some (s.left raised raised')
      | _ => none
  | .release =>
      match s.stage with
      | .closing c =>
          match c.operation with
          | .next (r :: left) =>
              some { s with
                released := s.released ++ [r]
                stage :=
                  if left = [] ∧ s.exitCode = .fatal then .ended .aborted
                  else .closing { c with operation := .next left } }
          | _ => none
      | _ => none
  | .releaseFails =>
      match s.stage with
      | .closing c =>
          match c.operation with
          | .next (_ :: _) => some { s with leaked := true, stage := .closing { c with operation := .failed } }
          | _ => none
      | _ => none
  | .closed =>
      match s.stage with
      | .closing c =>
          if s.cancelling then none
          else
            match c.operation with
            | .next [] =>
                some { s with stage := .ended (c.outcome.elim (.returned s.exitCode) .raised) }
            | .failed => some { s with stage := .ended (.raised .error) }
            | _ => none
      | _ => none

/-- No claim brings back a row whose previous attempt is still in the map. -/
def Apart : Action → Prop
  | .worker action => s.worker.Apart action
  | _ => True

instance (s : Sys) : (action : Action) → Decidable (s.Apart action)
  | .worker action => inferInstanceAs (Decidable (s.worker.Apart action))
  | .attemptDone .. | .signal | .cancel | .loopEnds _ | .loopDies _ | .opened | .fails | .deliver | .swallow
  | .endLoop | .wake | .stop | .stopped | .leave _ | .release | .releaseFails | .closed => isTrue True.intro

end Sys

end Fronta.Lifecycle
