import Fronta.Attempt.Outcome
import Fronta.Library.Runs

/-!
# The controller of one attempt

Stop requests arrive at any point, the runner ends at any point, and the controller takes its steps between.
A step ends at the next place where the controller waits. What decides the outcome is observed from outside:
`History` records it at the step where it arises, whatever the controller makes of it.
-/

namespace Fronta.Attempt

open Unicode Codec
open Worker (Cause)

/-- What is fixed for one attempt. -/
structure Env where
  str : Value → Except Raised Text
  settings : Settings
  timeout : Decimal
  /-- The execution is a sandboxed process. -/
  process : Bool

/-- The answer to the renewal of a late dispatch. -/
inductive Reply
  /-- The lease may have ended before the call. -/
  | overdue
  /-- No answer. -/
  | failed
  /-- The answer does not have the row. -/
  | rejected
  | confirmed (cancelRequested : Bool)
  deriving DecidableEq

/-- The return value of `_renew_attempts`. -/
def Reply.answered : Reply → Bool
  | rejected | confirmed _ => true
  | overdue | failed => false

/-- Where the controller is. `stopped` is the local variable of `_run_execution`. -/
inductive Stage
  | created
  | refreshing
  | waiting
  | stopping
  | grace
  | killing
  | killed
  | aborting
  | verifying (stopped : Bool)
  | done
  deriving DecidableEq

inductive Runner
  | absent
  | running
  | ended (e : End)

structure Sys where
  cause : Option Cause
  stopEvent : Bool
  stage : Stage
  runner : Runner
  submitted : List Outcome
  /-- The handler ignored its cancellation. -/
  fatal : Bool

inductive Action
  | stop (cause : Cause)
  | ends (e : End)
  | dispatch (late : Bool)
  | renewal (reply : Reply)
  | wake (timedOut : Bool)
  | stopExecution (failed : Bool)
  | graceOver
  | kill (verified : Bool)
  | killOver
  | abortOver
  | verify (verified : Bool)

/-- A step of the controller itself, with the answers that it waits for. -/
def Action.own : Action → Bool
  | .stop _ | .ends _ => false
  | _ => true

namespace Sys

def init : Sys := ⟨none, false, .created, .absent, [], false⟩

variable (w : Env) (s : Sys)

/-- `stop`: the first cause wins. -/
def stop (cause : Cause) : Sys :=
  { s with cause := s.cause.or (some cause), stopEvent := true }

/-- The runner is created, and the controller waits for it. -/
def start : Sys := { s with stage := .waiting, runner := .running }

/-- `_complete`, where there is something to submit. -/
def submit (outcome : Option Outcome) : Sys :=
  { s with submitted := s.submitted ++ outcome.toList, stage := .done }

/-- `_renew_attempts` for this attempt. -/
def renewed : Reply → Sys
  | .overdue => s.stop .lost
  | .failed => s
  | .rejected => s.stop .lost
  | .confirmed cancelRequested => if cancelRequested then s.stop .cancel else s

/-- `_fresh_lease` after the renewal. -/
def refreshed (reply : Reply) : Sys :=
  let s := s.renewed reply
  if s.cause = some .lost then s.submit none
  else if !reply.answered then s.submit (some ⟨.release, none⟩)
  else s.start

/-- `_finish_stopped` and `_finish_completed`. An error that cannot be built ends the controller. -/
def finish (stopped : Bool) : Sys :=
  if stopped then
    match finishStopped s.cause w.timeout with
    | .ok outcome => s.submit outcome
    | .error _ => s.submit none
  else match s.runner with
    | .ended e => match finishCompleted w.str w.settings s.cause e with
      | .ok outcome => s.submit outcome
      | .error _ => s.submit none
    | _ => s

/-- The runner has ended or was given up: a sandbox must be dead before the outcome is written. -/
def conclude (stopped : Bool) : Sys :=
  if w.process then { s with stage := .verifying stopped } else s.finish w stopped

def runnerDone : Bool :=
  match s.runner with
  | .ended _ => true
  | _ => false

def step : Action → Option Sys
  | .stop cause => some (s.stop cause)
  | .ends e =>
      match s.runner with
      | .running => some { s with runner := .ended e }
      | _ => none
  | .dispatch late =>
      if s.stage = .created then some (if late then { s with stage := .refreshing } else s.start) else none
  | .renewal reply => if s.stage = .refreshing then some (s.refreshed reply) else none
  | .wake timedOut =>
      if s.stage = .waiting ∧ (s.runnerDone ∨ s.stopEvent ∨ timedOut) then
        if s.runnerDone then some (s.conclude w false)
        else some { s with cause := s.cause.or (some .timeout), stage := .stopping }
      else none
  -- A graceful stop that fails is logged.
  | .stopExecution _ => if s.stage = .stopping then some { s with stage := .grace } else none
  | .graceOver =>
      if s.stage = .grace then
        some (if s.runnerDone then s.conclude w true else { s with stage := .killing })
      else none
  | .kill _ => if s.stage = .killing then some { s with stage := .killed } else none
  | .killOver =>
      if s.stage = .killed then
        some (if s.runnerDone then s.conclude w true
          else if w.process then { s with stage := .aborting }
          else { s with fatal := true }.conclude w true)
      else none
  | .abortOver => if s.stage = .aborting then some (s.conclude w true) else none
  | .verify verified =>
      match s.stage with
      | .verifying stopped => some (if verified then s.finish w stopped else s)
      | _ => none

end Sys

/-! ## What an attempt should submit -/

/-- What decides the outcome. -/
inductive Ground
  /-- The renewal of a late dispatch, after which nothing runs. -/
  | renewal (reply : Reply)
  /-- The runner had not ended when the controller woke. -/
  | stopped
  | ended (e : End)

/-- A decision, and the stop requests up to it. -/
structure Verdict where
  asked : List Cause
  ground : Ground

/-- What the cause of a stop submits. -/
def stopKind : Option Cause → Option CompletionKind
  | some .timeout => some .fail
  | some .cancel => some .cancel
  | some .shutdown => some .release
  | _ => none

/-- What the end of the runner submits. -/
def endKind : End → CompletionKind
  | .result _ => .succeed
  | .raised _ .final => .failFinal
  | _ => .fail

/-- What a verdict submits. Where the end of the runner decides, the requests up to the submission count. -/
def Verdict.kind (v : Verdict) (closing : List Cause) : Option CompletionKind :=
  match v.ground with
  | .renewal .rejected => none
  | .renewal (.confirmed _) => none
  | .renewal _ => if v.asked.head? = some .lost then none else some .release
  | .stopped => stopKind v.asked.head?
  | .ended e => if closing.head? = some .lost then none else some (endKind e)

/-- An attempt and what has been seen of it. -/
structure History where
  sys : Sys
  asked : List Cause
  verdict : Option Verdict
  /-- The stop requests before the attempt was over. -/
  closing : List Cause

namespace History

variable (w : Env) (h : History)

def init : History := ⟨.init, [], none, []⟩

/-- The stop requests that an action makes. The timer makes one where nothing else did. -/
def asks : Action → List Cause
  | .stop cause => [cause]
  | .renewal .overdue => [.lost]
  | .renewal .rejected => [.lost]
  | .renewal (.confirmed true) => [.cancel]
  | .wake _ => if h.sys.runnerDone ∨ h.asked ≠ [] then [] else [.timeout]
  | _ => []

/-- The ground that an action gives. A confirmed renewal gives one only if the lease was lost meanwhile. -/
def ground : Action → Option Ground
  | .renewal (.confirmed cancelRequested) =>
      if h.asked.head? = some .lost then some (.renewal (.confirmed cancelRequested)) else none
  | .renewal reply => some (.renewal reply)
  | .wake _ => match h.sys.runner with
    | .ended e => some (.ended e)
    | _ => some .stopped
  | _ => none

/-- What is seen of an action that leads to `s`. The first verdict stays. -/
def next (action : Action) (s : Sys) : History where
  sys := s
  asked := h.asked ++ h.asks action
  verdict := h.verdict.or ((h.ground action).map (Verdict.mk (h.asked ++ h.asks action)))
  closing := if h.sys.stage = .done then h.closing else h.asked ++ h.asks action

def step (action : Action) : Option History := (h.sys.step w action).map (h.next action)

end History

/-- What `str()`, the formatter and the type of an exception have to give for an error. -/
def storable (str : Value → Except Raised Text) : End → Bool
  | .raised _ (.process metadata) =>
      (encode metadata.value).isOk ||
        match strOf str ((metadata.get typeKey).getD (.text (ofString "Exception"))) with
        | .ok t => Clean (t.take 64)
        | .error _ => false
  | .raised exc _ =>
      exc.str ≠ .error .base && exc.traceback ≠ .error .base && Clean (exc.qualname.take 64)
  | _ => true

/-- The step in which the end of the runner decides. -/
def Sys.ending (w : Env) (s : Sys) : Action → Bool
  | .wake _ => s.stage = .waiting && !w.process
  | .verify verified => s.stage = .verifying false && verified
  | _ => false

/-- No renewal is rejected after another stop request, and a runner does not decide with an error that cannot
be stored. -/
def Sys.orderly (w : Env) (s : Sys) (action : Action) : Bool :=
  match action, s.runner with
  | .renewal .rejected, _ => s.cause = none || s.cause = some .lost
  | action, .ended e => !s.ending w action || s.cause = some .lost || storable w.str e
  | _, _ => true

end Fronta.Attempt
