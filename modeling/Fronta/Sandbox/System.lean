import Fronta.Library.Runs
import Fronta.Library.Table

/-!
# One sandboxed attempt

The processes of one sandbox (bwrap and its init), `ProcessExecution` with its `SandboxProcess`, any number
of calls of `kill`, and the controller that settles the attempt. A process dies whenever it does, asked or
not. The runner takes its first step before the controller that created it goes on.
-/

namespace Fronta.Sandbox

open Sql

abbrev CallId := ℕ

/-- A process: not started yet, running, or dead. -/
inductive Life
  | absent
  | alive
  | gone
  deriving DecidableEq

/-- bwrap and the init of its sandbox. -/
structure Host where
  outer : Life := .absent
  init : Life := .absent
  deriving DecidableEq

/-- Something of the sandbox runs, or bwrap may still start it. -/
def Host.alive (host : Host) : Bool :=
  host.init = .alive || (host.init = .absent && host.outer = .alive)

/-! ## Pidfds -/

/-- What `Pidfd.open` meets: `error` is an `OSError` other than `ESRCH`. -/
inductive Opened
  | fd
  | gone
  | error
  deriving DecidableEq

/-- What the read of `/proc/{pid}/environ` meets. -/
inductive Environ
  | marked
  | other
  | unreadable
  deriving DecidableEq

structure Lookup where
  opened : Opened
  environ : Environ
  deriving DecidableEq

namespace Lookup

/-- `_environ_has` -/
def environHas (l : Lookup) : Bool :=
  match l.environ with
  | .marked => true
  | .other => false
  | .unreadable => false

/-- `_open_marked`: whether it returns a pidfd. -/
def openMarked (l : Lookup) : Bool :=
  match l.opened with
  | .error => false
  | .gone => false
  | .fd => l.environHas

/-- The system never calls a process gone that is not, and a pid is not reused before. -/
def truthful (l : Lookup) (life : Life) : Bool :=
  life = .gone || (l.opened ≠ .gone && l.environ ≠ .other)

end Lookup

/-! ## `SandboxProcess` and `ProcessExecution` -/

structure SandboxProcess where
  initPidfd : Bool
  outerPidfd : Bool
  dead : Bool := false
  deriving DecidableEq

namespace SandboxProcess

/-- `_close_fds` -/
def closeFds (p : SandboxProcess) : SandboxProcess :=
  { p with outerPidfd := false, initPidfd := p.initPidfd && !p.dead }

/-- `kill` up to the wait for the init: what it returns, or `none` where it waits. -/
def kill (p : SandboxProcess) : Option Bool × SandboxProcess :=
  if p.dead then (some true, p)
  else if p.initPidfd then (none, p)
  else (some true, { p with dead := true })

/-- `kill` after `wait_exit` -/
def waited (p : SandboxProcess) (exited : Bool) : SandboxProcess :=
  let p := { p with dead := exited }
  if p.dead then p.closeFds else p

end SandboxProcess

/-- Where `ProcessExecution.run` is: `exec` to `aborting` are inside `spawn`, `stopping` waits for a `stop` that
came meanwhile, and `running` to `cleanup` are inside the `run` of the `SandboxProcess`. -/
inductive Stage
  | idle
  | exec
  | starting (outerPidfd : Bool)
  | aborting
  | stopping
  | running
  | drained
  | cleanup (k : CallId)
  | ended
  deriving DecidableEq

structure ProcessExecution where
  stage : Stage := .idle
  proc : Option SandboxProcess := none
  stopped : Bool := false
  spawning : Bool := false
  deriving DecidableEq

namespace ProcessExecution

/-- `run` leaves `spawn` with a process. -/
def spawned (e : ProcessExecution) (p : SandboxProcess) : ProcessExecution :=
  { e with stage := if e.stopped then .stopping else .running, proc := some p, spawning := false }

/-- `run` leaves `spawn` without a process. -/
def spawnFailed (e : ProcessExecution) : ProcessExecution :=
  { e with stage := .ended, spawning := false }

/-- `kill` once it does not wait for the spawn any more. -/
def kill (e : ProcessExecution) : Option Bool × ProcessExecution :=
  if e.spawning then (some false, e)
  else
    match e.proc with
    | none => (some true, e)
    | some p => (p.kill.1, { e with proc := some p.kill.2 })

/-- Change the `SandboxProcess`. -/
def modify (e : ProcessExecution) (f : SandboxProcess → SandboxProcess) : ProcessExecution :=
  { e with proc := e.proc.map f }

end ProcessExecution

/-! ## The attempt -/

/-- The loop of `_run_execution` that verifies the death, the cleanup of `run`, or anyone else. -/
inductive Caller
  | verify
  | cleanup
  | other
  deriving DecidableEq

/-- What a call of `kill` waits for. -/
inductive Wait
  | spawned
  | exit
  deriving DecidableEq

structure Call where
  caller : Caller
  wait : Wait
  deriving DecidableEq

/-- What a call of `kill` returned, and whether the sandbox was alive then. -/
structure Answer where
  verified : Bool
  alive : Bool
  deriving DecidableEq

/-- Where the controller is: before the verified death, after it, with its completion submitted, cut
short before the verified death, or ended with its slot free. -/
inductive Controller
  | running
  | verified
  | submitted
  | cancelled
  | freed
  deriving DecidableEq

structure Sys where
  host : Host
  execution : ProcessExecution
  calls : Table Call
  answers : List Answer
  controller : Controller

inductive Action
  | start
  | startInit
  | exitOuter
  | exitInit
  | run
  | invalid
  | spawned (l : Lookup)
  | notSpawned
  | status (l : Lookup)
  | noStatus
  | aborted
  | stop
  | signalled
  | drain
  | wait
  | cleaned
  | interrupt
  | kill (caller : Caller)
  | wake (k : CallId)
  | exited (k : CallId)
  | timeout (k : CallId)
  | drop (k : CallId)
  | cancel
  | submit
  | free
  deriving DecidableEq

namespace Sys

def init : Sys := ⟨{}, {}, .empty, [], .running⟩

variable (s : Sys)

/-- A call of `kill` returns: the loop of the controller ends with the first verified death. -/
def answer (caller : Caller) (verified : Bool) : Sys :=
  { s with
    answers := s.answers ++ [⟨verified, s.host.alive⟩]
    controller :=
      if caller = .verify ∧ verified = true ∧ s.controller = .running then .verified
      else s.controller }

def removeCall (k : CallId) : Sys := { s with calls := s.calls.erase fun k' _ => k' = k }

/-- A call goes on with the process: it returns or waits for the exit of the init. -/
def proceed (caller : Caller) (verdict : Option Bool × ProcessExecution) : Sys :=
  let s := { s with execution := verdict.2 }
  match verdict.1 with
  | some verified => s.answer caller verified
  | none => { s with calls := s.calls.insert ⟨caller, .exit⟩ }

/-- `ProcessExecution.kill` -/
def kill (caller : Caller) : Sys :=
  if s.execution.spawning then { s with calls := s.calls.insert ⟨caller, .spawned⟩ }
  else s.proceed caller s.execution.kill

/-- `SandboxProcess.kill` when `run` breaks off, then `_close_fds`. -/
def breakOff (p : SandboxProcess) : Sys :=
  match p.kill with
  | (some verified, p) =>
      { s with execution := { s.execution with proc := some p.closeFds, stage := .ended } }.answer
        .cleanup verified
  | (none, p) =>
      { s with
        execution := { s.execution with proc := some p, stage := .cleanup s.calls.next }
        calls := s.calls.insert ⟨.cleanup, .exit⟩ }

/-- The runner is cancelled, or what it awaits fails. -/
def interrupt : Option Sys :=
  match s.execution.stage, s.execution.proc with
  | .idle, _ => some { s with execution := { s.execution with stage := .ended } }
  | .exec, _ => some { s with execution := s.execution.spawnFailed }
  | .starting _, _ => some { s with execution := { s.execution with stage := .aborting } }
  | .aborting, _ => some { s with execution := s.execution.spawnFailed }
  | .stopping, _ => some { s with execution := { s.execution with stage := .ended } }
  | .running, some p => some (s.breakOff p)
  | .drained, some p => some (s.breakOff p)
  | .cleanup k, some p =>
      some { s.removeCall k with
        execution := { s.execution with proc := some p.closeFds, stage := .ended } }
  | _, _ => none

/-- The processes start and die. bwrap starts the init and exits when it likes. -/
def hostStep : Action → Option Host
  | .start =>
      if s.execution.stage = .exec ∧ s.host.outer = .absent then some { s.host with outer := .alive }
      else none
  | .startInit =>
      if s.host.outer = .alive ∧ s.host.init = .absent then some { s.host with init := .alive } else none
  | .exitOuter => if s.host.outer = .alive then some { s.host with outer := .gone } else none
  | .exitInit => if s.host.init = .alive then some { s.host with init := .gone } else none
  | _ => none

/-- `ProcessExecution.run` -/
def runStep : Action → Option ProcessExecution
  | .run =>
      if s.execution.stage = .idle then some { s.execution with stage := .exec, spawning := true }
      else none
  -- `validate_input` fails.
  | .invalid => if s.execution.stage = .idle then some { s.execution with stage := .ended } else none
  | .spawned l =>
      if s.execution.stage = .exec ∧ s.host.outer ≠ .absent ∧ l.truthful s.host.outer = true then
        some { s.execution with stage := .starting l.openMarked }
      else none
  | .notSpawned =>
      if s.execution.stage = .exec ∧ s.host = {} then some s.execution.spawnFailed else none
  -- bwrap tells the pid of the init that it started.
  | .status l =>
      match s.execution.stage with
      | .starting outerPidfd =>
          if s.host.init ≠ .absent ∧ l.truthful s.host.init = true then
            some (s.execution.spawned ⟨l.openMarked, outerPidfd, false⟩)
          else none
      | _ => none
  -- bwrap gave up, or the time for the status line is over.
  | .noStatus =>
      match s.execution.stage with
      | .starting _ => some { s.execution with stage := .aborting }
      | _ => none
  | .aborted => if s.execution.stage = .aborting then some s.execution.spawnFailed else none
  -- The processes of the sandbox may die of the signal, like at any other time.
  | .stop => some { s.execution with stopped := true }
  | .signalled => if s.execution.stage = .stopping then some { s.execution with stage := .running } else none
  -- The init holds both pipes for as long as it lives.
  | .drain =>
      if s.execution.stage = .running ∧ s.host.init = .gone then
        some { s.execution with stage := .drained }
      else none
  | .wait =>
      if s.execution.stage = .drained ∧ s.host.outer = .gone then
        some { s.execution.modify fun p => { p with dead := true }.closeFds with stage := .ended }
      else none
  | .cleaned =>
      match s.execution.stage with
      | .cleanup k =>
          if s.calls.get k = none then
            some { s.execution.modify SandboxProcess.closeFds with stage := .ended }
          else none
      | _ => none
  | _ => none

/-- A call of `kill` waits. -/
def callStep : Action → Option Sys
  | .wake k =>
      (s.calls.get k).bind fun call =>
        if call.wait = .spawned then
          some ((s.removeCall k).proceed call.caller s.execution.kill)
        else none
  | .exited k =>
      (s.calls.get k).bind fun call =>
        if call.wait = .exit ∧ s.host.init = .gone then
          some ({ s.removeCall k with execution := s.execution.modify (·.waited true) }.answer
            call.caller true)
        else none
  | .timeout k =>
      (s.calls.get k).bind fun call =>
        if call.wait = .exit then
          some ({ s.removeCall k with execution := s.execution.modify (·.waited false) }.answer
            call.caller false)
        else none
  -- The caller is cancelled, or the call fails.
  | .drop k => (s.calls.get k).map fun _ => s.removeCall k
  | _ => none

def step : Action → Option Sys
  | .kill caller =>
      if caller = .other ∨
          (caller = .verify ∧ s.controller = .running ∧ s.execution.stage ≠ .idle) then
        some (s.kill caller)
      else none
  | .interrupt => s.interrupt
  | .cancel => if s.controller = .running then some { s with controller := .cancelled } else none
  | .submit => if s.controller = .verified then some { s with controller := .submitted } else none
  -- A lost attempt submits nothing.
  | .free =>
      if s.controller ∈ [.verified, .submitted, .cancelled] then some { s with controller := .freed }
      else none
  | .wake k => s.callStep (.wake k)
  | .exited k => s.callStep (.exited k)
  | .timeout k => s.callStep (.timeout k)
  | .drop k => s.callStep (.drop k)
  | .start => (s.hostStep .start).map fun host => { s with host := host }
  | .startInit => (s.hostStep .startInit).map fun host => { s with host := host }
  | .exitOuter => (s.hostStep .exitOuter).map fun host => { s with host := host }
  | .exitInit => (s.hostStep .exitInit).map fun host => { s with host := host }
  | action => (s.runStep action).map fun execution => { s with execution := execution }

/-- The init of a started sandbox is pinned or gone, a spawn that fails leaves nothing behind, and the
controller is not cut short before it has verified the death. -/
def clean : Action → Bool
  | .status l => l.openMarked || s.host.init = .gone
  | .aborted => !s.host.alive
  | .interrupt => match s.execution.stage with
    | .exec => !s.host.alive
    | .aborting => !s.host.alive
    | _ => true
  | .cancel => false
  | _ => true

end Sys

end Fronta.Sandbox
