import Fronta.Library.Wakeups
import Fronta.Worker.System

/-!
# The claim loop

`_claim_loop` of one worker between its awaits, with the event `_wake` and whoever sets it: notices, handlers that
enqueue, attempts that end and a shutdown. Commits are numbered. A notice comes after the commit that it announces.
-/

namespace Fronta.Polling

open Sql
open Worker (Ref)

structure Env where
  definitions : List Name
  pollIntervalS : ℚ
  pollIntervalS_pos : 0 < pollIntervalS

/-- What a pass has found: no free slot, or nothing in the tables after so many commits. -/
inductive Finding
  | full
  | nothing (seen : ℕ)
  | failed
  deriving DecidableEq

/-- Where `_claim_loop` is. `recovering` is in the release of orphans or in the sleep after a refused claim,
`releasing` in the release of rows that came too late. -/
inductive Phase
  | top
  | claiming
  | recovering
  | releasing
  | waiting (finding : Finding) (timeout : ℚ)
  | ended
  deriving DecidableEq

structure Sys where
  worker : Worker.Sys
  /-- `_wake` -/
  wake : Bool
  phase : Phase
  delay : ℚ
  /-- The waits that have timed out since the delay was set back. -/
  idle : ℕ
  commits : ℕ
  /-- The commits before the last claim. -/
  seen : ℕ
  /-- The commits that were announced to the worker. -/
  heard : List ℕ

inductive Action
  /-- The database and the controllers go on. -/
  | worker (action : Worker.Sys.Action)
  | begin (jitter : ℚ)
  | execute (now : Time) (clock : TaskId → Time) (leaseS : ℚ) (worker : Name) (tokens : TaskId → Token)
      (ids : List TaskId)
  | answer (jitter : ℚ)
  | fail
  | recover (jitter : ℚ)
  | released
  | awake
  | timeout
  | notice (payload : Name) (commit : ℕ)
  | enqueued (name : Name) (commit : ℕ)
  | attemptDone (x : Ref)
  | requestShutdown

namespace Sys

variable (w : Env)

def initial : ℚ := min (1 / 20) w.pollIntervalS

def init (concurrency : ℕ) (db : Db) : Sys :=
  ⟨.init concurrency db, false, .top, initial w, 0, 0, 0, []⟩

variable (s : Sys)

/-- What goes on beside the loop. -/
def beside : Worker.Sys.Action → Bool
  | .statement _ | .expire _ | .renew .. | .stop .. | .finish _ => true
  | _ => false

def free : ℕ := s.worker.concurrency - s.worker.attempts.entries.length

/-- The end of a pass that has started nothing. -/
def wait (finding : Finding) (jitter : ℚ) : Sys :=
  { s with
    phase :=
      if s.worker.stopping then .ended else .waiting finding (min w.pollIntervalS (s.delay * jitter)) }

/-- `delay = initial` -/
def again : Sys := { s with phase := .top, delay := initial w, idle := 0 }

/-- `_on_notify` on the wake channel. -/
def concerns (payload : Name) : Bool := payload = "" || w.definitions.contains payload

/-- `_wake.set()` after the announcement of a commit. -/
def hear (commit : ℕ) : Sys := { s with wake := true, heard := commit :: s.heard }

/-- `random.uniform(0.8, 1.2)` -/
def uniform (jitter : ℚ) : Bool := 4 / 5 ≤ jitter && jitter ≤ 6 / 5

def step : Action → Option Sys
  | .worker action =>
      if beside action then
        (s.worker.step action).map fun worker => { s with worker := worker, commits := s.commits + 1 }
      else none
  | .begin jitter =>
      if s.phase = .top ∧ uniform jitter then
        if s.worker.stopping then some { s with phase := .ended }
        else
          let s := { s with wake := false }
          if 0 < s.free then (s.worker.step .claim).map fun worker => { s with worker := worker, phase := .claiming }
          else some (s.wait w .full jitter)
      else none
  | .execute now clock leaseS worker tokens ids =>
      if s.phase = .claiming then
        (s.worker.step (.execute now clock leaseS worker tokens ids)).map fun worker =>
          { s with worker := worker, seen := s.commits, commits := s.commits + 1 }
      else none
  | .answer jitter =>
      if s.phase = .claiming ∧ uniform jitter then
        match s.worker.call with
        | some (.executed rows) =>
            (s.worker.step .dispatch).map fun worker =>
              let s := { s with worker := worker }
              if worker.stopping then { s with phase := .releasing }
              else if rows = [] then s.wait w (.nothing s.seen) jitter
              else s.again w
        | _ => none
      else none
  | .fail =>
      if s.phase = .claiming then
        (s.worker.step .claimFailed).map fun worker => { s with worker := worker, phase := .recovering }
      else none
  | .recover jitter => if s.phase = .recovering ∧ uniform jitter then some (s.wait w .failed jitter) else none
  | .released => if s.phase = .releasing then some { s with phase := .ended } else none
  | .awake =>
      match s.phase with
      | .waiting .. => if s.wake then some (s.again w) else none
      | _ => none
  | .timeout =>
      match s.phase with
      | .waiting .. =>
          some { s with phase := .top, delay := min w.pollIntervalS (s.delay * 2), idle := s.idle + 1 }
      | _ => none
  | .notice payload commit =>
      if commit ≤ s.commits then some (if concerns w payload then s.hear commit else s) else none
  -- `TaskContext.enqueue`
  | .enqueued name commit =>
      if commit ≤ s.commits then some (if w.definitions.contains name then s.hear commit else s) else none
  | .attemptDone x =>
      (s.worker.step (.attemptDone x)).map fun worker => { s with worker := worker, wake := true }
  | .requestShutdown =>
      (s.worker.step .requestShutdown).map fun worker => { s with worker := worker, wake := true }

/-- `_wake.set()` -/
def sets (_ : Sys) : Action → Bool
  | .notice payload _ => concerns w payload
  | .enqueued name _ => w.definitions.contains name
  | .attemptDone _ | .requestShutdown => true
  | _ => false

/-- `_wake.clear()` -/
def clears : Action → Bool
  | .begin _ => !s.worker.stopping
  | _ => false

/-- What a pass has found holds still. -/
def Finds : Finding → Prop
  | .full => s.worker.concurrency ≤ s.worker.attempts.entries.length
  | .nothing seen => ∀ commit ∈ s.heard, commit ≤ seen
  | .failed => True

end Sys

end Fronta.Polling
