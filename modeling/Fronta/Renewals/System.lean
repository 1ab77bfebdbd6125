import Fronta.Lease.System
import Fronta.Library.Wakeups

/-!
# The renewal loop

`_renewals` with the event `_renew_now` and its interval, over the leases of one worker. A pass begins where the
loop clears the event and collects what is due.
-/

namespace Fronta.Renewals

open Sql Lease
open Worker (Cause Ref)

structure Env extends Lease.Env where
  statementTimeoutS : ℚ
  statementTimeoutS_pos : 0 < statementTimeoutS

/-- `renew_timeout_s` -/
def Env.renewTimeoutS (w : Env) : ℚ := min w.statementTimeoutS (max (1 / 20) ((w.leaseS - w.heartbeatS) / 2))

structure Sys where
  lease : Lease.Sys
  /-- `_renew_now` -/
  renewNow : Bool
  /-- When the last pass began, by the clock of the worker. -/
  started : Time

namespace Sys

variable (w : Env)

def init : Sys := ⟨.init, false, w.skew⟩

variable (s : Sys)

/-- `time.monotonic()` -/
def now : Time := s.lease.monotonic w.toEnv

def step (action : Action) : Option Sys :=
  (s.lease.step w.toEnv action).map fun lease =>
    { lease := lease
      renewNow :=
        match action with
        | .hint i => s.renewNow || (s.lease.attempts.lookup i).isSome
        | .collect _ => false
        | _ => s.renewNow
      started :=
        match action with
        | .collect _ => s.now w
        | _ => s.started }

/-- `_renew_now.set()` -/
def sets : Action → Bool
  | .hint i => (s.lease.attempts.lookup i).isSome
  | _ => false

/-- `_renew_now.clear()` -/
def clears (_ : Sys) : Action → Bool
  | .collect _ => true
  | _ => false

/-- The loop waits for `_renew_now`, which is not set. -/
def asleep : Bool :=
  match s.lease.loop with
  | .idle => !s.renewNow
  | _ => false

/-- An attempt that renewals are for: in the map, neither settled nor lost, and before its deadline. -/
def Tracks (i : TaskId) (x : Ref) : Prop :=
  s.lease.attempts.lookup i = some x ∧ ∃ a, s.lease.objects.get x = some a ∧ a.settled = false ∧
    a.cause ≠ some .lost ∧ a.overdue w.leaseS (s.now w) = false

/-! ## Timing -/

/-- The loop is late by at most `lag`: the next pass begins in time, every call ends within its budget, and there
is no wait between a pass and its call. A pass is one call, and nobody gives up a call of the loop. -/
def punctual (lag : ℚ) : Action → Bool
  | .advance t =>
      t + w.skew ≤ s.started + max (w.heartbeatS / 2) w.renewTimeoutS + lag &&
        (match s.lease.loop with
          | .sending (_ :: _) => t = s.lease.clock
          | _ => true) &&
        s.lease.calls.entries.all fun c =>
          !c.2.waiting || t + w.skew ≤ c.2.started + w.renewTimeoutS + lag
  | .collect due => due.length ≤ 1000
  | .giveUp c =>
      (s.lease.calls.get c).all fun call =>
        match call.waiter with
        | .loop _ => false
        | .attempt _ => true
  | _ => true

end Sys

end Fronta.Renewals
