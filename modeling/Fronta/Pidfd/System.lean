import Fronta.Library.Runs
import Fronta.Library.Table

/-!
# A process handle and its waiters

`Pidfd.wait_exit` and `Pidfd.close` on an event loop that keeps one reader for a descriptor. Between two awaits
nothing else happens, so a step runs from one await to the next. `requested`, `closes` and what a wait knows of the
exit only record what happened.
-/

namespace Fronta.Pidfd

open Sql

abbrev Ref := ℕ

/-- How `wait_exit` ends. -/
inductive Outcome
  | returned (exited : Bool)
  | cancelled
  /-- `remove_reader` of a negative descriptor: `ValueError`. -/
  | raised
  deriving DecidableEq

/-- A call of `wait_exit`. -/
structure Wait where
  /-- `exited` has its result. -/
  told : Bool := false
  /-- The timer of `wait_for` has fired. -/
  timedOut : Bool := false
  /-- The caller was cancelled. -/
  cancelled : Bool := false
  outcome : Option Outcome := none
  /-- The process had exited when the timer fired, or else when the wait ended. -/
  exited : Bool := false
  deriving DecidableEq

structure Sys where
  fd : ℤ
  /-- `_waiting` -/
  waiting : Bool
  /-- `_close_requested` -/
  closeRequested : Bool
  /-- The wait whose callback the loop keeps for the descriptor. -/
  reader : Option Ref
  /-- The process has exited, which makes the descriptor readable. -/
  exited : Bool
  waits : Table Wait
  /-- `close` was called from outside. -/
  requested : Bool
  /-- The calls of `os.close`. -/
  closes : ℕ

inductive Action
  /-- `wait_exit` up to its await. -/
  | wait
  | exit
  /-- The loop runs the callback of its reader. -/
  | ready
  | timer (x : Ref)
  | cancel (x : Ref)
  /-- `wait_exit` after its await. -/
  | resume (x : Ref)
  | close
  deriving DecidableEq

namespace Sys

def init (fd : ℕ) : Sys := ⟨fd, false, false, none, false, .empty, false, 0⟩

variable (s : Sys)

/-- Change one wait. -/
def modify (x : Ref) (f : Wait → Wait) : Sys :=
  { s with waits := s.waits.modify x f }

/-- `close` -/
def close : Sys :=
  if s.waiting then { s with closeRequested := true }
  else if 0 ≤ s.fd then
    { s with
      fd := -1
      closes := s.closes + 1 }
  else s

/-- `wait_exit` up to its await: the new reader takes the place of another one. -/
def waitExit : Sys :=
  if s.fd < 0 then
    { s with waits := s.waits.insert { outcome := some (.returned true), exited := s.exited } }
  else
    { s with
      waits := s.waits.insert {}
      waiting := true
      reader := some s.waits.next }

/-- What `wait_for` gives: a cancellation comes before a timeout, and that before the result. -/
def verdict (w : Wait) : Outcome :=
  if w.cancelled then .cancelled else if w.timedOut then .returned false else .returned true

/-- The wait has ended. -/
def ended (x : Ref) (outcome : Outcome) : Sys :=
  s.modify x fun w =>
    { w with
      outcome := some outcome
      exited := if w.timedOut then w.exited else s.exited }

/-- `wait_exit` after its await. Where `remove_reader` raises, the rest of `finally` is left out. -/
def finish (x : Ref) (w : Wait) : Sys :=
  if s.fd < 0 then s.ended x .raised
  else
    let s := { s.ended x (verdict w) with
      reader := none
      waiting := false }
    if s.closeRequested then s.close else s

/-- The wait is in progress. -/
def pending (x : Ref) : Option Wait := (s.waits.get x).filter fun w => w.outcome.isNone

def step : Action → Option Sys
  | .wait => some s.waitExit
  | .exit => if s.exited then none else some { s with exited := true }
  | .ready =>
      match s.reader with
      | some x => if s.exited then some (s.modify x fun w => { w with told := true }) else none
      | none => none
  | .timer x => (s.pending x).bind fun w =>
      if w.timedOut then none
      else some (s.modify x fun w =>
        { w with
          timedOut := true
          exited := s.exited })
  | .cancel x => (s.pending x).map fun _ => s.modify x fun w => { w with cancelled := true }
  | .resume x => (s.pending x).bind fun w =>
      if w.told || w.timedOut || w.cancelled then some (s.finish x w) else none
  | .close => some { s.close with requested := true }

/-- No wait is in progress. -/
def Idle : Prop := ∀ x ∈ s.waits.entries, x.2.outcome ≠ none

instance : Decidable s.Idle := inferInstanceAs (Decidable (∀ x ∈ s.waits.entries, _))

/-- Waits do not overlap, none begins on a handle that was closed before the exit, and no timer fires between the
exit and the resumption of its wait. -/
def Calm : Action → Prop
  | .wait => s.Idle ∧ (s.fd < 0 → s.exited = true)
  | .timer x => ((s.waits.get x).all fun w => w.cancelled || !s.exited) = true
  | _ => True

instance : (action : Action) → Decidable (s.Calm action)
  | .wait => inferInstanceAs (Decidable (_ ∧ (_ → _)))
  | .timer _ => inferInstanceAs (Decidable (_ = true))
  | .exit | .ready | .cancel _ | .resume _ | .close => isTrue True.intro

end Sys

/-- What a handle promises: its descriptor is open while a wait is in progress, no wait ends with an error, a wait
returns whether the process exited before its timeout, and a requested close is performed once, when no wait is in
progress any more. -/
structure Promised (s : Sys) : Prop where
  held : ∀ x w, s.waits.get x = some w → w.outcome = none → 0 ≤ s.fd
  errors : ∀ x w, s.waits.get x = some w → w.outcome ≠ some .raised
  answers : ∀ x w exited, s.waits.get x = some w → w.outcome = some (.returned exited) → exited = w.exited
  once : s.closes ≤ 1
  asked : s.closes = 1 → s.requested = true
  performed : s.requested = true → s.Idle → s.closes = 1 ∧ s.fd < 0

end Fronta.Pidfd
