import Fronta.Library.Runs
import Fronta.Library.Table
import Fronta.Library.Unicode
import Mathlib.Data.List.Lex
import Mathlib.Data.List.Sort

/-!
# Coalescing hints

`Hints`: callers add to three sets, one background task swaps the sets out, sends them and merges them back
after a failure. Between two awaits nothing else happens, so a step runs from one await to the next.
`submitted`, `begun`, `delivered` and `gaveUp` only record what happened.
-/

namespace Fronta.Hints

open Sql Unicode

inductive Hint
  | wake (type : Text)
  | cancel (id : ℤ)
  | feed (state : Text)
  deriving DecidableEq

/-- What has to be encoded for the database. -/
def Hint.encodable : Hint → Bool
  | .wake t => t.all fun p => !p.surrogate
  | .cancel _ => true
  | .feed t => t.all fun p => !p.surrogate

/-- `_wake`, `_cancel` and `_feed`. -/
@[ext]
structure Pending where
  wake : List Text := []
  cancel : List ℤ := []
  feed : List Text := []
  deriving DecidableEq

namespace Pending

def update (p q : Pending) : Pending := ⟨p.wake ∪ q.wake, p.cancel ∪ q.cancel, p.feed ∪ q.feed⟩

def mem (p : Pending) : Hint → Prop
  | .wake t => t ∈ p.wake
  | .cancel i => i ∈ p.cancel
  | .feed t => t ∈ p.feed

instance : Membership Hint Pending := ⟨mem⟩

instance (p : Pending) : (h : Hint) → Decidable (h ∈ p)
  | .wake t => inferInstanceAs (Decidable (t ∈ p.wake))
  | .cancel i => inferInstanceAs (Decidable (i ∈ p.cancel))
  | .feed t => inferInstanceAs (Decidable (t ∈ p.feed))

/-- Every text can be encoded. -/
def encodable (p : Pending) : Bool :=
  p.wake.all (fun t => (Hint.wake t).encodable) && p.feed.all fun t => (Hint.feed t).encodable

/-- Nor does the database refuse one for a NUL. -/
def accepted (p : Pending) : Bool :=
  p.encodable && (p.wake ++ p.feed).all fun t => t.all fun c => c.val ≠ 0

end Pending

/-- A channel and a payload. -/
abbrev Notice := String × Text

/-- `",".join(sorted(feed))` -/
def joined (feed : List Text) : Text := (ofString ",").intercalate (feed.insertionSort (· ≤ ·))

def notices (batch : Pending) : List Notice :=
  batch.wake.map (fun t => ("fronta_wake", t)) ++
    batch.cancel.map (fun i => ("fronta_cancel", ofString (toString i))) ++
    if batch.feed = [] then [] else [("fronta_feed", joined batch.feed)]

/-- A hint is among some notices. A feed notice carries several. -/
def Carried (l : List Notice) : Hint → Prop
  | .wake t => ("fronta_wake", t) ∈ l
  | .cancel i => ("fronta_cancel", ofString (toString i)) ∈ l
  | .feed t => ∃ feed, t ∈ feed ∧ ("fronta_feed", joined feed) ∈ l

/-- How `_run` ends. -/
inductive Outcome
  | returned
  | raised
  | cancelled
  deriving DecidableEq

/-- `_task`: before its first step, at one of the awaits of `_run`, or ended. `dropping` closes the connection
after a failure, `finishing` in the `finally` block. -/
inductive Background
  | created (cancelled : Bool)
  | waiting
  | connecting (batch : Pending)
  | sending (batch : Pending)
  | dropping
  | sleeping
  | finishing (outcome : Outcome)
  | done (outcome : Outcome)
  deriving DecidableEq

def Background.isDone : Background → Bool
  | .done _ => true
  | _ => false

/-- A call of `close`: it waits for the task, goes on after it, has cancelled it and waits for its end, or has
ended. -/
inductive Closer
  | flushing
  | flushed (outcome : Outcome)
  | gathering (done : Bool)
  | ended
  | raised
  deriving DecidableEq

structure Sys where
  pending : Pending
  task : Option Background
  /-- `_task.cancel()` has been called, and its next step gets the cancellation. -/
  cancelling : Bool
  ready : Bool
  closing : Bool
  conn : Bool
  /-- In milliseconds. -/
  delay : ℕ
  closers : Table Closer
  /-- The hints with the number of sends that had begun. -/
  submitted : List (Hint × ℕ)
  begun : ℕ
  /-- The sends that succeeded, numbered as they began. -/
  delivered : List (ℕ × List Notice)
  gaveUp : Bool

inductive Action
  | wake (types : List Text)
  | cancel (ids : List ℤ)
  | feed (states : List Text)
  /-- The task goes on: its first step, or one after the end of an await. -/
  | goOn
  /-- `psycopg.Error` or `OSError` at the connection or the send. -/
  | fails
  /-- A text that cannot be encoded: an exception of another kind. -/
  | crashes
  /-- A cancelled task takes its next step. -/
  | interrupt
  | close (immediate : Bool)
  | timeout (x : ℕ)
  /-- A call of `close` goes on after one of its awaits. -/
  | resume (x : ℕ)
  /-- A caller of `close` is cancelled. -/
  | leave (x : ℕ)
  deriving DecidableEq

namespace Sys

def init : Sys where
  pending := {}
  task := none
  cancelling := false
  ready := false
  closing := false
  conn := false
  delay := 100
  closers := .empty
  submitted := []
  begun := 0
  delivered := []
  gaveUp := false

/-- The sets are empty. -/
def idle (s : Sys) : Bool := decide (s.pending = {})

/-- Whether `_schedule` starts a task. -/
def unmanned (s : Sys) : Bool := s.task.all Background.isDone

/-- `wake`, `cancel` and `feed` update one set and call `_schedule`. -/
def submit (s : Sys) (hints : Pending) (l : List Hint) : Sys :=
  { s with
    pending := s.pending.update hints
    ready := true
    task := if s.unmanned then some (.created false) else s.task
    cancelling := if s.unmanned then false else s.cancelling
    submitted := s.submitted ++ l.map fun h => (h, s.begun) }

/-- The task has ended: the calls of `close` that wait for it go on. -/
def done (s : Sys) (outcome : Outcome) : Sys :=
  { s with
    task := some (.done outcome)
    conn := false
    closers := s.closers.update fun _ c =>
      match c with
      | .flushing => some (.flushed outcome)
      | .gathering false => some (.gathering true)
      | _ => none }

/-- The `finally` block of `_run`. -/
def finish (s : Sys) (outcome : Outcome) : Sys :=
  if s.conn then { s with task := some (.finishing outcome) } else s.done outcome

/-- The loop of `_run` from its head to its next await. -/
def loop (s : Sys) : Sys :=
  if s.ready = false then { s with task := some .waiting }
  else if s.closing && s.idle then { s with ready := false }.finish .returned
  else
    { s with
      ready := false
      pending := {}
      begun := s.begun + 1
      task := some (if s.conn then .sending s.pending else .connecting s.pending) }

/-- `_run` after the end of what it awaits. -/
def advance (s : Sys) : Background → Option Sys
  | .created cancelled =>
      some (if cancelled then s.done .cancelled else { s with conn := false, delay := 100 }.loop)
  | .waiting => if s.ready then some s.loop else none
  | .connecting batch => some { s with conn := true, task := some (.sending batch) }
  | .sending batch =>
      if batch.accepted then
        some ({ s with
          delivered := s.delivered ++ [(s.begun - 1, notices batch)]
          delay := 100
          ready := s.closing || s.ready }).loop
      else none
  | .dropping => some { s with conn := false, task := some .sleeping }
  | .sleeping => some { s with delay := min 1000 (2 * s.delay) }.loop
  | .finishing outcome => some (s.done outcome)
  | .done _ => none

/-- The batch goes back to the sets. -/
def fail (s : Sys) (batch : Pending) : Sys :=
  { s with
    pending := s.pending.update batch
    ready := true
    task := some (if s.conn then .dropping else .sleeping) }

/-- `_task.cancel()` -/
def cancelTask (s : Sys) : Sys :=
  match s.task with
  | some (.created _) => { s with task := some (.created true) }
  | some (.done _) => s
  | some _ => { s with cancelling := true }
  | none => s

/-- `close` after its first wait: it cancels the task and waits for its end. -/
def gather (s : Sys) : Sys × Closer := (s.cancelTask, .gathering s.unmanned)

def setCloser (s : Sys) (x : ℕ) (c : Closer) : Sys :=
  { s with closers := s.closers.modify x fun _ => c }

/-- `close` up to its first await. -/
def close (s : Sys) (immediate : Bool) : Sys :=
  let s := { s with closing := true, ready := true }
  match s.task with
  | none => { s with pending := {}, closers := s.closers.insert .ended }
  | some task =>
      if immediate then
        { s.cancelTask with gaveUp := true, closers := s.closers.insert (.gathering task.isDone) }
      else
        match task with
        | .done .returned => { s with closers := s.closers.insert (.gathering true) }
        | .done _ => { s with closers := s.closers.insert .raised }
        | _ => { s with closers := s.closers.insert .flushing }

def step (s : Sys) : Action → Option Sys
  | .wake types => some (s.submit { wake := types } (types.map .wake))
  | .cancel ids => some (s.submit { cancel := ids } (ids.map .cancel))
  | .feed states => some (s.submit { feed := states } (states.map .feed))
  | .goOn => if s.cancelling then none else s.task.bind s.advance
  | .fails =>
      match s.task, s.cancelling with
      | some (.connecting batch), false => some (s.fail batch)
      | some (.sending batch), false => some (s.fail batch)
      | _, _ => none
  | .crashes =>
      match s.task, s.cancelling with
      | some (.sending batch), false => if batch.encodable then none else some (s.finish .raised)
      | _, _ => none
  | .interrupt =>
      match s.task with
      | some task =>
          if s.cancelling then
            some (match task with
              | .finishing _ => { s with cancelling := false }.done .cancelled
              | _ => { s with cancelling := false }.finish .cancelled)
          else none
      | none => none
  | .close immediate => some (s.close immediate)
  | .timeout x =>
      if s.closers.get x = some .flushing then
        some { s.gather.1.setCloser x s.gather.2 with gaveUp := true }
      else none
  | .resume x =>
      match s.closers.get x with
      | some (.flushed .returned) => some (s.gather.1.setCloser x s.gather.2)
      | some (.flushed _) => some (s.setCloser x .raised)
      | some (.gathering true) => some { s.setCloser x .ended with pending := {} }
      | _ => none
  | .leave x =>
      match s.closers.get x with
      | some .flushing => some (s.setCloser x .raised)
      | some (.flushed _) => some (s.setCloser x .raised)
      | some (.gathering _) => some (s.setCloser x .raised)
      | _ => none

/-- The batch of the send that is going on. -/
def inFlight (s : Sys) : Option Pending :=
  match s.task with
  | some (.connecting batch) => some batch
  | some (.sending batch) => some batch
  | _ => none

/-- The task waits for the flag, and the flag is not set. -/
def asleep (s : Sys) : Prop := s.task = some .waiting ∧ s.ready = false

/-- The task has decided to return, or a call of `close` is about to clear the sets. -/
def leaving (s : Sys) : Bool :=
  (match s.task with
    | some (.finishing _) => true
    | _ => false) ||
  s.closers.entries.any fun x =>
    match x.2 with
    | .flushed _ => true
    | .gathering _ => true
    | _ => false

/-- A hint is submitted while the task or a new one will still see it, and can be encoded. -/
def Timely (s : Sys) : Action → Prop
  | .wake types => s.leaving = false ∧ ∀ t ∈ types, (Hint.wake t).encodable
  | .cancel _ => s.leaving = false
  | .feed states => s.leaving = false ∧ ∀ t ∈ states, (Hint.feed t).encodable
  | _ => True

instance (s : Sys) : (action : Action) → Decidable (s.Timely action)
  | .wake types =>
      inferInstanceAs (Decidable (s.leaving = false ∧ ∀ t ∈ types, (Hint.wake t).encodable = true))
  | .cancel _ => inferInstanceAs (Decidable (s.leaving = false))
  | .feed states =>
      inferInstanceAs (Decidable (s.leaving = false ∧ ∀ t ∈ states, (Hint.feed t).encodable = true))
  | .goOn | .fails | .crashes | .interrupt | .close _ | .timeout _ | .resume _ | .leave _ => isTrue True.intro

end Sys

end Fronta.Hints
