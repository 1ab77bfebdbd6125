import Mathlib.Data.List.Dedup
import Fronta.Library.Runs
import Fronta.Store.Statements

/-!
# Workers that race on one queue

Any number of workers run statements in any order. A batched completion stays in the hands of
`fenced_write`, which repeats it while the outcome is unknown: a try fails before its commit, commits
with its response lost, is answered, or is the last one before an abort or a permanent failure.
`issued` and `endings` record the history of tokens.
-/

namespace Fronta.Fencing

open Sql

abbrev WriteId := ℕ

structure Sys where
  db : Db
  /-- The completion batches that `fenced_write` still repeats. -/
  writes : Table (List Completion)
  /-- The tokens that claims gave out. -/
  issued : List Token
  /-- The tokens of the attempts that a transition ended, once for each such transition. -/
  endings : List Token

namespace Sys

def init : Sys := ⟨.init, .empty, [], []⟩

/-- How one try of a fenced write ends. -/
inductive Try
  | failed
  | lost
  | answered
  | abandoned
  deriving DecidableEq

inductive Action
  | statement (op : Op)
  | submit (completions : List Completion)
  | attempt (w : WriteId) (outcome : Try) (now : Time) (jitter : TaskId → ℚ)

/-- The token of the attempt that the change of a row ended. -/
def endedBy (t : Row) (after : Option Row) : Option Token :=
  if t.state = .running ∧ after.any (·.state ≠ .running) then t.token else none

/-- The tokens that a claim would store. -/
def tokensOf : Op → List Token
  | .claim _ _ _ _ tokens ids => ids.dedup.map tokens
  | _ => []

/-- Execute a statement, recording the tokens that it issues and the attempts that it ends. -/
def execute (s : Sys) (op : Op) : Sys :=
  { s with
    db := s.db.exec op
    issued := s.issued ++ tokensOf op
    endings := s.endings ++
      s.db.tasks.entries.filterMap fun x => endedBy x.2 ((s.db.exec op).tasks.get x.1) }

/-- `gen_random_uuid()` never repeats: a claim's tokens are new and distinct. -/
def fresh (s : Sys) (op : Op) : Prop := (s.issued ++ tokensOf op).Nodup

instance (s : Sys) (op : Op) : Decidable (s.fresh op) :=
  inferInstanceAs (Decidable (s.issued ++ tokensOf op).Nodup)

def step (s : Sys) : Action → Option Sys
  | .statement op =>
      if s.fresh op then some (s.execute op) else none
  | .submit completions => some { s with writes := s.writes.insert completions }
  | .attempt w outcome now jitter =>
      (s.writes.get w).map fun completions =>
        match outcome with
        | .failed => s
        | .lost => s.execute (.complete now jitter completions)
        | .answered =>
            { s.execute (.complete now jitter completions) with
              writes := s.writes.erase fun i _ => i = w }
        | .abandoned => { s with writes := s.writes.erase fun i _ => i = w }

/-- The token is the current one of the row's running attempt. -/
def Valid (s : Sys) (id : TaskId) (token : Token) : Prop :=
  ∃ t, s.db.tasks.get id = some t ∧ t.state = .running ∧ t.token = some token

end Sys

end Fronta.Fencing
