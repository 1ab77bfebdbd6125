import Fronta.Fencing.System
import Fronta.Worker.System

/-!
# Releasing orphans

After a lost response of a claim the worker releases the rows that run under its id and that it does not
list as live, page by page, before the next claim. `fenced_write` starts over while the connection fails;
a page whose answer is lost may still take its snapshot and commit. A claim that fails has committed by
then, or never does. `issued` and `owed` only record what happened.
-/

namespace Fronta.Orphans

open Sql
open Worker (Ref)

abbrev PageId := ℕ

/-- A statement `_ORPHANS`: the live rows that it got, the outcomes that its snapshot chose and the rows
that it returned. -/
structure Page where
  live : List TaskId
  outcomes : Option (List Completion) := none
  returned : Option (List Applied) := none

/-- A call of `_release_orphans`. -/
structure Release where
  pages : Table Page
  /-- The page that the worker waits for. -/
  current : Option PageId
  /-- The rows that ran under the worker's id when the call began, with tokens that no unfinished attempt
  held. -/
  owed : List (TaskId × Token)

structure Sys where
  worker : Worker.Sys
  /-- `worker_id`, unique per instance. -/
  name : Name
  /-- The tokens that claims gave out. -/
  issued : List Token
  release : Option Release

inductive Action
  | worker (action : Worker.Sys.Action)
  | lose
  | page
  | select (n : PageId)
  | commit (n : PageId) (now : Time) (jitter : TaskId → ℚ)
  | fail
  | reply
  | abandon

namespace Sys

def init (concurrency : ℕ) (name : Name) : Sys := ⟨.init concurrency .init, name, [], none⟩

variable (s : Sys)

/-- An unfinished attempt of the row has this token. -/
def holds (i : TaskId) (token : Token) : Bool :=
  s.worker.unfinished.any fun x => x.2.row = i && x.2.token = token

/-- The row runs under this worker's id. -/
def mine (t : Row) : Bool := t.state = .running && t.worker = some s.name

/-- The tokens of this worker's running rows that no unfinished attempt holds. -/
def unheld : List (TaskId × Token) :=
  (s.worker.db.tasks.entries.filter fun x => s.mine x.2).filterMap fun x =>
    x.2.token.bind fun token => if s.holds x.1 token then none else some (x.1, token)

/-- The statement that an action of the worker or of another party executes. -/
def executes : Worker.Sys.Action → Option Op
  | .statement op => some op
  | .execute now clock leaseS worker tokens ids => some (.claim now clock leaseS worker tokens ids)
  | _ => none

/-- Only this worker claims under its id and releases its rows, and its claims wait for a release. -/
def admits : Worker.Sys.Action → Bool
  | .statement (.claim _ _ _ worker _ _) => worker ≠ s.name
  | .statement (.releaseOrphans _ _ worker _) => worker ≠ s.name
  | .execute _ _ _ worker _ _ => worker = s.name
  | .claim => s.release.isNone
  | _ => true

/-- `gen_random_uuid()` never repeats. -/
def fresh (tokens : List Token) : Bool := (s.issued ++ tokens).Nodup

def page (n : PageId) : Option Page := s.release.bind fun r => r.pages.get n

def modifyPage (r : Release) (n : PageId) (f : Page → Page) : Release :=
  { r with pages := r.pages.modify n f }

/-- A step of the worker or of another party. -/
def act (action : Worker.Sys.Action) : Option Sys :=
  let tokens := (executes action).elim [] Fencing.Sys.tokensOf
  if s.admits action && s.fresh tokens then
    (s.worker.step action).map fun worker =>
      { s with worker := worker, issued := s.issued ++ tokens }
  else none

/-- The connection of a claim fails: `_release_orphans` begins. -/
def lose : Option Sys :=
  if s.release.isNone then
    (s.worker.step .claimFailed).map fun worker =>
      { s with worker := worker, release := some ⟨.empty, none, s.unheld⟩ }
  else none

/-- The next page, or the first one of another try. -/
def send : Option Sys :=
  s.release.bind fun r =>
    if r.current.isNone then
      some { s with
        release := some { r with
          pages := r.pages.insert { live := s.worker.attempts.keys }
          current := some r.pages.next } }
    else none

/-- The snapshot of a page. -/
def select (n : PageId) : Option Sys :=
  s.release.bind fun r =>
    match r.pages.get n with
    | some ⟨live, none, none⟩ =>
        some { s with
          release := some (modifyPage r n fun page =>
            { page with outcomes := some (s.worker.db.orphans s.name live) }) }
    | _ => none

/-- A page locks what still runs under the tokens that it saw, and releases it. -/
def commit (n : PageId) (now : Time) (jitter : TaskId → ℚ) : Option Sys :=
  s.release.bind fun r =>
    match r.pages.get n with
    | some ⟨_, some outcomes, none⟩ =>
        let next := s.worker.db.applyOutcomes now jitter outcomes
        some { s with
          worker := { s.worker with db := next.2 }
          release := some (modifyPage r n fun page => { page with returned := some next.1 }) }
    | _ => none

/-- The worker gets the answer of its page: a short one ends the call. -/
def reply : Option Sys :=
  s.release.bind fun r =>
    match r.current.bind r.pages.get with
    | some ⟨_, _, some rows⟩ =>
        some { s with
          release := if rows.length < 256 then none else some { r with current := none } }
    | _ => none

def step : Action → Option Sys
  | .worker action => s.act action
  | .lose => s.lose
  | .page => s.send
  | .select n => s.select n
  | .commit n now jitter => s.commit n now jitter
  | .fail => s.release.map fun r => { s with release := some { r with current := none } }
  | .reply => s.reply
  -- An immediate shutdown or an error that is not retried.
  | .abandon => s.release.map fun _ => { s with release := none }

/-- No dispatched row is one that the map still holds an attempt of. A page that is not full lists no
row as live that runs under the worker's id with a token of no unfinished attempt. A full page loses none
of its rows to others before it locks them. -/
def clean : Action → Bool
  | .worker action => s.worker.Apart action
  | .select n => (s.page n).all fun page =>
      (s.worker.db.orphans s.name page.live).length = 256 ||
        page.live.all fun i => (s.worker.db.tasks.get i).all fun t =>
          !s.mine t || t.token.all fun token => s.holds i token
  | .commit n _ _ => (s.page n).all fun page => page.outcomes.all fun outcomes =>
      outcomes.length < 256 || outcomes.all fun c => (s.worker.db.tasks.get c.id).any fun t =>
        t.state = .running && t.token = some c.token
  | _ => true

end Sys

end Fronta.Orphans
