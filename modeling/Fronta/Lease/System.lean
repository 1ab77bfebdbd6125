import Fronta.Fencing.System
import Fronta.Worker.System

/-!
# Leases and their renewals

One worker's claims, attempts and lease renewals over the tables that every other party changes at will.
The database has a clock and the worker another one that shows the same time but for a constant. A
renewal locks each of its rows, stamps it while the lock is held, and commits; a client that gave up its
call leaves the statement to commit later or never. `issued`, `own`, `started` and `confirmed` only
record what happened.
-/

namespace Fronta.Lease

open Sql
open Worker (Cause Ref)

abbrev ClaimId := ℕ
abbrev CallId := ℕ

/-- The settings that leases depend on and the distance of the two clocks. -/
structure Env where
  leaseS : ℚ
  heartbeatS : ℚ
  /-- What the monotonic clock shows when the clock of the database shows zero. -/
  skew : ℚ
  heartbeat_pos : 0 < heartbeatS
  heartbeat_le : heartbeatS * 2 ≤ leaseS

/-! ## Attempts -/

/-- Where a controller is: its task has not begun, it waits in `_fresh_lease`, its handler was started,
it gives the row back unstarted, `_settled` is set, or its callback has run. -/
inductive Phase
  | created
  | refreshing
  | running
  | releasing
  | settled
  | done
  deriving DecidableEq

structure Attempt where
  row : TaskId
  token : Token
  claimedAt : Time
  renewedAt : Time
  renewRequested : Bool := false
  cause : Option Cause := none
  phase : Phase := .created
  /-- When the handler was started. -/
  started : Option Time := none
  /-- The confirmed renewals, with the times of the call and of its reply. -/
  confirmed : List (Time × Time) := []

namespace Attempt

variable (a : Attempt)

def settled : Bool := a.phase = .settled || a.phase = .done

/-- `stop`: the first cause wins. -/
def stop (cause : Cause) : Attempt := { a with cause := some (a.cause.getD cause) }

/-- The lease may have ended: no renewal was confirmed before the deadline. -/
def overdue (leaseS : ℚ) (now : Time) : Bool := leaseS ≤ now - a.renewedAt

/-- `_renew_attempts`: what the reply to a call of time `started` tells an attempt. `beat` is the returned
`cancel_requested_at` if the reply has the attempt's row. -/
def renewed (started now : Time) (beat : Option (Option Time)) : Attempt :=
  match beat with
  | none => a.stop .lost
  | some flag =>
      let a := { a with renewedAt := started, confirmed := a.confirmed ++ [(started, now)] }
      if flag.isSome then a.stop .cancel else a

/-- `_run_execution` creates the runner. -/
def start (now : Time) : Attempt := { a with phase := .running, started := some now }

/-- The end of `_fresh_lease` after its renewal. -/
def refreshed (now : Time) (isConfirmed : Bool) : Attempt :=
  if a.cause = some .lost then { a with phase := .settled }
  else if isConfirmed then a.start now
  else { a with phase := .releasing }

end Attempt

/-! ## Statements in flight -/

/-- A claim: when it was issued, the rows once it has committed, and whether the worker waits for it. -/
structure Claim where
  issuedAt : Time
  rows : Option (List (TaskId × Token))
  waiting : Bool

/-- A heartbeat statement: its rows so far with their stamps, or the rows that it returned. -/
inductive Status
  | executing (stamps : List (TaskId × Time))
  | committed (beats : List (TaskId × Option Time))
  | failed

/-- Who waits in `_renew_attempts`: the renewal loop with the rest of its list, or `_fresh_lease`. -/
inductive Waiter
  | loop (rest : List Ref)
  | attempt (x : Ref)

/-- A call of `_renew_attempts` and the ids and tokens that its statement got. -/
structure Call where
  attempts : List Ref
  sent : List (TaskId × Token)
  started : Time
  status : Status
  waiter : Waiter
  waiting : Bool

/-- The rows that the statement locks. -/
def Call.locked (c : Call) : List TaskId :=
  match c.status with
  | .executing stamps => stamps.map Prod.fst
  | _ => []

/-- `_renewals`: between two iterations, inside one, or waiting for a call. -/
inductive Loop
  | idle
  | sending (due : List Ref)
  | waiting

structure Sys where
  store : Fencing.Sys
  /-- The clock of the database. -/
  clock : Time
  /-- The tokens of this worker's claims. -/
  own : List Token
  claims : Table Claim
  /-- The `Attempt` objects. -/
  objects : Table Attempt
  /-- `worker.attempts` -/
  attempts : AList fun _ : TaskId => Ref
  calls : Table Call
  loop : Loop

inductive Action
  | advance (t : Time)
  | statement (op : Op)
  | claim
  | executeClaim (k : ClaimId) (now : Time) (clock : TaskId → Time) (worker : Name)
      (tokens : TaskId → Token) (ids : List TaskId)
  | dispatch (k : ClaimId)
  | dropClaim (k : ClaimId)
  | begin (x : Ref)
  | collect (due : List Ref)
  | send
  | stamp (c : CallId) (i : TaskId)
  | commit (c : CallId)
  | fail (c : CallId)
  | reply (c : CallId)
  | giveUp (c : CallId)
  | hint (i : TaskId)
  | progress (x : Ref) (value : Jsonb)
  | stop (x : Ref) (cause : Cause)
  | settle (x : Ref)
  | attemptDone (x : Ref)

namespace Sys

def init : Sys := ⟨.init, 0, [], .empty, .empty, ∅, .empty, .idle⟩

variable (w : Env) (s : Sys)

/-- `time.monotonic()` -/
def monotonic : Time := s.clock + w.skew

/-- The row while it runs under this token. -/
def held (i : TaskId) (token : Token) : Option Row :=
  (s.store.db.tasks.get i).filter fun t => t.state = .running && t.token = some token

/-- A heartbeat statement has locked the row. -/
def busy (i : TaskId) : Bool := s.calls.entries.any fun c => c.2.locked.contains i

/-- The statement leaves the rows that renewals lock as they are. -/
def respects (op : Op) : Bool :=
  s.calls.entries.all fun c =>
    c.2.locked.all fun i => (s.store.db.exec op).tasks.get i = s.store.db.tasks.get i

/-- Nobody else renews under this worker's tokens, and `now()` is not in the future. -/
def foreign : Op → Bool
  | .heartbeat _ _ renewals => renewals.all fun r => !s.own.contains r.2
  | .reap now .. => now ≤ s.clock
  | _ => true

def execute (op : Op) : Option Sys :=
  if s.respects op then
    (s.store.step (.statement op)).map fun store => { s with store := store }
  else none

/-- Change one `Attempt` object. -/
def modify (x : Ref) (f : Attempt → Attempt) : Sys :=
  { s with objects := s.objects.modify x f }

/-! ## Claims -/

/-- `_start_attempt` -/
def startAttempt (claimedAt : Time) (row : TaskId × Token) : Sys :=
  { s with
    objects := s.objects.insert
      { row := row.1, token := row.2, claimedAt := claimedAt, renewedAt := claimedAt }
    attempts := s.attempts.insert row.1 s.objects.next }

/-- The last statement of the claim function, some time after the worker has sent it. -/
def executeClaim (k : ClaimId) (now : Time) (clock : TaskId → Time) (worker : Name)
    (tokens : TaskId → Token) (ids : List TaskId) : Option Sys :=
  match s.claims.get k with
  | some ⟨issuedAt, none, waiting⟩ =>
      if ids.all fun i => issuedAt ≤ clock i + w.skew && clock i ≤ s.clock then
        let op := Op.claim now clock w.leaseS worker tokens ids
        (s.execute op).map fun s' =>
          { s' with
            own := s.own ++ Fencing.Sys.tokensOf op
            claims := s.claims.modify k fun _ =>
              ⟨issuedAt, some ((s.store.db.claim now clock w.leaseS worker tokens ids).1.map
                fun a => (a.id, tokens a.id)), waiting⟩ }
      else none
  | _ => none

/-! ## Renewals -/

/-- `self.attempts.values()` -/
def mapped : List Ref := s.attempts.entries.map Sigma.snd

/-- The ids and tokens of attempts. -/
def renewals (refs : List Ref) : List (TaskId × Token) :=
  refs.filterMap fun x => (s.objects.get x).map fun a => (a.row, a.token)

/-- The attempts that a call of `_renew_attempts` renews. -/
def live (refs : List Ref) : List Ref :=
  refs.filter fun x => (s.objects.get x).any fun a =>
    !a.overdue w.leaseS (s.monotonic w) && !a.settled && a.cause ≠ some .lost

/-- `_renew_attempts` up to its statement: stop what is overdue and renew what else is live. -/
def renewAttempts (refs : List Ref) (waiter : Waiter) : Sys × Bool :=
  let live := s.live w refs
  let call : Call := ⟨live, s.renewals live, s.monotonic w, .executing [], waiter, true⟩
  let s := { s with
    objects := s.objects.update fun x a =>
      if x ∈ refs ∧ a.overdue w.leaseS (s.monotonic w) then some (a.stop .lost) else none }
  if live.isEmpty then (s, false) else ({ s with calls := s.calls.insert call }, true)

/-- `_renewals`: the check of all attempts after each call. -/
def sweep : Sys :=
  { s with objects := s.objects.update fun x a =>
      if x ∈ s.mapped ∧ a.overdue w.leaseS (s.monotonic w) then
        some (a.stop .lost)
      else none }

/-- `_renewals`: the attempts that are due. -/
def due : List Ref :=
  s.mapped.filter fun x => (s.objects.get x).any fun a =>
    !a.settled && a.cause ≠ some .lost &&
      (a.renewRequested || w.heartbeatS / 2 ≤ s.monotonic w - a.renewedAt)

/-- The end of `_renew_attempts`, in the renewal loop or in `_fresh_lease`. -/
def resume (isConfirmed : Bool) : Waiter → Sys
  | .loop rest => { s.sweep w with loop := .sending rest }
  | .attempt x => s.modify x fun a => a.refreshed (s.monotonic w) isConfirmed

/-- The first step of a controller: `_fresh_lease` renews a lease that is older than a heartbeat. -/
def begin (x : Ref) (a : Attempt) : Sys :=
  if s.monotonic w - a.claimedAt ≤ w.heartbeatS then s.modify x fun a => a.start (s.monotonic w)
  else
    let next := s.renewAttempts w [x] (.attempt x)
    if next.2 then next.1.modify x fun a => { a with phase := .refreshing }
    else next.1.resume w false (.attempt x)

/-- The next call of the renewal loop. -/
def send : List Ref → Sys
  | [] => { s with loop := .idle }
  | due =>
      let rest := due.drop 1000
      let next := s.renewAttempts w (due.take 1000) (.loop rest)
      if next.2 then { next.1 with loop := .waiting } else next.1.resume w false (.loop rest)

/-- Change one call. -/
def modifyCall (c : CallId) (f : Call → Call) : Sys :=
  { s with calls := s.calls.modify c f }

/-- Lock and stamp the next row. -/
def stamp (c : CallId) (i : TaskId) : Option Sys :=
  (s.calls.get c).bind fun call =>
    match call.status with
    | .executing stamps =>
        if !s.busy i && call.sent.any fun r => r.1 = i && (s.held i r.2).isSome then
          some (s.modifyCall c fun call => { call with status := .executing (stamps ++ [(i, s.clock)]) })
        else none
    | _ => none

/-- `_HEARTBEAT` commits once it has stamped every row that runs under its token. -/
def commit (c : CallId) : Option Sys :=
  (s.calls.get c).bind fun call =>
    match call.status with
    | .executing stamps =>
        if call.sent.all fun r => (s.held r.1 r.2).isNone || (stamps.lookup r.1).isSome then
          let op := Op.heartbeat (fun i => (stamps.lookup i).getD 0) w.leaseS call.sent
          let beats := call.sent.filterMap fun r =>
            (s.held r.1 r.2).map fun t => (r.1, t.cancelRequestedAt)
          some { s.modifyCall c fun call => { call with status := .committed beats } with
            store := s.store.execute op }
        else none
    | _ => none

/-- The statement fails and leaves the rows as they were. -/
def fail (c : CallId) : Option Sys :=
  (s.calls.get c).bind fun call =>
    match call.status with
    | .executing _ => some (s.modifyCall c fun call => { call with status := .failed })
    | _ => none

/-- The worker reads the reply of a statement. -/
def reply (c : CallId) : Option Sys :=
  (s.calls.get c).bind fun call =>
    match call.status with
    | .committed beats =>
        if call.waiting then
          let s' := s.modifyCall c fun call => { call with waiting := false }
          some ({ s' with
            objects := s.objects.update fun x a =>
              if x ∈ call.attempts then
                some (a.renewed call.started (s.monotonic w) (beats.lookup a.row))
              else none }.resume w true call.waiter)
        else none
    | _ => none

/-- The worker's budget ends or its connection fails. The statement may still commit. -/
def giveUp (c : CallId) : Option Sys :=
  (s.calls.get c).bind fun call =>
    if call.waiting then
      some ((s.modifyCall c fun call => { call with waiting := false }).resume w false call.waiter)
    else none

def step : Action → Option Sys
  | .advance t => if s.clock ≤ t then some { s with clock := t } else none
  | .statement op => if s.foreign op then s.execute op else none
  | .claim => some { s with claims := s.claims.insert ⟨s.monotonic w, none, true⟩ }
  | .executeClaim k now clock worker tokens ids => s.executeClaim w k now clock worker tokens ids
  | .dispatch k =>
      match s.claims.get k with
      | some ⟨issuedAt, some rows, true⟩ =>
          let s := { s with claims := s.claims.modify k fun c => { c with waiting := false } }
          some (rows.foldl (fun s row => s.startAttempt issuedAt row) s)
      | _ => none
  -- The response is lost or comes after a shutdown request.
  | .dropClaim k => some { s with claims := s.claims.modify k fun c => { c with waiting := false } }
  | .begin x =>
      (s.objects.get x).bind fun a => if a.phase = .created then some (s.begin w x a) else none
  | .collect due =>
      match s.loop with
      | .idle =>
          if due.isPerm (s.due w) then
            some { s with
              objects := s.objects.update fun x a =>
                if x ∈ due then some { a with renewRequested := false } else none
              loop := .sending due }
          else none
      | _ => none
  | .send =>
      match s.loop with
      | .sending due => some (s.send w due)
      | _ => none
  | .stamp c i => s.stamp c i
  | .commit c => s.commit w c
  | .fail c => s.fail c
  | .reply c => s.reply w c
  | .giveUp c => s.giveUp w c
  | .hint i => some ((s.attempts.lookup i).elim s fun x =>
      s.modify x fun a => { a with renewRequested := true })
  | .progress x value =>
      (s.objects.get x).bind fun a =>
        (s.execute (.setProgress a.row a.token value)).map fun s' =>
          if (s.held a.row a.token).isSome then s' else s'.modify x fun a => a.stop .lost
  -- The attempt's timeout and the worker's shutdown.
  | .stop x cause =>
      if cause = .timeout ∨ cause = .shutdown then
        some (s.modify x fun a => a.stop cause)
      else none
  | .settle x =>
      (s.objects.get x).bind fun a =>
        if a.phase = .running ∨ a.phase = .releasing then
          some (s.modify x fun a => { a with phase := .settled })
        else none
  | .attemptDone x =>
      (s.objects.get x).bind fun a =>
        if a.phase = .settled then
          some { s.modify x fun a => { a with phase := .done } with
            attempts := s.attempts.erase a.row }
        else none

/-! ## Deadlines -/

/-- The attempts whose deadline an action checks. -/
def checks : Action → List Ref
  | .begin x =>
      if (s.objects.get x).any fun a => w.heartbeatS < s.monotonic w - a.claimedAt then [x] else []
  | .send =>
      match s.loop with
      | .sending [] => []
      | .sending due =>
          if (s.live w (due.take 1000)).isEmpty then due.take 1000 ++ s.mapped else due.take 1000
      | _ => []
  | .reply c | .giveUp c =>
      match (s.calls.get c).map Call.waiter with
      | some (.loop _) => s.mapped
      | _ => []
  | _ => []

/-- No reply refuses the renewal of `_fresh_lease` to an attempt that was stopped for another reason
while it waited, unless another call has renewed its lease. -/
def undisturbed : Action → Bool
  | .reply c => (s.calls.get c).all fun call =>
      match call.status, call.waiter with
      | .committed beats, .attempt x => (s.objects.get x).all fun a =>
          a.cause = none || a.cause = some .lost || (beats.lookup a.row).isSome ||
            !a.confirmed.isEmpty
      | _, _ => true
  | _ => true

end Sys

end Fronta.Lease
