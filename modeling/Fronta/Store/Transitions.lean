import Fronta.Store.Model

/-!
# Row transitions

What each managed statement does to one row: `none` where the row does not match the `WHERE` clause,
the new row where it does. Columns that a statement does not name keep their values.
-/

namespace Fronta

namespace Row

/-- `_ENQUEUE`: the inserted row. -/
def enqueued (now : Time) (task : NewTask) : Row where
  type := task.type
  state := .queued
  priority := task.priority
  key := task.key
  concurrencyKey := task.concurrencyKey
  input := .text task.inputJson
  result := none
  error := none
  progress := none
  attempt := 0
  failures := 0
  maxAttempts := task.policy.maxAttempts
  attemptTimeoutS := task.policy.attemptTimeoutS
  backoff := task.policy.backoff
  token := none
  leaseUntil := none
  worker := none
  cancelRequestedAt := none
  createdAt := now
  runAt := task.runAt.getD now
  startedAt := none
  finishedAt := none
  metadata := task.metadataJson.map .text

/-- `_BACKOFF`: the time of the retry. An update reads `failures` before it counts the new one. -/
def backoffAt (now jitter : ℚ) (t : Row) : Time :=
  now + min t.backoff.capS (t.backoff.baseS * t.backoff.factor ^ min t.failures 64)
    * (1 / 2 + 1 / 2 * jitter)

/-- The last statement of the claim function. -/
def claim (now clock leaseS : ℚ) (worker : Name) (token : Token) (t : Row) : Option Row :=
  if t.state = .queued then
    some { t with
      state := .running
      attempt := t.attempt + 1
      token := some token
      leaseUntil := some (clock + leaseS)
      startedAt := some now
      worker := some worker
      progress := none }
  else none

/-- `_HEARTBEAT` -/
def heartbeat (clock leaseS : ℚ) (token : Token) (t : Row) : Option Row :=
  if t.state = .running ∧ t.token = some token then
    some { t with leaseUntil := some (clock + leaseS) }
  else none

/-- `_PROGRESS` -/
def setProgress (token : Token) (progress : Jsonb) (t : Row) : Option Row :=
  if t.state = .running ∧ t.token = some token then some { t with progress := some progress }
  else none

/-- `complete.sql`: the state after an outcome of this kind. -/
def outcome (kind : CompletionKind) (t : Row) : State :=
  match kind with
  | .succeed => .succeeded
  | .failFinal => .failed
  | .cancel => .cancelled
  | .release => if t.cancelRequestedAt = none then .queued else .cancelled
  | .fail =>
      if t.cancelRequestedAt ≠ none then .cancelled
      else if t.failures + 1 < t.maxAttempts then .queued
      else .failed

/-- `complete.sql` -/
def complete (now jitter : ℚ) (c : Completion) (t : Row) : Option Row :=
  if t.state = .running ∧ t.token = some c.token ∧
      (c.kind ≠ .cancel ∨ t.cancelRequestedAt ≠ none) then
    some { t with
      state := t.outcome c.kind
      result := if c.kind = .succeed then c.data.map .text else t.result
      error := if c.kind = .fail ∨ c.kind = .failFinal then c.data.map .text else t.error
      failures := t.failures + if c.kind = .fail ∨ c.kind = .failFinal then 1 else 0
      runAt :=
        if c.kind = .release then now
        else if c.kind = .fail ∧ t.cancelRequestedAt = none ∧ t.failures + 1 < t.maxAttempts then
          t.backoffAt now jitter
        else t.runAt
      finishedAt :=
        if (c.kind = .succeed ∨ c.kind = .failFinal ∨ c.kind = .cancel) ∨
            t.cancelRequestedAt ≠ none ∨ (c.kind = .fail ∧ t.maxAttempts ≤ t.failures + 1) then
          some now
        else none
      token := none
      leaseUntil := none }
  else none

/-- `_REQUEST_CANCEL` -/
def requestCancel (now : Time) (t : Row) : Option Row :=
  if t.state = .queued ∨ t.state = .running then
    some { t with
      cancelRequestedAt := some (t.cancelRequestedAt.getD now)
      state := if t.state = .queued then .cancelled else t.state
      finishedAt := if t.state = .queued then some now else t.finishedAt }
  else none

/-- The error that `_REAP` stores on a row whose lease expired. -/
def leaseExpired (t : Row) : Jsonb :=
  .object [("type", .string "LeaseExpired"),
    ("message",
      .string ("lease expired: worker " ++ t.worker.getD "?" ++ " stopped heartbeating")),
    ("worker", (t.worker.map Scalar.string).getD .null),
    ("attempt", .number t.attempt)]

/-- `_REAP`: `state = 'running' AND lease_until < now()` -/
def reapable (now : Time) (t : Row) : Bool := t.state = .running && t.leaseUntil.any (· < now)

/-- `_REAP` -/
def reap (now jitter : ℚ) (t : Row) : Option Row :=
  if t.reapable now then
    some { t with
      token := none
      leaseUntil := none
      failures := if t.cancelRequestedAt = none then t.failures + 1 else t.failures
      error := if t.cancelRequestedAt = none then some t.leaseExpired else t.error
      state :=
        if t.cancelRequestedAt ≠ none then .cancelled
        else if t.failures + 1 < t.maxAttempts then .queued
        else .failed
      runAt :=
        if t.cancelRequestedAt = none ∧ t.failures + 1 < t.maxAttempts then
          t.backoffAt now jitter
        else t.runAt
      finishedAt :=
        if t.cancelRequestedAt ≠ none ∨ t.maxAttempts ≤ t.failures + 1 then some now else none }
  else none

/-- `_REQUEUE` -/
def requeue (now : Time) (t : Row) : Option Row :=
  if t.state = .failed ∨ t.state = .cancelled then
    some { t with
      state := .queued
      runAt := now
      failures := 0
      cancelRequestedAt := none
      finishedAt := none
      token := none
      leaseUntil := none }
  else none

/-- `_PURGE_TASKS`: the row is terminal and finished before the retention. -/
def purgeable (now retentionS : ℚ) (t : Row) : Bool :=
  t.state.terminal && t.finishedAt.any (· < now - retentionS)

/-- An active row under a dedupe key, as `tasks_active_key_uidx` indexes it. -/
def keyed (type : Name) (key : String) (t : Row) : Bool :=
  t.type = type && t.key = some key && t.state.active

end Row

/-- A transition of one row, with the values that its statement supplies. -/
inductive RowOp
  | claim (now clock leaseS : ℚ) (worker : Name) (token : Token)
  | heartbeat (clock leaseS : ℚ) (token : Token)
  | setProgress (token : Token) (progress : Jsonb)
  | complete (now jitter : ℚ) (c : Completion)
  | requestCancel (now : Time)
  | reap (now jitter : ℚ)
  | requeue (now : Time)

namespace RowOp

def apply : RowOp → Row → Option Row
  | claim now clock leaseS worker token, t => t.claim now clock leaseS worker token
  | heartbeat clock leaseS token, t => t.heartbeat clock leaseS token
  | setProgress token progress, t => t.setProgress token progress
  | complete now jitter c, t => t.complete now jitter c
  | requestCancel now, t => t.requestCancel now
  | reap now jitter, t => t.reap now jitter
  | requeue now, t => t.requeue now

def isClaim : RowOp → Bool
  | claim .. => true
  | _ => false

def isRequeue : RowOp → Bool
  | requeue _ => true
  | _ => false

/-- Whether the statement publishes the returned row: heartbeats and progress never do, a cancel
request only when it cancelled the row at once. -/
def publishes : RowOp → Row → Bool
  | heartbeat .., _ | setProgress .., _ => false
  | requestCancel _, t' => t'.state = .cancelled
  | _, _ => true

end RowOp

end Fronta
