import Fronta.Library.Runs
import Mathlib.Algebra.BigOperators.Group.List.Basic
import Mathlib.Algebra.GroupWithZero.Nat

/-!
# The body limit

`BodyLimit` between a server and an application. Between two awaits nothing else happens, so a step runs from
one await to the next, and the application makes its calls in any order, also several at once. `log` records
what passes in and out of the middleware.
-/

namespace Fronta.Server

abbrev Bytes := List UInt8

abbrev Headers := List (Bytes × Bytes)

/-- What `receive` returns. -/
inductive Message
  | request (body : Option Bytes) (more_body : Bool)
  | disconnect
  | other (type : String)
  deriving DecidableEq

/-- What `send` takes. -/
inductive Response
  | start (status : ℕ) (headers : Headers)
  | body (body : Bytes)
  | other (type : String)
  deriving DecidableEq

structure Scope where
  type : String
  headers : Headers

/-- `message.get("body", b"")`, counted. -/
def Message.bytes : Message → ℕ
  | .request body _ => (body.getD []).length
  | _ => 0

def Response.isStart : Response → Bool
  | .start _ _ => true
  | _ => false

/-! ## Content-Length -/

/-- `bytes.isdigit` -/
def isdigit (b : Bytes) : Bool := b ≠ [] && b.all fun c => 48 ≤ c && c ≤ 57

/-- `int` of digits, which raises beyond 4300 of them. -/
def int (b : Bytes) : Option ℕ :=
  if b.length ≤ 4300 then some (b.foldl (fun n c => 10 * n + (c.toNat - 48)) 0) else none

/-- `content-length` -/
def contentLength : Bytes := "content-length".toUTF8.toList

/-- Of several headers of one name the last one counts. -/
def Scope.declared (scope : Scope) : Option Bytes := scope.headers.reverse.lookup contentLength

/-- What the declared length does: `int` raises, the request is refused, or the application is called. -/
inductive Admission
  | raises
  | refused
  | called
  deriving DecidableEq

def Scope.admission (scope : Scope) (limit : ℕ) : Admission :=
  match scope.declared with
  | none => .called
  | some declared =>
      if isdigit declared then
        match int declared with
        | none => .raises
        | some n => if limit < n then .refused else .called
      else .called

/-! ## The middleware -/

/-- Starlette's `JSONResponse`: the headers and the body for a status and a detail. -/
abbrev JSONResponse := ℕ → String → Headers × Bytes

/-- How a call ends. -/
inductive Ending
  | returned
  /-- An `Exception` is raised. -/
  | raised
  /-- Another `BaseException` is raised: a cancellation. -/
  | cancelled
  deriving DecidableEq

inductive Event
  /-- The application is called. -/
  | called
  /-- `receive` of the server has returned. -/
  | received (message : Message)
  /-- `receive` of the application has returned. -/
  | handed (message : Message)
  /-- The application calls `send`. -/
  | sends (response : Response)
  /-- `send` of the server is called. -/
  | sent (response : Response)
  /-- The application has returned or raised. -/
  | ended (ending : Ending)
  /-- The middleware has returned or raised. -/
  | returned (ending : Ending)
  deriving DecidableEq

structure Sys where
  /-- What `receive` of the server will return. -/
  incoming : List Message
  called : Bool := true
  ended : Bool := false
  /-- The application has the wrapped channels. -/
  limited : Bool := true
  seen : ℕ := 0
  rejected : Bool := false
  /-- What `_reply` has still to send. -/
  replying : Option Response := none
  log : List Event

inductive Action
  | receive
  | send (response : Response)
  /-- `_reply` goes on after its first message. -/
  | reply
  /-- `_reply` raises after its first message, or is cancelled there. -/
  | interrupt (isCancelled : Bool)
  | finish (ending : Ending)
  deriving DecidableEq

namespace Sys

variable (json : JSONResponse) (limit : ℕ)

/-- `_reply` up to the second `send`. -/
def startReply (s : Sys) (status : ℕ) (detail : String) : Sys :=
  { s with
    replying := some (.body (json status detail).2)
    log := s.log ++ [.sent (.start status (json status detail).1)] }

/-- `__call__` up to the first await. -/
def call (scope : Scope) (incoming : List Message) : Sys :=
  if scope.type = "http" then
    match scope.admission limit with
    | .raises => { incoming := incoming, called := false, log := [.returned .raised] }
    | .refused =>
        { incoming := incoming, called := false, log := [] : Sys }.startReply json 413 "request body too large"
    | .called => { incoming := incoming, log := [.called] }
  else { incoming := incoming, limited := false, log := [.called] }

/-- `limited_receive` from the return of `receive` on. -/
def limitedReceive (s : Sys) (message : Message) : Sys :=
  match message with
  | .request _ _ =>
      let s : Sys := { s with seen := s.seen + message.bytes }
      if limit < s.seen ∧ s.rejected = false then
        { s with rejected := true }.startReply json 413 "request body too large"
      else { s with log := s.log ++ [.handed message] }
  | _ => { s with log := s.log ++ [.handed message] }

/-- `receive` of the application, once that of the server returns. -/
def receive (s : Sys) (message : Message) : Sys :=
  let s : Sys := { s with log := s.log ++ [.received message] }
  if s.limited then s.limitedReceive json limit message else { s with log := s.log ++ [.handed message] }

/-- `send` of the application: `guarded_send` for a limited one. -/
def send (s : Sys) (response : Response) : Sys :=
  { s with log := s.log ++ if s.rejected then [.sends response] else [.sends response, .sent response] }

/-- The second `send` of `_reply`, and the return of what has called it. -/
def finishReply (s : Sys) (response : Response) : Sys :=
  { s with
    replying := none
    log := s.log ++ [.sent response, if s.called then .handed .disconnect else .returned .returned] }

/-- The `except` clause of `__call__`: after a rejection an `Exception` of the application goes no further. -/
def passes (s : Sys) (ending : Ending) : Ending :=
  if s.rejected = true ∧ ending = .raised then .returned else ending

def step (s : Sys) : Action → Option Sys
  | .receive =>
      match s.incoming with
      | message :: incoming =>
          if s.called then some ({ s with incoming := incoming }.receive json limit message) else none
      | [] => none
  | .send response => if s.called then some (s.send response) else none
  | .reply => s.replying.map s.finishReply
  | .interrupt isCancelled =>
      s.replying.map fun _ =>
        { s with
          replying := none
          log := s.log ++ if s.called then [] else [.returned (if isCancelled then .cancelled else .raised)] }
  | .finish ending =>
      if s.called ∧ s.ended = false then
        some { s with ended := true, log := s.log ++ [.ended ending, .returned (s.passes ending)] }
      else none

end Sys

/-! ## What a log says -/

def received (log : List Event) : List Message :=
  log.filterMap fun | .received message => some message | _ => none

def handed (log : List Event) : List Message :=
  log.filterMap fun | .handed message => some message | _ => none

def sends (log : List Event) : List Response :=
  log.filterMap fun | .sends response => some response | _ => none

def sent (log : List Event) : List Response :=
  log.filterMap fun | .sent response => some response | _ => none

def ended (log : List Event) : List Ending :=
  log.filterMap fun | .ended ending => some ending | _ => none

def returned (log : List Event) : List Ending :=
  log.filterMap fun | .returned ending => some ending | _ => none

/-- The calls of the application, with what `receive` of the server returns to them. -/
def calls (log : List Event) : List Event :=
  log.filter fun | .received _ => true | .sends _ => true | _ => false

/-- The body bytes of some messages. -/
def total (messages : List Message) : ℕ := (messages.map Message.bytes).sum

/-- The responses that are started. -/
def starts (responses : List Response) : ℕ := responses.countP Response.isStart

/-- The calls that some actions make, where the server has some messages to deliver. -/
def trace : List Action → List Message → List Event
  | .receive :: actions, message :: incoming => .received message :: trace actions incoming
  | .send response :: actions, incoming => .sends response :: trace actions incoming
  | _ :: actions, incoming => trace actions incoming
  | [], _ => []

end Fronta.Server
