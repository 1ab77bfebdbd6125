import Fronta.Codec.Errors
import Fronta.Worker.System

/-!
# The outcome of one attempt

The end of the runner, or the cause of its stop, becomes a completion with an encoded result or error.
-/

namespace Fronta.Attempt

open Unicode Codec
open Worker (Cause)

structure Settings where
  errorCap : ℕ
  resultCap : ℕ
  errorCap_ge : 1024 ≤ errorCap
  resultCap_ge : 1024 ≤ resultCap

/-- The classes of exceptions that the controller tells apart. -/
inductive Class
  /-- `_FINAL_ERRORS` -/
  | final
  /-- `ProcessFailed` -/
  | process (metadata : Dict)
  | other

/-- How the runner ended. -/
inductive End
  | result (text : Text)
  | cancelled
  | raised (exc : Exc) (cls : Class)

/-- What is submitted for the attempt. -/
structure Outcome where
  kind : CompletionKind
  data : Option Text
  deriving DecidableEq

section

-- What `str()` gives of a value that is no text.
variable (str : Value → Except Raised Text)

/-- `{"type": …}` -/
def typeOnly (t : Text) : Dict where
  items := [(typeKey, .text t)]
  nodup := List.nodup_singleton _

def metadataJson (metadata : Dict) : Except Raised Text :=
  match encode metadata.value with
  | .ok text => .ok text
  | .error failure =>
      if failure.unencodable then do
        let name ← strOf str ((metadata.get typeKey).getD (.text (ofString "Exception")))
        encode (typeOnly (name.take 64)).value
      else .error failure

variable (settings : Settings)

def errorJson (exc : Exc) : Except Raised Text :=
  match errorMetadata str exc settings.errorCap with
  | .ok metadata => metadataJson str metadata
  | .error failure =>
      if failure.qualname.isSome then metadataJson str (typeOnly exc.qualname) else .error failure

def message (name text : Text) : Dict where
  items := [(typeKey, .text name), (ofString "message", .text text)]
  nodup := show [typeKey, ofString "message"].Nodup by decide

def selfCancelled : Dict := message (ofString "CancelledError") (ofString "handler cancelled itself")

def timedOut (timeout : Decimal) : Dict :=
  message (ofString "AttemptTimeout") (ofString "attempt exceeded " ++ timeout.text ++ ofString " s")

/-- `_finish_completed`: what it submits, or the exception that ends the controller. -/
def finishCompleted (cause : Option Cause) (e : End) : Except Raised (Option Outcome) :=
  if cause = some .lost then pure none
  else match e with
    | .result text => pure (some ⟨.succeed, some text⟩)
    | .raised exc .final => do return some ⟨.failFinal, some (← errorJson str settings exc)⟩
    | .raised _ (.process metadata) => do return some ⟨.fail, some (← metadataJson str metadata)⟩
    | .raised exc .other => do return some ⟨.fail, some (← errorJson str settings exc)⟩
    | .cancelled => do return some ⟨.fail, some (← encode selfCancelled.value)⟩

/-- `_finish_stopped` -/
def finishStopped (cause : Option Cause) (timeout : Decimal) : Except Raised (Option Outcome) :=
  match cause with
  | some .timeout => do return some ⟨.fail, some (← encode (timedOut timeout).value)⟩
  | some .cancel => pure (some ⟨.cancel, none⟩)
  | some .shutdown => pure (some ⟨.release, none⟩)
  | _ => pure none

end

end Fronta.Attempt
