import Fronta.Attempt.Outcome

/-!
# The runner of a process task

The process writes to two streams that are read in chunks and kept up to a cap. Its exit code decides whether
the attempt has a result.
-/

namespace Fronta.Attempt

open Unicode Codec

/-- Bytes arrive in chunks, and what is over the cap is dropped. -/
structure Drained where
  kept : List UInt8
  truncated : Bool

/-- One round of the loop of `drain`. -/
def Drained.read (maxOutput : ℕ) (d : Drained) (chunk : List UInt8) : Drained :=
  let room := maxOutput - d.kept.length
  ⟨d.kept ++ chunk.take room, d.truncated || room < chunk.length⟩

def drain (maxOutput : ℕ) (chunks : List (List UInt8)) : Drained :=
  chunks.foldl (Drained.read maxOutput) ⟨[], false⟩

/-- `_text` -/
def streamText (bytes : List UInt8) : Text := replaceWhere (fun p => p.val = 0) (decode bytes)

structure ProcessResult where
  exitCode : Int32
  stdout : Text
  stderr : Text
  truncated : Bool

/-- `to_json` -/
def ProcessResult.fields (r : ProcessResult) : List (Text × Value) :=
  [(ofString "exit_code", .int r.exitCode.toInt), (ofString "stdout", .text r.stdout),
    (ofString "stderr", .text r.stderr), (ofString "truncated", .bool r.truncated)]

def ProcessResult.toJson (r : ProcessResult) : Dict where
  items := r.fields
  nodup := show [ofString "exit_code", ofString "stdout", ofString "stderr",
    ofString "truncated"].Nodup by decide

/-- A process that was run to its end: the return code of bwrap, its status lines with the exit code that
they tell, and the chunks of the two streams. -/
structure Process where
  returncode : Int32
  status : List (Option Int32)
  out : List (List UInt8)
  err : List (List UInt8)

def Process.exitCode (p : Process) : Int32 := p.status.foldl (fun code line => line.getD code) p.returncode

/-- `SandboxProcess.run` -/
def Process.run (p : Process) (maxOutput : ℕ) : ProcessResult where
  exitCode := p.exitCode
  stdout := streamText (drain maxOutput p.out).kept
  stderr := streamText (drain maxOutput p.err).kept
  truncated := (drain maxOutput p.out).truncated || (drain maxOutput p.err).truncated

/-! ## Setup failures -/

/-- `str.isspace` -/
def space (p : Point) : Bool :=
  let n := p.val
  (9 ≤ n && n ≤ 13) || (28 ≤ n && n ≤ 32) || n = 0x85 || n = 0xA0 || n = 0x1680 ||
    (0x2000 ≤ n && n ≤ 0x200A) || n = 0x2028 || n = 0x2029 || n = 0x202F || n = 0x205F || n = 0x3000

def strip (t : Text) : Text := ((t.dropWhile space).reverse.dropWhile space).reverse

/-- Why `spawn` raised `SandboxError`. -/
inductive SetupFailure
  | platform (name : Text)
  | start (path error : Text)
  /-- bwrap ended before the sandbox was created. -/
  | setup (returncode : Option Int32) (stderr : List UInt8)

def SetupFailure.message : SetupFailure → Text
  | platform name =>
      ofString "process tasks need Linux (bubblewrap sandboxes); this is " ++ name
  | start path error => ofString "cannot start " ++ path ++ ofString ": " ++ error
  | setup returncode stderr =>
      ofString "sandbox setup failed (bwrap exit " ++
        returncode.elim (ofString "None") (fun code => decimal code.toInt) ++ ofString "): " ++
        (strip (decode stderr)).take 2000

/-! ## The runner -/

section

variable (str : Value → Except Raised Text) (settings : Settings)

/-- The metadata of `SandboxError`. -/
def setupFailed (failure : SetupFailure) : Dict := message (ofString "SandboxError") failure.message

/-- The metadata of a non-zero exit, before it is cut. -/
def exited (r : ProcessResult) : Dict where
  items := (typeKey, .text (ofString "ProcessFailed")) ::
    (ofString "message", .text (ofString "exit code " ++ decimal r.exitCode.toInt)) :: r.fields
  nodup := show [typeKey, ofString "message", ofString "exit_code", ofString "stdout", ofString "stderr",
    ofString "truncated"].Nodup by decide

def processFailed (r : ProcessResult) : Except Raised Dict :=
  truncate str (exited r) settings.errorCap [ofString "stdout", ofString "stderr"]

def Raised.message : Raised → Text
  | .unstorable message | .overCap message | .typeError message => message
  | _ => []

/-- `encode_result` where the definition has no output model. -/
def encodeResult (name : Text) (traceback : Except Raised Text) (value : Value) : End :=
  match encodeCapped value settings.resultCap (ofString "result") with
  | .ok text => .result text
  | .error failure =>
      .raised ⟨ofString "ResultSerializationError", .ok (ofString "result of task '" ++ name ++
        ofString "' cannot be stored: " ++ Raised.message failure), traceback⟩ .final

/-- The end of `ProcessExecution.run` once the process has ended. -/
def Process.finish (p : Process) (maxOutput : ℕ) (name : Text) (traceback : Except Raised Text) : End :=
  let r := p.run maxOutput
  if r.exitCode = 0 then encodeResult settings name traceback r.toJson.value
  else match processFailed str settings r with
    | .ok metadata => .raised ⟨ofString "ProcessFailed", .ok [], traceback⟩ (.process metadata)
    | .error failure => .raised ⟨failure.qualname.getD [], .ok (Raised.message failure), traceback⟩ .other

end

end Fronta.Attempt
