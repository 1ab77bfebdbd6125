import Mathlib.Data.List.Infix
import Fronta.Attempt.Execution
import Fronta.Library.Encoding

/-!
# Worker ids and markers

A worker is named by its host, its pid and its start time, an environment carries the name in an entry, and
`/proc/{pid}/stat` shows the start time of the process that has the pid now.
-/

namespace Fronta.Signals

open Unicode Codec

abbrev Bytes := List UInt8

abbrev Pid := ℕ

/-! ## Text -/

/-- `text.rsplit(c, 1)`, where `c` is in the text. -/
def rcut (c : Point) (t : Text) : Option (Text × Text) :=
  if c ∈ t then
    some ((t.reverse.dropWhile (· ≠ c)).tail.reverse, (t.reverse.takeWhile (· ≠ c)).reverse)
  else none

/-- `text.split()` -/
def words (t : Text) : List Text := (t.splitOnP Attempt.space).filter (· ≠ [])

/-- What `int` skips: `Py_ISSPACE` below 127, `str.isspace` from there on. -/
def blank (p : Point) : Bool :=
  if p.val < 127 then (9 ≤ p.val && p.val ≤ 13) || p.val = 32 else Attempt.space p

/-- The zero of each ten decimal digits. -/
def zeros : List ℕ :=
  [0x30, 0x660, 0x6F0, 0x7C0, 0x966, 0x9E6, 0xA66, 0xAE6, 0xB66, 0xBE6, 0xC66, 0xCE6, 0xD66, 0xDE6, 0xE50,
    0xED0, 0xF20, 0x1040, 0x1090, 0x17E0, 0x1810, 0x1946, 0x19D0, 0x1A80, 0x1A90, 0x1B50, 0x1BB0, 0x1C40,
    0x1C50, 0xA620, 0xA8D0, 0xA900, 0xA9D0, 0xA9F0, 0xAA50, 0xABF0, 0xFF10, 0x104A0, 0x10D30, 0x11066,
    0x110F0, 0x11136, 0x111D0, 0x112F0, 0x11450, 0x114D0, 0x11650, 0x116C0, 0x11730, 0x118E0, 0x11950,
    0x11C50, 0x11D50, 0x11DA0, 0x11F50, 0x16A60, 0x16AC0, 0x16B50, 0x1D7CE, 0x1D7D8, 0x1D7E2, 0x1D7EC,
    0x1D7F6, 0x1E140, 0x1E2F0, 0x1E4F0, 0x1E950, 0x1FBF0]

def digitOf (p : Point) : Option ℕ :=
  (zeros.find? fun z => z ≤ p.val && p.val < z + 10).map fun z => p.val - z

/-- Digits, with single underscores between them. -/
def digitsOf : Text → Option (List ℕ)
  | [] => none
  | [p] => (digitOf p).map fun d => [d]
  | p :: q :: t =>
      (digitOf p).bind fun d =>
        if q = 0x5F then (digitsOf t).map (d :: ·) else (digitsOf (q :: t)).map (d :: ·)

def natural (t : Text) : Option ℕ :=
  (digitsOf t).bind fun ds =>
    if ds.length ≤ maxDigits then some (ds.foldl (fun n d => 10 * n + d) 0) else none

/-- `int(text)` -/
def int (t : Text) : Option ℤ :=
  match ((t.dropWhile blank).reverse.dropWhile blank).reverse with
  | 0x2B :: u => (natural u).map fun n => (n : ℤ)
  | 0x2D :: u => (natural u).map fun n => -(n : ℤ)
  | u => (natural u).map fun n => (n : ℤ)

/-! ## Worker ids -/

/-- `_starttime`, from the text of `/proc/{pid}/stat`. `none` where the text has no such field. -/
def starttime (stat : Text) : Option Text := (rcut 0x29 stat).bind fun x => (words x.2)[19]?

/-- `uuid4().hex` -/
def hex (uuid : BitVec 128) : Text :=
  (List.range 32).reverse.map fun i => hexDigit (uuid.toNat / 16 ^ i % 16)

/-- `worker_id` -/
def workerId (hostname : Text) (pid : Pid) (start : Option Text) (uuid : BitVec 128) : Text :=
  hostname ++ 0x3A :: digits pid ++ 0x3A :: start.getD (ofString "nonce") ++ 0x2D :: hex uuid

/-- The pid and the start time that `is_worker_alive` looks for. `none` where it judges nothing. -/
def lookup (hostname worker : Text) : Option (ℕ × Text) :=
  match rcut 0x3A worker with
  | none => none
  | some (front, identity) =>
      match rcut 0x3A front with
      | none => none
      | some (host, pid) =>
          if host ≠ hostname then none
          else
            match int pid with
            | none => none
            | some pid =>
                if pid ≤ 0 || (ofString "nonce-").isPrefixOf identity then none
                else some (pid.toNat, identity.takeWhile (· ≠ 0x2D))

/-! ## Environments -/

def markerOf (name value : Text) : Option Bytes := (encode (name ++ 0x3D :: value)).map (· ++ [0])

/-- `WORKER_ENV` -/
def workerEnv : Text := ofString "FRONTA_WORKER_ID"

/-- `WORKER_ENV.encode() + b"="` -/
def workerPrefix : Bytes := (workerEnv ++ [0x3D]).flatMap Point.bytes

/-- `_owner_of` -/
def ownerOf (environ : Bytes) : Option Text :=
  ((environ.splitOn 0).find? (workerPrefix.isPrefixOf ·)).map fun entry =>
    decode (entry.drop workerPrefix.length)

/-- The marker of the worker is in the environment. -/
def Marked (environ : Bytes) (worker : Text) : Prop := ∃ m ∈ markerOf workerEnv worker, m <:+: environ

instance (environ : Bytes) (worker : Text) : Decidable (Marked environ worker) :=
  inferInstanceAs (Decidable (∃ m ∈ markerOf workerEnv worker, m <:+: environ))

/-- Where the marker of a worker of this host is in the environment, the worker is the owner. -/
def Anchored (hostname : Text) (environ : Bytes) : Prop :=
  ∀ w, Clean w → lookup hostname w ≠ none → Marked environ w → ownerOf environ = some w

/-- What stands behind the prefix, wherever it stands. -/
def labels (environ : Bytes) : List Text :=
  (environ.tails.filter (workerPrefix.isPrefixOf ·)).map fun t =>
    decode ((t.drop workerPrefix.length).takeWhile (· ≠ 0))

end Fronta.Signals
