import Fronta.Library.Runs
import Fronta.Library.Table
import Fronta.Signals.Identity
import Mathlib.Data.Vector.Basic

/-!
# Signals to marked processes

The processes of a host, and any number of calls of `signal_marked` and `scavenge_orphans`. A process is known by
its row, which is never given to another one. A pid is given again once its process has been reaped. Each system
call is a step of its own. `named`, `hits` and what a call keeps about its target only record what happened.
-/

namespace Fronta.Signals

open Sql Unicode Codec

abbrev ProcessId := ℕ

abbrev CallId := ℕ

inductive Life
  | running
  | zombie
  | reaped
  deriving DecidableEq

structure Process where
  pid : Pid
  start : ℕ
  environ : Bytes
  life : Life := .running
  /-- The worker ids that it has made. -/
  issued : List Text := []
  deriving DecidableEq

/-- A zombie has no memory. -/
def Process.read (p : Process) : Bytes := if p.life = .running then p.environ else []

/-- The fields of `/proc/{pid}/stat` besides the pid and the start time. -/
structure Stat where
  comm : Text
  state : Point
  before : List.Vector ℤ 18
  after : List ℤ
  letter : 0x41 ≤ state.val ∧ state.val ≤ 0x7A

/-- The fields after the command name. -/
def Stat.fields (stat : Stat) (p : Process) : List Text :=
  [stat.state] :: stat.before.toList.map decimal ++ digits p.start :: stat.after.map decimal

def Stat.text (stat : Stat) (p : Process) : Text :=
  digits p.pid ++ ofString " (" ++ stat.comm ++
    0x29 :: (stat.fields p).flatMap (fun w => 0x20 :: w) ++ [0x0A]

inductive Task
  | signalMarked (name value : Text) (sig : ℕ) (exclude : List Pid)
  | scavengeOrphans
  deriving DecidableEq

/-- An argument of `_kill_marked`, with the worker that was judged dead. -/
structure Target where
  pid : Pid
  marker : Bytes
  sig : ℕ
  worker : Option Text
  deriving DecidableEq

/-- The system call that comes next. -/
inductive Stage
  | listing
  | reading (pids : List Pid) (found : List (Pid × Bytes))
  /-- `_starttime` and `os.kill(pid, 0)`, for the worker of the first process. -/
  | statting (worker : Text) (pid : ℕ) (start : Text) (todo : List (Pid × Bytes))
  | probing (worker : Text) (pid : ℕ) (todo : List (Pid × Bytes))
  | opening (target : Target) (todo : List (Pid × Bytes))
  /-- The pidfd refers to `fd`. -/
  | checking (target : Target) (fd : ProcessId) (todo : List (Pid × Bytes))
  /-- `environ` was read, and belonged to `checked`. -/
  | sending (target : Target) (fd checked : ProcessId) (environ : Bytes) (todo : List (Pid × Bytes))
  | returned
  | raised
  deriving DecidableEq

structure Call where
  task : Task
  stage : Stage
  dead : List Text
  alive : List Text
  killed : ℕ
  deriving DecidableEq

/-- A signal that reached a process. -/
structure Hit where
  task : Task
  target : Target
  fd : ProcessId
  checked : ProcessId
  environ : Bytes
  deriving DecidableEq

structure Sys where
  processes : Table Process
  clock : ℕ
  calls : Table Call
  /-- The worker ids that environments have named, each with the row that the next process got. -/
  named : List (Text × ProcessId)
  hits : List Hit

inductive Action
  | spawn (pid : Pid) (environ : Bytes)
  | exec (x : ProcessId) (environ : Bytes)
  | exit (x : ProcessId)
  | reap (x : ProcessId)
  | tick
  /-- A process calls `worker_id`. `none` where its stat cannot be read. -/
  | workerId (x : ProcessId) (stat : Option Stat) (uuid : BitVec 128)
  | call (task : Task) (own : Text)
  /-- `iterdir` meets some pids. -/
  | list (c : CallId) (pids : List Pid)
  /-- The call makes its system call. -/
  | go (c : CallId) (stat : Stat)
  /-- The system call ends with an `OSError` other than `ProcessLookupError`. -/
  | fails (c : CallId)

/-- `signal.SIGKILL` -/
def sigkill : ℕ := 9

/-- The largest pid that `os.kill` takes. -/
def maxPid : ℕ := 0x7FFFFFFF

section

variable (hostname : Text)

namespace Call

/-- The head of the loop over what the walk has found. -/
def loop : Call → List (Pid × Bytes) → Call
  | call, [] => { call with stage := .returned }
  | call, (pid, environ) :: todo =>
      match call.task with
      | .signalMarked name value sig exclude =>
          match markerOf name value with
          | none => { call with stage := .raised }
          | some m =>
              if m <:+: environ ∧ pid ∉ exclude then { call with stage := .opening ⟨pid, m, sig, none⟩ todo }
              else loop call todo
      | .scavengeOrphans =>
          match ownerOf environ with
          | none => loop call todo
          | some owner =>
              if owner ∈ call.alive then loop call todo
              else if owner ∈ call.dead then
                match markerOf workerEnv owner with
                | none => { call with stage := .raised }
                | some m => { call with stage := .opening ⟨pid, m, sigkill, some owner⟩ todo }
              else
                match lookup hostname owner with
                | none => loop { call with alive := owner :: call.alive } todo
                | some (n, start) => { call with stage := .statting owner n start ((pid, environ) :: todo) }

/-- The walk goes on. -/
def walk (call : Call) (found : List (Pid × Bytes)) : List Pid → Call
  | [] => call.loop hostname found
  | pids => { call with stage := .reading pids found }

/-- `is_worker_alive` has returned. -/
def judged (call : Call) (worker : Text) (todo : List (Pid × Bytes)) (verdict : Option Bool) : Call :=
  if verdict = some false then { call with dead := worker :: call.dead }.loop hostname todo
  else { call with alive := worker :: call.alive }.loop hostname todo

def start (task : Task) (own : Text) : Call where
  task := task
  stage :=
    match task with
    | .signalMarked name value _ _ => if markerOf name value = none then .raised else .listing
    | .scavengeOrphans => .listing
  dead := []
  alive := [own]
  killed := 0

end Call

namespace Sys

def init : Sys where
  processes := .empty
  clock := 0
  calls := .empty
  named := []
  hits := []

/-- The process that has the pid. -/
def holder (s : Sys) (pid : Pid) : Option (ProcessId × Process) :=
  s.processes.find fun p => p.pid = pid ∧ p.life ≠ .reaped

def setProcess (s : Sys) (x : ProcessId) (p : Process) : Sys :=
  { s with processes := s.processes.modify x fun _ => p }

def setCall (s : Sys) (c : CallId) (call : Call) : Sys :=
  { s with calls := s.calls.modify c fun _ => call }

/-- The owner of a new environment. -/
def naming (s : Sys) (environ : Bytes) : List (Text × ProcessId) :=
  s.named ++ (ownerOf environ).toList.map fun w => (w, s.processes.next)

/-- The call makes its system call. -/
def go (s : Sys) (call : Call) (stat : Stat) : Option (Call × List Hit) :=
  match call.stage with
  | .reading (pid :: pids) found =>
      match s.holder pid with
      | none => some (call.walk hostname found pids, [])
      | some (_, p) => some (call.walk hostname (found ++ [(pid, p.read)]) pids, [])
  | .statting worker pid start todo =>
      match s.holder pid with
      | none => some ({ call with stage := .probing worker pid todo }, [])
      | some (_, p) =>
          match starttime (stat.text p) with
          | none => some ({ call with stage := .raised }, [])
          | some now => some (call.judged hostname worker todo (some (now = start)), [])
  | .probing worker pid todo =>
      -- `os.kill` does not take a larger pid
      if maxPid < pid then some ({ call with stage := .raised }, [])
      else
        match s.holder pid with
        | none => some (call.judged hostname worker todo (some false), [])
        | some _ => some (call.judged hostname worker todo none, [])
  | .opening target todo =>
      match s.holder target.pid with
      | none => some (call.loop hostname todo, [])
      | some (x, _) => some ({ call with stage := .checking target x todo }, [])
  | .checking target fd todo =>
      match s.holder target.pid with
      | none => some (call.loop hostname todo, [])
      | some (y, p) =>
          if target.marker <:+: p.read then some ({ call with stage := .sending target fd y p.read todo }, [])
          else some (call.loop hostname todo, [])
  | .sending target fd checked environ todo =>
      match (s.processes.get fd).map Process.life with
      | some .running =>
          some ({ call with killed := call.killed + 1 }.loop hostname todo,
            [⟨call.task, target, fd, checked, environ⟩])
      | some .zombie => some ({ call with killed := call.killed + 1 }.loop hostname todo, [])
      | _ => some (call.loop hostname todo, [])
  | _ => none

/-- The system call ends with an `OSError` other than `ProcessLookupError`. -/
def fail (call : Call) : Option Call :=
  match call.stage with
  | .listing => some (call.loop hostname [])
  | .reading (_ :: pids) found => some (call.walk hostname found pids)
  | .statting worker pid _ todo => some { call with stage := .probing worker pid todo }
  | .probing worker pid todo => if maxPid < pid then none else some (call.judged hostname worker todo none)
  | .opening _ todo => some (call.loop hostname todo)
  | .checking _ _ todo => some (call.loop hostname todo)
  | .sending _ _ _ _ todo => some (call.loop hostname todo)
  | _ => none

def step (s : Sys) : Action → Option Sys
  | .spawn pid environ =>
      if 0 < pid ∧ pid ≤ maxPid ∧ s.holder pid = none then
        some { s with
          processes := s.processes.insert { pid := pid, start := s.clock, environ := environ }
          named := s.naming environ }
      else none
  | .exec x environ =>
      match s.processes.get x with
      | some p =>
          if p.life = .running then
            some { s.setProcess x { p with environ := environ } with
              named := s.naming environ }
          else none
      | none => none
  | .exit x =>
      match s.processes.get x with
      | some p => if p.life = .running then some (s.setProcess x { p with life := .zombie }) else none
      | none => none
  | .reap x =>
      match s.processes.get x with
      | some p => if p.life = .zombie then some (s.setProcess x { p with life := .reaped }) else none
      | none => none
  | .tick => some { s with clock := s.clock + 1 }
  | .workerId x stat uuid =>
      match s.processes.get x with
      | some p =>
          let id := workerId hostname p.pid (stat.bind fun stat => starttime (stat.text p)) uuid
          -- nobody knows a uuid before it is made
          if p.life = .running ∧ s.named.lookup id = none then some (s.setProcess x { p with issued := id :: p.issued })
          else none
      | none => none
  | .call task own => some { s with calls := s.calls.insert (Call.start task own) }
  | .list c pids =>
      match s.calls.get c with
      | some call =>
          if call.stage = .listing then some (s.setCall c (call.walk hostname [] pids)) else none
      | none => none
  | .go c stat =>
      match s.calls.get c with
      | some call =>
          (s.go hostname call stat).map fun x => { s.setCall c x.1 with hits := s.hits ++ x.2 }
      | none => none
  | .fails c =>
      match s.calls.get c with
      | some call => (fail hostname call).map fun call => s.setCall c call
      | none => none

/-- The environments that a process gets are anchored. -/
def Orderly (_ : Sys) : Action → Prop
  | .spawn _ environ => Anchored hostname environ
  | .exec _ environ => Anchored hostname environ
  | _ => True

/-- The process was there when an environment first named the worker. -/
def There (s : Sys) (x : ProcessId) (worker : Text) : Prop := ∃ i, s.named.lookup worker = some i ∧ x < i

/-- Every process that has made the worker id has been reaped, and so has every one with its pid and its start time
that was there when an environment first named it. -/
def Gone (s : Sys) (worker : Text) : Prop :=
  ∀ x p, s.processes.get x = some p →
    worker ∈ p.issued ∨ (lookup hostname worker = some (p.pid, digits p.start) ∧ s.There x worker) → p.life = .reaped

end Sys

end

end Fronta.Signals
