import Fronta.Signals.Lemmas.Anchors

/-!
# Signals reach what was checked
-/

namespace Fronta.Signals

open Sql Unicode Codec Runs

variable {hostname : Text} {s : Sys} {actions : List Action}

instance : (action : Action) → Decidable (s.Orderly hostname action)
  | .spawn _ environ => inferInstanceAs (Decidable (Anchored hostname environ))
  | .exec _ environ => inferInstanceAs (Decidable (Anchored hostname environ))
  | .exit _ | .reap _ | .tick | .workerId _ _ _ | .call _ _ | .list _ _ | .go _ _ | .fails _ => isTrue True.intro

/-- Every signal hits the process whose environment was checked, and the worker that a scavenger judged dead has
ended, whatever the environments are. -/
theorem hits_ok (hr : run (Sys.step hostname) .init actions = some s) : ∀ h ∈ s.hits, h.Ok hostname s :=
  (Runs.invariant (I := Inv hostname) (C := fun _ _ => True) (fun _ _ _ hi _ h => hi.step h) Inv.init
    (Along.trivial _ _) hr).hits

/-- Where environments have markers of workers only as their owners, every signal hits a process that had the marker
when it was checked, and the worker that owns a process killed by a scavenger is gone. -/
theorem signals_reach_marked (hr : run (Sys.step hostname) .init actions = some s)
    (hc : Along (Sys.step hostname) (Sys.Orderly hostname) .init actions) :
    ∀ h ∈ s.hits, (h.checked = h.fd ∧ h.target.marker <:+: h.environ) ∧
      (h.task = .scavengeOrphans → ∃ w, ownerOf h.environ = some w ∧ s.Gone hostname w) := by
  intro h hm
  have hok := hits_ok hr h hm
  have htidy : Tidy hostname s :=
    Runs.invariant (fun _ _ _ ht ho hs => Tidy.step ht ho hs) Tidy.init hc hr
  refine ⟨⟨hok.checked, hok.marked⟩, fun htask => ?_⟩
  obtain ⟨w, hw⟩ := hok.target.worker htask
  obtain ⟨hd, hmark⟩ := hok.target.doomed w hw
  have howner := htidy.hits h hm w hd.clean hd.judged ⟨_, hmark, hok.marked⟩
  exact ⟨w, howner, hd.gone⟩

section Runs

/-- An entry of an environment. -/
def entry (name value : Text) : Bytes := (name ++ 0x3D :: value).flatMap Point.bytes ++ [0]

def host : Text := ofString "h"

/-- The stat of an idle process. -/
def idle : Stat := ⟨ofString "python) x", 0x53, .replicate 18 0, [], by decide⟩

/-- The id of the process with that pid, made at tick 0. -/
def idOf (pid : Pid) (uuid : BitVec 128) : Text := workerId host pid (some (digits 0)) uuid

/-- A worker with a sandbox ends, and the sandbox is scavenged. -/
def scavenging : List Action :=
  [.spawn 5 [], .workerId 1 (some idle) 1, .spawn 6 (entry workerEnv (idOf 5 1)), .exit 1, .reap 1, .tick,
    .call .scavengeOrphans [], .list 1 [6], .go 1 idle, .go 1 idle, .go 1 idle]

/-- The scavenger opens, checks and signals. -/
def killing : List Action := [.go 1 idle, .go 1 idle, .go 1 idle]

theorem signals_reach_marked_scavenged : ∃ s, run (Sys.step host) .init (scavenging ++ killing) = some s ∧
    ∃ h ∈ s.hits, h.checked = h.fd ∧ ∃ w, ownerOf h.environ = some w ∧ s.Gone host w := by
  have hrun : (run (Sys.step host) .init (scavenging ++ killing)).any (fun s =>
      s.hits.any fun h => h.task = .scavengeOrphans) = true := by decide +kernel
  obtain ⟨s, hs, hp⟩ := Option.any_eq_true _ _ |>.mp hrun
  obtain ⟨h, hm, htask⟩ := List.any_eq_true.mp hp
  obtain ⟨⟨hfd, -⟩, hgone⟩ := signals_reach_marked hs (by decide +kernel) h hm
  exact ⟨s, hs, h, hm, hfd, hgone (of_decide_eq_true htask)⟩

/-- The sandbox ends after the walk, and its pid goes to the sandbox of a worker that runs. One of its variables
has the marker of the dead worker as its value. -/
def reusing : List Action :=
  [.spawn 5 [], .workerId 1 (some idle) 1, .spawn 6 (entry workerEnv (idOf 5 1)), .spawn 7 [],
    .workerId 3 (some idle) 2, .exit 1, .reap 1, .call .scavengeOrphans [], .list 1 [6], .go 1 idle, .exit 2,
    .reap 2, .spawn 6 (entry (ofString "NOTE") (workerEnv ++ 0x3D :: idOf 5 1) ++ entry workerEnv (idOf 7 2)),
    .go 1 idle, .go 1 idle]

theorem live_sandbox_is_killed : ∃ s, run (Sys.step host) .init (reusing ++ killing) = some s ∧
    ∃ h ∈ s.hits, h.task = .scavengeOrphans ∧ ownerOf h.environ = some (idOf 7 2) ∧
      ∃ p, s.processes.get 3 = some p ∧ idOf 7 2 ∈ p.issued ∧ p.life = .running := by
  have hrun : (run (Sys.step host) .init (reusing ++ killing)).any (fun s =>
      (s.processes.get 3).any (fun p => idOf 7 2 ∈ p.issued ∧ p.life = .running) ∧
      s.hits.any fun h => h.task = .scavengeOrphans ∧ ownerOf h.environ = some (idOf 7 2)) = true := by
    decide +kernel
  obtain ⟨s, hs, hp⟩ := Option.any_eq_true _ _ |>.mp hrun
  obtain ⟨hproc, hhits⟩ := of_decide_eq_true hp
  obtain ⟨p, hget, hp⟩ := Option.any_eq_true _ _ |>.mp hproc
  obtain ⟨hissued, hlife⟩ := of_decide_eq_true hp
  obtain ⟨h, hm, hh⟩ := List.any_eq_true.mp hhits
  obtain ⟨htask, howner⟩ := of_decide_eq_true hh
  exact ⟨s, hs, h, hm, htask, howner, p, hget, hissued, hlife⟩

end Runs

end Fronta.Signals
