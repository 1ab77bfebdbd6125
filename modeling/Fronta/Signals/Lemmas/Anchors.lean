import Fronta.Signals.Lemmas.Steps

/-!
# Anchored environments stay anchored

What is read was an environment of some process, so where all of them are anchored the worker of a hit is the
owner in the environment that was checked.
-/

namespace Fronta.Signals

open Sql Unicode Codec

variable {hostname worker : Text} {p p' : Process} {x c : ℕ} {s s' : Sys} {call call' : Call} {hits : List Hit}
  {stat : Stat} {todo found : List (Pid × Bytes)} {pids : List Pid} {action : Action}

/-- The environment that a call has checked. -/
def Stage.environ : Stage → Option Bytes
  | .sending _ _ _ environ _ => some environ
  | _ => none

section

variable {target : Target} {fd checked : ProcessId} {pid : Pid} {environ : Bytes}

@[simp] theorem environ_probing : (Stage.probing worker pid todo).environ = none := rfl

@[simp] theorem environ_checking : (Stage.checking target fd todo).environ = none := rfl

@[simp] theorem environ_sending : (Stage.sending target fd checked environ todo).environ = some environ := rfl

@[simp] theorem environ_raised : Stage.raised.environ = none := rfl

end

structure Tidy (hostname : Text) (s : Sys) : Prop where
  processes : ∀ x p, s.processes.get x = some p → Anchored hostname p.environ
  calls : ∀ c call, s.calls.get c = some call → ∀ e ∈ call.stage.environ, Anchored hostname e
  hits : ∀ h ∈ s.hits, Anchored hostname h.environ

theorem anchored_nil : Anchored hostname [] := by
  rintro w hc - ⟨m, hm, hin⟩
  rw [Option.mem_def, markerOf_of_clean hc, Option.some.injEq] at hm
  subst hm
  simp at hin

theorem Tidy.read (ht : Tidy hostname s) (hx : s.processes.get x = some p) : Anchored hostname p.read := by
  unfold Process.read
  split
  · exact ht.processes x p hx
  · exact anchored_nil

@[simp] theorem loop_environ : (call.loop hostname todo).stage.environ = none := by
  induction todo generalizing call with
  | nil => rfl
  | cons e todo ih =>
      obtain ⟨pid, environ⟩ := e
      unfold Call.loop
      cases htask : call.task with
      | signalMarked name value sig exclude =>
          simp only
          cases markerOf name value with
          | none => rfl
          | some m =>
              simp only
              split
              · rfl
              · exact ih
      | scavengeOrphans =>
          simp only
          cases ownerOf environ with
          | none => exact ih
          | some owner =>
              simp only
              split
              · exact ih
              · split
                · cases markerOf workerEnv owner <;> rfl
                · cases lookup hostname owner with
                  | none => exact ih
                  | some l => rfl

@[simp] theorem walk_environ : (call.walk hostname found pids).stage.environ = none := by
  cases pids with
  | nil => exact loop_environ
  | cons pid pids => rfl

@[simp] theorem judged_environ {verdict : Option Bool} :
    (call.judged hostname worker todo verdict).stage.environ = none := by
  unfold Call.judged
  split <;> exact loop_environ

/-- A call that goes on has just read what it checks, and a hit takes over what was checked. -/
theorem go_environ (h : s.go hostname call stat = some (call', hits)) :
    (∀ e ∈ call'.stage.environ, ∃ x p, s.processes.get x = some p ∧ e = p.read) ∧
      ∀ hit ∈ hits, call.stage.environ = some hit.environ := by
  unfold Sys.go at h
  split at h
  · split at h <;> (cases h; simp)
  · split at h
    · cases h
      simp
    · split at h <;> (cases h; simp)
  · split at h
    · cases h
      simp
    · split at h <;> (cases h; simp)
  · split at h <;> (cases h; simp)
  · split at h
    · cases h
      simp
    · rename_i hh
      split at h
      · cases h
        refine ⟨fun e he => ?_, nofun⟩
        exact ⟨_, _, (holder_some hh).1, (Option.some.inj he).symm⟩
      · cases h
        simp
  · rename_i hst
    split at h
    · cases h
      simp [hst]
    · cases h
      simp
    · cases h
      simp
  · cases h

theorem fail_environ (h : Sys.fail hostname call = some call') : call'.stage.environ = none := by
  unfold Sys.fail at h
  split at h
  case h_4 =>
    split at h
    · cases h
    · exact Option.some.inj h ▸ judged_environ
  case h_3 => exact Option.some.inj h ▸ rfl
  case h_8 => cases h
  case h_2 => exact Option.some.inj h ▸ walk_environ
  all_goals exact Option.some.inj h ▸ loop_environ

theorem Tidy.init : Tidy hostname .init := by
  constructor <;> simp [Sys.init]

/-- Only a process gets another environment. -/
theorem Tidy.setProcess (ht : Tidy hostname s) (hp : s'.processes = (s.setProcess x p').processes)
    (he : Anchored hostname p'.environ) (hc : s'.calls = s.calls) (hh : s'.hits = s.hits) :
    Tidy hostname s' where
  processes := by
    intro y q hy
    rw [hp] at hy
    rcases get_setProcess hy with ⟨-, rfl⟩ | hy
    · exact he
    · exact ht.processes y q hy
  calls := fun c call h => ht.calls c call (hc ▸ h)
  hits := fun h hm => ht.hits h (hh ▸ hm)

theorem Tidy.setCall (ht : Tidy hostname s) (he : ∀ e ∈ call'.stage.environ, Anchored hostname e) :
    Tidy hostname (s.setCall c call') where
  processes := ht.processes
  calls := by
    intro d r hd
    obtain ⟨r₀, hr₀, ⟨-, rfl⟩ | hr⟩ := Table.get_update_cases hd
    · exact ht.calls d r hr₀
    · split at hr
      · exact Option.some.inj hr ▸ he
      · cases hr
  hits := ht.hits

theorem Tidy.step (ht : Tidy hostname s) (ho : s.Orderly hostname action)
    (h : s.step hostname action = some s') : Tidy hostname s' := by
  cases action with
  | spawn pid environ =>
      simp only [Sys.step] at h
      split at h
      · cases h
        refine ⟨?_, ht.calls, ht.hits⟩
        intro y q hy
        rcases Table.get_insert_cases hy with ⟨-, rfl⟩ | hy
        · exact ho
        · exact ht.processes y q hy
      · cases h
  | exec x environ =>
      simp only [Sys.step] at h
      split at h
      · split at h
        · cases h
          exact ht.setProcess rfl ho rfl rfl
        · cases h
      · cases h
  | exit x =>
      simp only [Sys.step] at h
      split at h
      · rename_i p hx
        split at h
        · cases h
          exact ht.setProcess rfl (ht.processes x p hx) rfl rfl
        · cases h
      · cases h
  | reap x =>
      simp only [Sys.step] at h
      split at h
      · rename_i p hx
        split at h
        · cases h
          exact ht.setProcess rfl (ht.processes x p hx) rfl rfl
        · cases h
      · cases h
  | tick =>
      cases h
      exact ⟨ht.processes, ht.calls, ht.hits⟩
  | workerId x stat uuid =>
      simp only [Sys.step] at h
      split at h
      · rename_i p hx
        split at h
        · cases h
          exact ht.setProcess rfl (ht.processes x p hx) rfl rfl
        · cases h
      · cases h
  | call task own =>
      cases h
      refine ⟨ht.processes, ?_, ht.hits⟩
      intro c call hc
      rcases Table.get_insert_cases hc with ⟨-, rfl⟩ | hc
      · cases task with
        | signalMarked name value sig exclude =>
            intro e he
            simp only [Call.start] at he
            split at he <;> cases he
        | scavengeOrphans =>
            intro e he
            cases he
      · exact ht.calls c call hc
  | list c pids =>
      simp only [Sys.step] at h
      split at h
      · split at h
        · cases h
          exact ht.setCall (by simp)
        · cases h
      · cases h
  | go c stat =>
      simp only [Sys.step] at h
      split at h
      · rename_i call hc
        obtain ⟨⟨call', hits⟩, hg, rfl⟩ := Option.map_eq_some_iff.mp h
        obtain ⟨hread, hhits⟩ := go_environ hg
        have hnew : ∀ e ∈ call'.stage.environ, Anchored hostname e := by
          intro e he
          obtain ⟨x, p, hx, rfl⟩ := hread e he
          exact ht.read hx
        have hcall : Tidy hostname (s.setCall c call') := ht.setCall hnew
        refine ⟨hcall.processes, hcall.calls, fun h hm => ?_⟩
        rcases List.mem_append.mp hm with hm | hm
        · exact ht.hits h hm
        · exact ht.calls c call hc h.environ (hhits h hm)
      · cases h
  | fails c =>
      simp only [Sys.step] at h
      split at h
      · obtain ⟨call', hf, rfl⟩ := Option.map_eq_some_iff.mp h
        exact ht.setCall (by simp [fail_environ hf])
      · cases h

end Fronta.Signals
