import Fronta.Sandbox.System

/-!
# When nothing of a sandbox runs

`Tied` says what the stage of a run, its `SandboxProcess` and the processes know of each other. A call of
`kill` that returns true reads the death off it.
-/

namespace Fronta.Sandbox

open Sql

variable {host host' : Host} {e e' : ProcessExecution} {p : SandboxProcess}

namespace Host

theorem not_alive_of_gone (h : host.init = .gone) : host.alive = false := by simp [alive, h]

theorem not_alive_of_absent (h : host = {}) : host.alive = false := by subst h; rfl

end Host

/-! ## The stages of a run -/

namespace Stage

/-- The stages inside `spawn`. -/
def spawning : Stage → Bool
  | .exec => true
  | .starting _ => true
  | .aborting => true
  | _ => false

/-- bwrap is not started any more. -/
def launched : Stage → Bool
  | .idle => false
  | .exec => false
  | _ => true

theorem launched_of_not_spawning {stage : Stage} (hs : stage.spawning = false) (hi : stage ≠ .idle) :
    stage.launched = true := by
  cases stage <;> first | rfl | exact absurd rfl hi | cases hs

end Stage

/-- What a run, its `SandboxProcess` and the processes know of each other. -/
structure Tied (host : Host) (e : ProcessExecution) : Prop where
  spawning : e.spawning = e.stage.spawning
  idle : e.stage = .idle → host = {}
  pending : e.stage = .idle ∨ e.spawning = true → e.proc = none
  attached : e.proc = none → e.spawning = false → e.stage = .idle ∨ e.stage = .ended
  ended : e.stage = .ended → e.proc = none → host.alive = false
  started : e.proc ≠ none → host.init ≠ .absent
  pinned : ∀ p, e.proc = some p → p.dead = true ∨ p.initPidfd = false → host.init = .gone
  drained : e.stage = .drained → host.init = .gone

/-- Stages only go on. -/
structure Later (e e' : ProcessExecution) : Prop where
  begun : e.stage ≠ .idle → e'.stage ≠ .idle
  launched : e.stage.launched = true → e'.stage.launched = true
  proc : e.proc ≠ none → e'.proc ≠ none

theorem Later.refl (e : ProcessExecution) : Later e e := ⟨id, id, id⟩

theorem Tied.not_spawning (h : Tied host e) (hp : e.proc ≠ none) : e.spawning = false := by
  cases hs : e.spawning with
  | false => rfl
  | true => exact absurd (h.pending (Or.inr hs)) hp

theorem Tied.launched (h : Tied host e) (hp : e.proc ≠ none) : e.stage.launched = true :=
  Stage.launched_of_not_spawning (h.spawning.symm.trans (h.not_spawning hp)) fun hi =>
    hp (h.pending (Or.inl hi))

theorem Tied.proc_ne_none (h : Tied host e) (hs : e.stage.spawning = false) (hi : e.stage ≠ .idle)
    (he : e.stage ≠ .ended) : e.proc ≠ none :=
  fun hp => (h.attached hp (h.spawning.trans hs)).elim hi he

/-! ## Killing -/

namespace SandboxProcess

theorem kill_verified (h : p.kill.1 = some true) : p.dead = true ∨ p.initPidfd = false := by
  unfold kill at h
  split at h
  · exact Or.inl ‹_›
  · split at h
    · cases h
    · exact Or.inr (by simpa using ‹¬p.initPidfd = true›)

theorem kill_pinned (h : p.kill.2.dead = true ∨ p.kill.2.initPidfd = false) :
    p.dead = true ∨ p.initPidfd = false := by
  unfold kill at h
  split at h
  · exact h
  · split at h
    · exact h
    · exact Or.inr (by simpa using ‹¬p.initPidfd = true›)

theorem closeFds_pinned (h : p.closeFds.dead = true ∨ p.closeFds.initPidfd = false) :
    p.dead = true ∨ p.initPidfd = false := by
  cases hd : p.dead with
  | true => exact Or.inl rfl
  | false => simpa [closeFds, hd] using h

theorem waited_pinned {exited : Bool}
    (h : (p.waited exited).dead = true ∨ (p.waited exited).initPidfd = false) :
    exited = true ∨ p.initPidfd = false := by
  cases exited with
  | true => exact Or.inl rfl
  | false => simpa [waited] using h

end SandboxProcess

namespace ProcessExecution

theorem kill_not_spawning (h : e.kill.1 = some true) : e.spawning = false := by
  cases hs : e.spawning with
  | false => rfl
  | true => simp [kill, hs] at h

theorem kill_waits (h : e.kill.1 = none) : e.proc ≠ none := by
  intro hp
  cases hs : e.spawning <;> simp [kill, hs, hp] at h

end ProcessExecution

namespace Tied

/-- `spawn` returns a process whose init has started. -/
theorem spawned (hi : host.init ≠ .absent) (hp : p.dead = true ∨ p.initPidfd = false → host.init = .gone) :
    Tied host (e.spawned p) := by
  unfold ProcessExecution.spawned
  split_ifs
  · exact ⟨rfl, nofun, nofun, nofun, nofun, fun _ => hi, fun q hq hd => hp (Option.some.inj hq ▸ hd), nofun⟩
  · exact ⟨rfl, nofun, nofun, nofun, nofun, fun _ => hi, fun q hq hd => hp (Option.some.inj hq ▸ hd), nofun⟩

variable (h : Tied host e)
include h

/-- Where `kill` returns true, nothing of the sandbox runs. -/
theorem kill_verified (hk : e.kill.1 = some true) : host.alive = false := by
  unfold ProcessExecution.kill at hk
  split at hk
  · cases hk
  · rename_i hs
    cases hp : e.proc with
    | none =>
        rcases h.attached hp (by simpa using hs) with hi | he
        · exact Host.not_alive_of_absent (h.idle hi)
        · exact h.ended he hp
    | some p =>
        rw [hp] at hk
        exact Host.not_alive_of_gone (h.pinned p hp (SandboxProcess.kill_verified hk))

/-- A change of the `SandboxProcess` that reports no more than what is so. -/
theorem modify {f : SandboxProcess → SandboxProcess}
    (hf : ∀ p, e.proc = some p → (f p).dead = true ∨ (f p).initPidfd = false → host.init = .gone) :
    Tied host (e.modify f) where
  spawning := h.spawning
  idle := h.idle
  pending := fun hs => by simp [ProcessExecution.modify, h.pending hs]
  attached := fun hp hs => h.attached (by simpa [ProcessExecution.modify] using hp) hs
  ended := fun hs hp => h.ended hs (by simpa [ProcessExecution.modify] using hp)
  started := fun hp => h.started (by simpa [ProcessExecution.modify] using hp)
  pinned := by
    intro q hq hd
    obtain ⟨p, hp, rfl⟩ := Option.map_eq_some_iff.mp hq
    exact hf p hp hd
  drained := h.drained

/-- A run with a `SandboxProcess` moves on. -/
theorem advance (stage : Stage) (hp : e.proc ≠ none) (hs : stage.spawning = false)
    (hi : stage ≠ .idle) (hd : stage = .drained → host.init = .gone) :
    Tied host { e with stage := stage } where
  spawning := (h.not_spawning hp).trans hs.symm
  idle := fun hs => absurd hs hi
  pending := fun hs => h.pending (hs.elim (fun hs => absurd hs hi) Or.inr)
  attached := fun hn => absurd hn hp
  ended := fun _ hn => absurd hn hp
  started := h.started
  pinned := h.pinned
  drained := hd

theorem spawnFailed (hp : e.proc = none) (ha : host.alive = false) : Tied host e.spawnFailed where
  spawning := rfl
  idle := fun hs => by cases hs
  pending := fun _ => hp
  attached := fun _ _ => Or.inr rfl
  ended := fun _ _ => ha
  started := fun hn => absurd hp hn
  pinned := h.pinned
  drained := fun hs => by cases hs

theorem stop (hi : e.stage = .idle) : Tied host { e with stage := .ended } := by
  have hs : e.spawning = false := by rw [h.spawning, hi]; rfl
  have ht := h.spawnFailed (h.pending (Or.inl hi)) (Host.not_alive_of_absent (h.idle hi))
  rwa [ProcessExecution.spawnFailed, ← hs] at ht

theorem spawn {stage : Stage} (hs : e.spawning = true) (hst : stage.spawning = true) :
    Tied host { e with stage := stage } where
  spawning := hs.trans hst.symm
  idle := fun hi => by rw [show stage = .idle from hi] at hst; cases hst
  pending := fun _ => h.pending (Or.inr hs)
  attached := fun _ hn => absurd (hs.symm.trans hn) (by decide)
  ended := fun hi => by rw [show stage = .ended from hi] at hst; cases hst
  started := h.started
  pinned := h.pinned
  drained := fun hi => by rw [show stage = .drained from hi] at hst; cases hst

theorem kill : Tied host e.kill.2 := by
  unfold ProcessExecution.kill
  split
  · exact h
  · cases hp : e.proc with
    | none => exact h
    | some p =>
        have hm := h.modify (f := fun p => p.kill.2) fun q hq hd =>
          h.pinned q hq (SandboxProcess.kill_pinned hd)
        simpa [ProcessExecution.modify, hp] using hm

end Tied

namespace Later

theorem advance {stage : Stage} (hi : stage ≠ .idle) (hl : stage.launched = true) :
    Later e { e with stage := stage } := ⟨fun _ => hi, fun _ => hl, id⟩

theorem spawnFailed : Later e e.spawnFailed := ⟨fun _ => nofun, fun _ => rfl, id⟩

theorem spawned : Later e (e.spawned p) := by
  unfold ProcessExecution.spawned
  split_ifs
  · exact ⟨fun _ => nofun, fun _ => rfl, fun _ => nofun⟩
  · exact ⟨fun _ => nofun, fun _ => rfl, fun _ => nofun⟩

theorem modify (f : SandboxProcess → SandboxProcess) : Later e (e.modify f) :=
  ⟨id, id, fun hp => by simpa [ProcessExecution.modify] using hp⟩

theorem kill : Later e e.kill.2 := by
  unfold ProcessExecution.kill
  split
  · exact .refl e
  · cases hp : e.proc with
    | none => exact .refl e
    | some p => exact ⟨id, id, fun _ => by simp⟩

theorem trans {e'' : ProcessExecution} (h : Later e e') (h' : Later e' e'') : Later e e'' :=
  ⟨fun hs => h'.begun (h.begun hs), fun hs => h'.launched (h.launched hs), fun hp => h'.proc (h.proc hp)⟩

end Later

end Fronta.Sandbox
