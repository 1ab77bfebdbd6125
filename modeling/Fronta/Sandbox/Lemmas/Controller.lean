import Fronta.Sandbox.Lemmas.Death

/-!
# The controller of a sandboxed attempt

The processes, the run and the calls of `kill` each keep what the others know. Once bwrap is not started
any more, a dead sandbox stays dead.
-/

namespace Fronta.Sandbox

open Sql

variable {s s' : Sys} {action : Action}

/-! ## Processes -/

namespace Sys

theorem hostStep_cases {host : Host} (h : s.hostStep action = some host) :
    (s.execution.stage = .exec ∧ s.host.outer = .absent ∧ host = { s.host with outer := .alive }) ∨
    (s.host.outer = .alive ∧ s.host.init = .absent ∧ host = { s.host with init := .alive }) ∨
    (s.host.outer = .alive ∧ host = { s.host with outer := .gone }) ∨
    (s.host.init = .alive ∧ host = { s.host with init := .gone }) := by
  unfold hostStep at h
  split at h
  · obtain ⟨⟨he, ho⟩, h⟩ := Option.ite_none_right_eq_some.mp h
    exact Or.inl ⟨he, ho, (Option.some.inj h).symm⟩
  · obtain ⟨⟨ho, hi⟩, h⟩ := Option.ite_none_right_eq_some.mp h
    exact Or.inr (Or.inl ⟨ho, hi, (Option.some.inj h).symm⟩)
  · obtain ⟨ho, h⟩ := Option.ite_none_right_eq_some.mp h
    exact Or.inr (Or.inr (Or.inl ⟨ho, (Option.some.inj h).symm⟩))
  · obtain ⟨hi, h⟩ := Option.ite_none_right_eq_some.mp h
    exact Or.inr (Or.inr (Or.inr ⟨hi, (Option.some.inj h).symm⟩))
  · cases h

theorem not_alive_of_hostStep {host : Host} (h : s.hostStep action = some host)
    (he : s.execution.stage ≠ .exec) (ha : s.host.alive = false) : host.alive = false := by
  rcases hostStep_cases h with ⟨hexec, -⟩ | ⟨ho, hi, -⟩ | ⟨-, rfl⟩ | ⟨-, rfl⟩
  · exact absurd hexec he
  · simp [Host.alive, ho, hi] at ha
  · have hn : s.host.init ≠ .alive := fun hi => by simp [Host.alive, hi] at ha
    simp [Host.alive, hn]
  · rfl

end Sys

theorem Tied.hostStep {host : Host} (h : Tied s.host s.execution)
    (hs : s.hostStep action = some host) : Tied host s.execution where
  spawning := h.spawning
  idle := fun hi => by
    have hh := h.idle hi
    rcases Sys.hostStep_cases hs with ⟨he, -⟩ | ⟨ho, -⟩ | ⟨ho, -⟩ | ⟨hl, -⟩
    · rw [he] at hi; cases hi
    · rw [hh] at ho; cases ho
    · rw [hh] at ho; cases ho
    · rw [hh] at hl; cases hl
  pending := h.pending
  attached := h.attached
  ended := fun hs' hp => Sys.not_alive_of_hostStep hs (by rw [hs']; decide) (h.ended hs' hp)
  started := fun hp => by
    have hi := h.started hp
    rcases Sys.hostStep_cases hs with ⟨-, -, rfl⟩ | ⟨-, -, rfl⟩ | ⟨-, rfl⟩ | ⟨-, rfl⟩
    · exact hi
    · exact nofun
    · exact hi
    · exact nofun
  pinned := fun p hp hd => by
    have hi := h.pinned p hp hd
    rcases Sys.hostStep_cases hs with ⟨-, -, rfl⟩ | ⟨-, hn, -⟩ | ⟨-, rfl⟩ | ⟨-, rfl⟩
    · exact hi
    · rw [hi] at hn; cases hn
    · exact hi
    · rfl
  drained := fun hd => by
    have hi := h.drained hd
    rcases Sys.hostStep_cases hs with ⟨-, -, rfl⟩ | ⟨-, hn, -⟩ | ⟨-, rfl⟩ | ⟨-, rfl⟩
    · exact hi
    · rw [hi] at hn; cases hn
    · exact hi
    · rfl

/-! ## The run -/

theorem Tied.runStep (h : Tied s.host s.execution) {e : ProcessExecution}
    (hc : s.clean action = true) (hs : s.runStep action = some e) :
    Tied s.host e ∧ Later s.execution e := by
  unfold Sys.runStep at hs
  split at hs
  · obtain ⟨hi, hs⟩ := Option.ite_none_right_eq_some.mp hs
    cases hs
    have hp := h.pending (Or.inl hi)
    refine ⟨⟨rfl, nofun, fun _ => hp, nofun, nofun, fun hn => absurd hp hn, h.pinned, nofun⟩, ?_⟩
    exact ⟨fun _ => nofun, (fun hl => by rw [hi] at hl; cases hl), id⟩
  · obtain ⟨hi, hs⟩ := Option.ite_none_right_eq_some.mp hs
    cases hs
    exact ⟨h.stop hi, .advance nofun rfl⟩
  · obtain ⟨⟨he, -⟩, hs⟩ := Option.ite_none_right_eq_some.mp hs
    cases hs
    exact ⟨h.spawn (by rw [h.spawning, he]; rfl) rfl, .advance nofun rfl⟩
  · obtain ⟨⟨he, hh⟩, hs⟩ := Option.ite_none_right_eq_some.mp hs
    cases hs
    have hp := h.pending (Or.inr (by rw [h.spawning, he]; rfl))
    exact ⟨h.spawnFailed hp (Host.not_alive_of_absent hh), .spawnFailed⟩
  · rename_i l
    split at hs
    · obtain ⟨⟨hi, -⟩, hs⟩ := Option.ite_none_right_eq_some.mp hs
      cases hs
      refine ⟨Tied.spawned hi fun hd => ?_, .spawned⟩
      simp only [Sys.clean, Bool.or_eq_true, decide_eq_true_eq] at hc
      simp only [Bool.false_eq_true, false_or] at hd
      exact hc.resolve_left (by simp [hd])
    · cases hs
  · split at hs
    · rename_i he
      cases hs
      exact ⟨h.spawn (by rw [h.spawning, he]; rfl) rfl, .advance nofun rfl⟩
    · cases hs
  · obtain ⟨he, hs⟩ := Option.ite_none_right_eq_some.mp hs
    cases hs
    have hp := h.pending (Or.inr (by rw [h.spawning, he]; rfl))
    exact ⟨h.spawnFailed hp (by simpa [Sys.clean] using hc), .spawnFailed⟩
  · cases hs
    exact ⟨⟨h.spawning, h.idle, h.pending, h.attached, h.ended, h.started, h.pinned, h.drained⟩, id, id, id⟩
  · obtain ⟨he, hs⟩ := Option.ite_none_right_eq_some.mp hs
    cases hs
    have hp := h.proc_ne_none (by rw [he]; rfl) (by rw [he]; nofun) (by rw [he]; nofun)
    exact ⟨h.advance _ hp rfl nofun nofun, .advance nofun rfl⟩
  · obtain ⟨⟨he, hg⟩, hs⟩ := Option.ite_none_right_eq_some.mp hs
    cases hs
    have hp := h.proc_ne_none (by rw [he]; rfl) (by rw [he]; nofun) (by rw [he]; nofun)
    exact ⟨h.advance _ hp rfl nofun fun _ => hg, .advance nofun rfl⟩
  · obtain ⟨⟨he, -⟩, hs⟩ := Option.ite_none_right_eq_some.mp hs
    cases hs
    have hp := h.proc_ne_none (by rw [he]; rfl) (by rw [he]; nofun) (by rw [he]; nofun)
    have hm := h.modify (f := fun p => { p with dead := true }.closeFds) fun _ _ _ => h.drained he
    have hl := Later.modify (e := s.execution) fun p => { p with dead := true }.closeFds
    exact ⟨hm.advance _ (hl.proc hp) rfl nofun nofun, hl.trans (.advance nofun rfl)⟩
  · split at hs
    · rename_i k he
      obtain ⟨-, hs⟩ := Option.ite_none_right_eq_some.mp hs
      cases hs
      have hp := h.proc_ne_none (by rw [he]; rfl) (by rw [he]; nofun) (by rw [he]; nofun)
      have hm := h.modify (f := SandboxProcess.closeFds) fun p hp hd =>
        h.pinned p hp (SandboxProcess.closeFds_pinned hd)
      have hl := Later.modify (e := s.execution) SandboxProcess.closeFds
      exact ⟨hm.advance _ (hl.proc hp) rfl nofun nofun, hl.trans (.advance nofun rfl)⟩
    · cases hs
  · cases hs

/-! ## Calls of `kill` -/

/-- What every reached state keeps. -/
structure Inv (s : Sys) : Prop where
  tied : Tied s.host s.execution
  verify : ∀ k call, s.calls.get k = some call → call.caller = .verify → s.execution.stage ≠ .idle
  exits : ∀ k call, s.calls.get k = some call → call.wait = .exit → s.execution.proc ≠ none
  settled : s.controller ≠ .running → s.execution.stage.launched = true ∧ s.host.alive = false
  answers : ∀ x ∈ s.answers, x.verified = true → x.alive = false

theorem inv_init : Inv .init :=
  ⟨⟨rfl, fun _ => rfl, fun _ => rfl, fun _ _ => Or.inl rfl, nofun, nofun, nofun, nofun⟩, nofun, nofun,
    fun h => absurd rfl h, nofun⟩

namespace Inv

variable (h : Inv s)
include h

theorem execution {e : ProcessExecution} (ht : Tied s.host e) (hl : Later s.execution e) :
    Inv { s with execution := e } :=
  ⟨ht, fun k call hk hv => hl.begun (h.verify k call hk hv),
    fun k call hk hw => hl.proc (h.exits k call hk hw),
    fun hc => ⟨hl.launched (h.settled hc).1, (h.settled hc).2⟩, h.answers⟩

theorem removeCall (k : CallId) : Inv (s.removeCall k) :=
  ⟨h.tied, fun k' call hk => h.verify k' call (Table.get_erase_eq_some.mp hk).1,
    fun k' call hk => h.exits k' call (Table.get_erase_eq_some.mp hk).1, h.settled, h.answers⟩

/-- A call begins to wait. -/
theorem insert {call : Call} (hv : call.caller = .verify → s.execution.stage ≠ .idle)
    (hw : call.wait = .exit → s.execution.proc ≠ none) :
    Inv { s with calls := s.calls.insert call } where
  tied := h.tied
  verify := by
    intro k call' hk
    rcases Table.get_insert_cases hk with ⟨-, rfl⟩ | hk
    · exact hv
    · exact h.verify k call' hk
  exits := by
    intro k call' hk
    rcases Table.get_insert_cases hk with ⟨-, rfl⟩ | hk
    · exact hw
    · exact h.exits k call' hk
  settled := h.settled
  answers := h.answers

/-- A call returns true only when nothing of the sandbox runs. -/
theorem answer {caller : Caller} {verified : Bool} (ha : verified = true → s.host.alive = false)
    (hl : caller = .verify → verified = true → s.execution.stage.launched = true) :
    Inv (s.answer caller verified) where
  tied := h.tied
  verify := h.verify
  exits := h.exits
  settled := by
    intro hc
    simp only [Sys.answer] at hc
    split at hc
    · rename_i hv
      exact ⟨hl hv.1 hv.2.1, ha hv.2.1⟩
    · exact h.settled hc
  answers := by
    intro x hx hv
    rcases List.mem_append.mp hx with hx | hx
    · exact h.answers x hx hv
    · cases List.mem_singleton.mp hx
      exact ha hv

theorem proceed {caller : Caller} (hv : caller = .verify → s.execution.stage ≠ .idle) :
    Inv (s.proceed caller s.execution.kill) := by
  have hi := h.execution h.tied.kill .kill
  unfold Sys.proceed
  split
  · rename_i verified hk
    refine hi.answer (fun ht => h.tied.kill_verified (ht ▸ hk)) fun hc ht => ?_
    have hs := ProcessExecution.kill_not_spawning (ht ▸ hk)
    exact Later.kill.launched
      (Stage.launched_of_not_spawning (h.tied.spawning.symm.trans hs) (hv hc))
  · rename_i hk
    exact hi.insert (fun hc => Later.kill.begun (hv hc)) fun _ =>
      Later.kill.proc (ProcessExecution.kill_waits hk)

theorem kill {caller : Caller} (hv : caller = .verify → s.execution.stage ≠ .idle) :
    Inv (s.kill caller) := by
  unfold Sys.kill
  split
  · exact h.insert hv nofun
  · exact h.proceed hv

/-- A run that breaks off kills its `SandboxProcess`. -/
theorem breakOff {p : SandboxProcess} (hp : s.execution.proc = some p) : Inv (s.breakOff p) := by
  have hne : s.execution.proc ≠ none := by simp [hp]
  have hpin : ∀ q, s.execution.proc = some q → p = q := fun q hq => Option.some.inj (hp.symm.trans hq)
  unfold Sys.breakOff
  split
  · rename_i verified q hk
    have hq : q = p.kill.2 := by rw [hk]
    have ht := h.tied.modify (f := fun p => p.kill.2.closeFds) fun p hp hd =>
      h.tied.pinned p hp (SandboxProcess.kill_pinned (SandboxProcess.closeFds_pinned hd))
    have hl := Later.modify (e := s.execution) fun p => p.kill.2.closeFds
    have hi := h.execution (ht.advance .ended (hl.proc hne) rfl (by decide) fun hd => by cases hd)
      (hl.trans (.advance (by simp) rfl))
    simp only [ProcessExecution.modify, hp, Option.map_some, ← hq] at hi
    refine hi.answer (fun hv => ?_) fun hc => by cases hc
    exact Host.not_alive_of_gone
      (h.tied.pinned p hp (SandboxProcess.kill_verified (by rw [hk, hv])))
  · rename_i q hk
    have hq : q = p.kill.2 := by rw [hk]
    have ht := h.tied.modify (f := fun p => p.kill.2) fun p hp hd =>
      h.tied.pinned p hp (SandboxProcess.kill_pinned hd)
    have hl := Later.modify (e := s.execution) fun p => p.kill.2
    have hi := h.execution (ht.advance (.cleanup s.calls.next) (hl.proc hne) rfl (by simp) fun hd => by cases hd)
      (hl.trans (.advance (by simp) rfl))
    simp only [ProcessExecution.modify, hp, Option.map_some, ← hq] at hi
    exact hi.insert (fun hv => by cases hv) fun _ => by simp

theorem interrupt (hc : s.clean .interrupt = true) (hs : s.interrupt = some s') : Inv s' := by
  unfold Sys.interrupt at hs
  split at hs
  · rename_i hi
    cases hs
    exact h.execution (h.tied.stop hi) (.advance nofun rfl)
  · rename_i he
    cases hs
    have hp := h.tied.pending (Or.inr (by rw [h.tied.spawning, he]; rfl))
    exact h.execution (h.tied.spawnFailed hp (by simpa [Sys.clean, he] using hc)) .spawnFailed
  · rename_i he
    cases hs
    exact h.execution (h.tied.spawn (by rw [h.tied.spawning, he]; rfl) rfl) (.advance nofun rfl)
  · rename_i he
    cases hs
    have hp := h.tied.pending (Or.inr (by rw [h.tied.spawning, he]; rfl))
    exact h.execution (h.tied.spawnFailed hp (by simpa [Sys.clean, he] using hc)) .spawnFailed
  · rename_i he
    cases hs
    have hp := h.tied.proc_ne_none (by rw [he]; rfl) (by rw [he]; nofun) (by rw [he]; nofun)
    exact h.execution (h.tied.advance _ hp rfl nofun nofun) (.advance nofun rfl)
  · rename_i hp
    cases hs
    exact h.breakOff hp
  · rename_i hp
    cases hs
    exact h.breakOff hp
  · rename_i k p _ hp
    cases hs
    have ht := h.tied.modify (f := SandboxProcess.closeFds) fun p hp hd =>
      h.tied.pinned p hp (SandboxProcess.closeFds_pinned hd)
    have hl := Later.modify (e := s.execution) SandboxProcess.closeFds
    have hne : s.execution.proc ≠ none := by rw [hp]; nofun
    have hi := (h.removeCall k).execution (ht.advance .ended (hl.proc hne) rfl nofun nofun)
      (hl.trans (.advance nofun rfl))
    simpa only [ProcessExecution.modify, hp, Option.map_some] using hi
  · cases hs

theorem callStep (hs : s.callStep action = some s') : Inv s' := by
  unfold Sys.callStep at hs
  split at hs
  · rename_i k
    obtain ⟨call, hk, hs⟩ := Option.bind_eq_some_iff.mp hs
    obtain ⟨-, hs⟩ := Option.ite_none_right_eq_some.mp hs
    cases hs
    exact (h.removeCall k).proceed (h.verify k call hk)
  · rename_i k
    obtain ⟨call, hk, hs⟩ := Option.bind_eq_some_iff.mp hs
    obtain ⟨⟨hw, hg⟩, hs⟩ := Option.ite_none_right_eq_some.mp hs
    cases hs
    have hp := h.exits k call hk hw
    have hi := (h.removeCall k).execution (h.tied.modify fun _ _ _ => hg) (.modify (·.waited true))
    exact hi.answer (fun _ => Host.not_alive_of_gone hg) fun _ _ => h.tied.launched hp
  · rename_i k
    obtain ⟨call, hk, hs⟩ := Option.bind_eq_some_iff.mp hs
    obtain ⟨-, hs⟩ := Option.ite_none_right_eq_some.mp hs
    cases hs
    have ht := h.tied.modify (f := (·.waited false)) fun p hp hd =>
      h.tied.pinned p hp ((SandboxProcess.waited_pinned hd).imp nofun id)
    exact ((h.removeCall k).execution ht (.modify _)).answer nofun nofun
  · rename_i k
    obtain ⟨call, -, hs⟩ := Option.map_eq_some_iff.mp hs
    cases hs
    exact h.removeCall k
  · cases hs

/-! ## Steps -/

theorem hostStep {host : Host} (hs : s.hostStep action = some host) : Inv { s with host := host } where
  tied := h.tied.hostStep hs
  verify := h.verify
  exits := h.exits
  settled := fun hc => by
    obtain ⟨hl, ha⟩ := h.settled hc
    exact ⟨hl, Sys.not_alive_of_hostStep hs (fun he => by rw [he] at hl; cases hl) ha⟩
  answers := h.answers

theorem runStep {e : ProcessExecution} (hc : s.clean action = true)
    (hs : s.runStep action = some e) : Inv { s with execution := e } :=
  h.execution (h.tied.runStep hc hs).1 (h.tied.runStep hc hs).2

theorem step (hc : s.clean action = true) (hs : s.step action = some s') : Inv s' := by
  cases action with
  | kill caller =>
      obtain ⟨hk, hs⟩ := Option.ite_none_right_eq_some.mp hs
      cases hs
      exact h.kill fun hv => (hk.resolve_left (by rw [hv]; nofun)).2.2
  | interrupt => exact h.interrupt hc hs
  | cancel => cases hc
  | submit =>
      obtain ⟨hv, hs⟩ := Option.ite_none_right_eq_some.mp hs
      cases hs
      exact ⟨h.tied, h.verify, h.exits, fun _ => h.settled (by rw [hv]; nofun), h.answers⟩
  | free =>
      obtain ⟨hv, hs⟩ := Option.ite_none_right_eq_some.mp hs
      cases hs
      exact ⟨h.tied, h.verify, h.exits, fun _ => h.settled fun hr => by rw [hr] at hv; simp at hv,
        h.answers⟩
  | wake k =>
      have hk : s.callStep (.wake k) = some s' := hs
      exact h.callStep hk
  | exited k =>
      have hk : s.callStep (.exited k) = some s' := hs
      exact h.callStep hk
  | timeout k =>
      have hk : s.callStep (.timeout k) = some s' := hs
      exact h.callStep hk
  | drop k =>
      have hk : s.callStep (.drop k) = some s' := hs
      exact h.callStep hk
  | start | startInit | exitOuter | exitInit =>
      obtain ⟨host, hh, rfl⟩ := Option.map_eq_some_iff.mp hs
      exact h.hostStep hh
  | stop =>
      cases hs
      exact h.runStep hc rfl
  | run | invalid | spawned | notSpawned | status | noStatus | aborted | signalled | drain | wait | cleaned =>
      obtain ⟨e, he, rfl⟩ := Option.map_eq_some_iff.mp hs
      exact h.runStep hc he

end Inv

end Fronta.Sandbox
