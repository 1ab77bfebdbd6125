import Fronta.Lifecycle.System
import Fronta.Shutdown.Lemmas.Attempts

/-!
# What holds in each stage

Once the claim loop is left no controller begins, so what the unfinished ones have in common lasts.
-/

namespace Fronta

open Sql
open Worker (Ref)

namespace Worker.Sys

variable {s s' : Sys} {action : Action} {P Q : Ref → Attempt → Prop} {x : Ref} {a : Attempt}

/-- Every controller that runs has this property. -/
def Each (s : Sys) (P : Ref → Attempt → Prop) : Prop :=
  ∀ x a, s.objects.get x = some a → a.phase = .running → P x a

/-- No controller runs. -/
abbrev Over (s : Sys) : Prop := s.Each fun _ _ => False

/-- Every controller that runs was asked to stop. -/
abbrev Asked (s : Sys) : Prop := s.Each fun _ a => a.cause.isSome

/-- Every controller that runs is listed. -/
abbrev Within (s : Sys) (l : List Ref) : Prop := s.Each fun x _ => x ∈ l

theorem Each.mono (h : s.Each P) (hpq : ∀ x a, P x a → Q x a) : s.Each Q := fun x a hx hp => hpq x a (h x a hx hp)

/-- No controller begins, and whoever was asked to stop stays asked. -/
def Winds (s s' : Sys) : Prop :=
  ∀ x b, s'.objects.get x = some b → ∃ a, s.objects.get x = some a ∧ (b.phase = .running → a.phase = .running) ∧
    (a.cause.isSome → b.cause.isSome)

/-- Without a claim in flight no controller begins. -/
theorem winds_step (hs : s.step action = some s') (hc : s.call = none) : Winds s s' := by
  intro x b hx
  rcases object_origin hs hx with ⟨a, ha, hn⟩ | ⟨-, -, -, hm⟩
  · refine ⟨a, ha, hn.running, fun hsome => ?_⟩
    rcases hn.cause with he | ⟨cause, hnone, -⟩
    · exact he ▸ hsome
    · rw [hnone] at hsome
      cases hsome
  · rw [claimed_of_call hc] at hm
    cases hm

theorem Winds.refl (h : s'.objects = s.objects) : Winds s s' := fun _ b hx => ⟨b, h ▸ hx, id, id⟩

theorem Winds.each (hw : Winds s s') (h : s.Each P) (hp : ∀ x a b, (a.cause.isSome → b.cause.isSome) → P x a → P x b) :
    s'.Each P := by
  intro x b hx hb
  obtain ⟨a, ha, hr, hc⟩ := hw x b hx
  exact hp x a b hc (h x a ha (hr hb))

theorem Winds.finished (hw : Winds s s') (h : s.Over) : s'.Over := hw.each h fun _ _ _ _ => id

theorem Winds.asked (hw : Winds s s') (h : s.Asked) : s'.Asked := hw.each h fun _ _ _ => id

theorem Winds.within {l : List Ref} (hw : Winds s s') (h : s.Within l) : s'.Within l := hw.each h fun _ _ _ _ => id

/-- The map holds every controller that runs. -/
theorem Inv.within (hi : s.Inv) : s.Within (s.attempts.entries.map Sigma.snd) := by
  intro x a hx hp
  have hl := hi.tracked x a hx (by simp [hp])
  exact List.mem_map.mpr ⟨⟨a.row, x⟩, (List.mem_dlookup_iff s.attempts.nodupKeys).mp hl, rfl⟩

end Worker.Sys

namespace Lifecycle

variable {s s' : Sys} {late : Option Raised} {wait : Wait} {l tasks : List Ref}

/-! ## The drain -/

theorem over_of_tasks (hi : s.worker.Inv) (h : s.tasks = []) : s.worker.Over := by
  intro x a hx hp
  have hm := hi.within x a hx hp
  rw [show s.worker.attempts.entries.map Sigma.snd = [] from h] at hm
  cases hm

theorem within_running (hi : s.worker.Inv) : s.worker.Within s.running := by
  intro x a hx hp
  exact List.mem_filter.mpr ⟨hi.within x a hx hp, by simp [hx, hp]⟩

theorem over_of_allEnded (hw : s.worker.Within l) (h : s.allEnded l = true) : s.worker.Over := by
  intro x a hx hp
  have he := List.all_eq_true.mp h x (hw x a hx hp)
  rw [hx, Option.all_some, decide_eq_true_eq] at he
  exact he hp

theorem running_of_over (h : s.worker.Over) : s.running = [] := by
  refine List.filter_eq_nil_iff.mpr fun x _ hx => ?_
  obtain ⟨a, ha, hp⟩ := Option.any_eq_true _ _ |>.mp hx
  exact h x a ha (of_decide_eq_true hp)

theorem get_stopAll {x : Ref} {b : Worker.Attempt} (h : s.stopAll.worker.objects.get x = some b) :
    ∃ a, s.worker.objects.get x = some a ∧ b.phase = a.phase ∧ (a.cause.isSome → b.cause.isSome) ∧
      (x ∈ s.tasks → b.cause.isSome) := by
  obtain ⟨a, ha, ⟨hf, rfl⟩ | hf⟩ := Table.get_update_cases h
  · exact ⟨b, ha, rfl, id, fun hx => by simp [hx] at hf⟩
  · obtain ⟨-, hf⟩ := Option.ite_none_right_eq_some.mp hf
    cases hf
    exact ⟨a, ha, rfl, fun _ => rfl, fun _ => rfl⟩

theorem inv_stopAll (hi : s.worker.Inv) : s.stopAll.worker.Inv := by
  refine hi.of_matched (hi.update (fun x a b hb => ?_) rfl rfl) rfl rfl (Nat.le_refl _)
  obtain ⟨-, hb⟩ := Option.ite_none_right_eq_some.mp hb
  cases hb
  exact ⟨rfl, Iff.rfl⟩

/-- A controller is cancelled only after it was asked to stop, and only where nobody waits any longer. -/
structure CutOk (s : Sys) : Prop where
  asked : ∀ x ∈ s.cut, ∀ a, s.worker.objects.get x = some a → a.cause.isSome
  immediate : s.immediate = false → s.cut = []

/-- What holds from the end of the claim loop to the end of the last controller. -/
structure Draining (s : Sys) : Prop where
  worker : s.worker.Inv
  call : s.worker.call = none
  halted : s.halted = false
  released : s.released = []
  cut : CutOk s

/-- What a wait of `_drain` goes on with. -/
structure WaitOk (s : Sys) (late : Option Raised) (wait : Wait) (tasks : List Ref) : Prop where
  late : late.isSome → wait ≠ .grace ∧ s.immediate = true
  asked : wait ≠ .grace → s.worker.Asked
  settle : wait = .settle → s.worker.Within tasks
  immediate : wait = .budget ∨ wait = .cut → s.immediate = false → s.worker.Over
  cut : wait = .cut → s.worker.Within s.cut

/-- What `_drain` leaves to `_stop_loops`. -/
structure Drained (s : Sys) : Prop extends Draining s where
  asked : s.worker.Asked
  immediate : s.immediate = false → s.worker.Over

/-- No controller runs and none begins, and no loop runs. -/
structure Quiet (s : Sys) : Prop where
  finished : s.worker.Over
  call : s.worker.call = none
  loops : s.loops = []

def StoppingOk (s : Sys) : Stopping → Prop
  | .fresh => Drained s
  | .abandoning tasks => Drained s ∧ s.worker.Within tasks ∧ s.worker.Within s.cut
  | .halting => s.worker.Over ∧ s.worker.call = none ∧ s.released = []
  | .done => Quiet s ∧ s.released = []

def ClosingOk (s : Sys) : Closing → Prop
  | .next left => s.released ++ left = Resource.all
  | .failed => s.released <+: Resource.all ∧ s.leaked = true

def StageOk (s : Sys) : Prop :=
  match s.stage with
  | .opening => Quiet s ∧ Draining s ∧ s.cut = []
  | .looping => s.halted = false ∧ s.released = [] ∧ s.cut = []
  | .draining late wait tasks => Draining s ∧ WaitOk s late wait tasks
  | .stopping c => StoppingOk s c.operation
  | .leaving _ => Quiet s ∧ s.released = []
  | .closing c => Quiet s ∧ ClosingOk s c.operation
  | .ended outcome => Quiet s ∧ s.released <+: Resource.all ∧
      (s.released = Resource.all ∨ s.leaked = true ∧ outcome = .raised .error)

theorem StageOk.stopping {c : Cleanup Stopping} (h : StageOk s) (hs : s.stage = .stopping c) :
    StoppingOk s c.operation := by
  rw [StageOk, hs] at h
  exact h

theorem StageOk.closing {c : Cleanup Closing} (h : StageOk s) (hs : s.stage = .closing c) :
    Quiet s ∧ ClosingOk s c.operation := by
  rw [StageOk, hs] at h
  exact h

structure Inv (s : Sys) : Prop where
  worker : s.worker.Inv
  cut : CutOk s
  stage : StageOk s

theorem StoppingOk.call {operation : Stopping} (h : StoppingOk s operation) : s.worker.call = none := by
  cases operation with
  | fresh => exact Draining.call h.toDraining
  | abandoning tasks => exact Draining.call h.1.toDraining
  | halting => exact h.2.1
  | done => exact h.1.call

/-- Only the claim loop has claims in flight. -/
theorem StageOk.call (h : StageOk s) (hl : s.stage ≠ .looping) : s.worker.call = none := by
  unfold StageOk at h
  cases hs : s.stage with
  | looping => exact absurd hs hl
  | opening | draining | leaving | closing | ended =>
      rw [hs] at h
      exact h.1.call
  | stopping c =>
      rw [hs] at h
      exact StoppingOk.call h

/-! ## From one wait to the next -/

theorem CutOk.goto (h : CutOk s) (stage : Stage) : CutOk { s with stage := stage } := ⟨h.asked, h.immediate⟩

theorem Draining.goto (h : Draining s) (stage : Stage) : Draining { s with stage := stage } :=
  ⟨h.worker, h.call, h.halted, h.released, h.cut.goto stage⟩

theorem Quiet.goto (h : Quiet s) (stage : Stage) : Quiet { s with stage := stage } := ⟨h.finished, h.call, h.loops⟩

theorem Drained.goto (h : Drained s) (stage : Stage) : Drained { s with stage := stage } :=
  ⟨h.toDraining.goto stage, h.asked, h.immediate⟩

theorem StoppingOk.goto {operation : Stopping} (h : StoppingOk s operation) (stage : Stage) :
    StoppingOk { s with stage := stage } operation := by
  cases operation with
  | fresh => exact Drained.goto h stage
  | abandoning tasks => exact ⟨h.1.goto stage, h.2⟩
  | halting => exact h
  | done => exact ⟨h.1.goto stage, h.2⟩

theorem inv_waiting (h : Draining s) (hw : WaitOk s late wait tasks) :
    Inv { s with stage := .draining late wait tasks } :=
  ⟨h.worker, h.cut.goto _, h.goto _, ⟨hw.late, hw.asked, hw.settle, hw.immediate, hw.cut⟩⟩

theorem inv_drained (h : Drained s) : Inv (s.drained late) :=
  ⟨h.worker, h.cut.goto _, h.toDraining.goto _, h.asked, h.immediate⟩

/-- The controllers that run are cancelled. -/
theorem cutOk_running (h : CutOk s) (ha : s.worker.Asked) (hi : s.immediate = false → s.worker.Over) (stage : Stage) :
    CutOk { s with stage := stage, cut := s.cut ++ s.running } := by
  refine ⟨fun x hx a hx' => ?_, fun hn => ?_⟩
  · rcases List.mem_append.mp hx with hx | hx
    · exact h.asked x hx a hx'
    · obtain ⟨-, hp⟩ := List.mem_filter.mp hx
      rw [show s.worker.objects.get x = some a from hx'] at hp
      exact ha x a hx' (of_decide_eq_true hp)
  · rw [h.immediate hn, running_of_over (hi hn)]
    rfl

theorem inv_drainCut (h : Drained s) (hl : late.isSome → s.immediate = true) : Inv (s.drainCut late) := by
  unfold Sys.drainCut
  split_ifs with ht
  · exact inv_drained h
  · have hcut := cutOk_running h.cut h.asked h.immediate (.draining late .cut s.tasks)
    have hwithin : s.worker.Within (s.cut ++ s.running) :=
      (within_running h.worker).mono fun x _ hx => List.mem_append_right _ hx
    exact ⟨h.worker, hcut, ⟨h.worker, h.call, h.halted, h.released, hcut⟩, fun hs => ⟨by simp, hl hs⟩,
      fun _ => h.asked, (fun he => by cases he), fun _ => h.immediate, fun _ => hwithin⟩

theorem inv_drainBudget (h : Drained s) (hl : late.isSome → s.immediate = true) : Inv (s.drainBudget late) := by
  unfold Sys.drainBudget
  split_ifs with ht
  · exact inv_drainCut h hl
  · exact inv_waiting h.toDraining ⟨fun hs => ⟨by simp, hl hs⟩, fun _ => h.asked, (fun he => by cases he),
      fun _ => h.immediate, fun he => by cases he⟩

theorem inv_drainSettle (h : Draining s) (ha : s.worker.Asked) (hl : late.isSome → s.immediate = true) :
    Inv (s.drainSettle late) := by
  unfold Sys.drainSettle
  split_ifs with ht hn
  · exact inv_drained ⟨h, ha, fun _ => over_of_tasks h.worker ht⟩
  · exact inv_drainBudget ⟨h, ha, fun hf => by rw [hn] at hf; cases hf⟩ hl
  · exact inv_waiting h ⟨fun hs => ⟨by simp, hl hs⟩, fun _ => ha, fun _ => h.worker.within, (fun he => by simp at he),
      fun he => by cases he⟩

/-- After the grace wait everything is asked to stop. -/
theorem inv_stopped (h : Draining s) (hl : late.isSome → s.immediate = true) :
    Inv (s.stopAll.drainSettle late) := by
  have hcut : CutOk s.stopAll := by
    refine ⟨fun x hx b hb => ?_, h.cut.immediate⟩
    obtain ⟨a, ha, -, hc, -⟩ := get_stopAll hb
    exact hc (h.cut.asked x hx a ha)
  refine inv_drainSettle ⟨inv_stopAll h.worker, h.call, h.halted, h.released, hcut⟩ (fun x b hb hp => ?_) hl
  obtain ⟨a, ha, hphase, -, hc⟩ := get_stopAll hb
  exact hc (h.worker.within x a ha (hphase ▸ hp))

theorem inv_drain (h : Draining s) (hl : late.isSome → s.immediate = true) : Inv (s.drain late) := by
  unfold Sys.drain
  split_ifs with ht
  · refine inv_waiting h ⟨fun hs => ?_, fun hg => absurd rfl hg, (fun he => by cases he), (fun he => by simp at he),
      fun he => by cases he⟩
    rw [hl hs] at ht
    cases ht.2
  · exact inv_stopped h hl

theorem inv_resume (h : Draining s) (hw : WaitOk s late wait tasks)
    (hwake : s.wakes wait tasks = true) : Inv (s.resume late wait) := by
  have hl : late.isSome → s.immediate = true := fun hs => (hw.late hs).2
  cases wait with
  | grace => exact inv_stopped h hl
  | settle =>
      refine inv_drainBudget ⟨h, hw.asked (by simp), fun hn => over_of_allEnded (hw.settle rfl) ?_⟩ hl
      simpa [Sys.wakes, hn] using hwake
  | budget => exact inv_drainCut ⟨h, hw.asked (by simp), hw.immediate (Or.inl rfl)⟩ hl
  | cut => exact inv_drained ⟨h, hw.asked (by simp), hw.immediate (Or.inr rfl)⟩

end Lifecycle

end Fronta
