import Fronta.Completions.Lemmas.Queue

/-!
# Steps of the completion writer

Every step keeps the invariant. A failed run resolves its batch and the whole queue, a returned one its
batch only, and then the loop goes on.
-/

namespace Fronta.Completions

open Sql

variable {ε : Type} {s s' : Sys ε}

theorem Fate.mono {y : Entry} {future : Future ε} (h : Fate s y future)
    (hr : ∀ r ∈ s.results, r ∈ s'.results) (hf : ∀ f ∈ s.failures, f ∈ s'.failures) :
    Fate s' y future := by
  cases future with
  | pending => exact h
  | result state => obtain ⟨r, hm, hr'⟩ := h; exact ⟨r, hr r hm, hr'⟩
  | exception e => obtain ⟨f, hm, hf'⟩ := h; exact ⟨f, hf f hm, hf'⟩
  | cancelled => exact h

namespace Core

variable (h : Core s)
include h

theorem answered_later (hl : Sys.Later s s') {r : List Entry × (TaskId → Option State)}
    (hr : r ∈ s.results) {y : Entry} (hy : y ∈ r.1) : s'.Holds y fun call =>
      call.future = .result (r.2 y.1.id) ∨ call.future = .cancelled :=
  ((h.answered r hr).2 y hy).later hl fun call hf => by
    rcases hf with hf | hf <;> simp [hf, Future.done]

theorem failed_later (hl : Sys.Later s s') {f : Option ε × List Entry} (hf : f ∈ s.failures) {y : Entry}
    (hy : y ∈ f.2) : s'.Holds y fun call =>
      call.future = f.1.elim .cancelled .exception ∨ call.future = .cancelled :=
  (h.failed f hf y hy).later hl fun call hc => by
    cases he : f.1 <;> rcases hc with hc | hc <;> simp [hc, he, Future.done]

/-! ## Callers -/

theorem complete (completion : Completion) : Core (s.complete completion) where
  order := by
    rw [Sys.complete, ← List.append_assoc, List.pairwise_append]
    refine ⟨h.order, List.pairwise_singleton _ _, fun y hy z hz => ?_⟩
    rw [List.mem_singleton.mp hz]
    exact h.bounded y hy
  bounded := by
    intro y hy
    rw [Sys.complete, ← List.append_assoc] at hy
    rcases List.mem_append.mp hy with hy | hy
    · exact Nat.lt_succ_of_lt (h.bounded y hy)
    · rw [List.mem_singleton.mp hy]
      exact Nat.lt_succ_self _
  queued := by
    intro y hy
    rcases List.mem_append.mp hy with hy | hy
    · obtain ⟨call, hc, hf⟩ := h.queued y hy
      exact ⟨call, Table.get_insert_of_get hc, hf⟩
    · cases List.mem_singleton.mp hy
      exact ⟨_, Table.get_insert_self, rfl, Or.inl rfl⟩
  handed := h.handed
  answered := fun r hr => ⟨(h.answered r hr).1, fun y hy =>
    h.answered_later (Sys.later_complete completion) hr hy⟩
  failed := fun f hf y hy => h.failed_later (Sys.later_complete completion) hf hy
  waiting := by
    intro x call hc hd
    rcases Table.get_insert_cases hc with ⟨-, rfl⟩ | hc
    · rfl
    · exact h.waiting x call hc hd
  fate := by
    intro x call hc
    rcases Table.get_insert_cases hc with ⟨-, rfl⟩ | hc
    · exact trivial
    · exact (h.fate x call hc).mono (fun _ hr => hr) fun _ hf => hf
  delivered := by
    intro x call hc hw
    rcases Table.get_insert_cases hc with ⟨rfl, rfl⟩ | hc
    · exact Or.inl (List.mem_append_right _ List.mem_cons_self)
    · exact (h.delivered x call hc hw).imp (List.mem_append_left _) id

theorem cancel (x : Ref) : Core (s.cancel x) where
  order := h.order
  bounded := h.bounded
  queued := by
    intro y hy
    obtain ⟨call, hc, he, hf⟩ := h.queued y hy
    refine ⟨_, by rw [Sys.get_cancel, hc]; rfl, ?_⟩
    dsimp only
    split
    · rename_i hx
      refine ⟨he, Or.inr ⟨rfl, decide_eq_true ?_⟩⟩
      rw [he, ← hx.1]
      exact hy
    · exact ⟨he, hf⟩
  handed := h.handed
  answered := fun r hr => ⟨(h.answered r hr).1, fun y hy => h.answered_later (Sys.later_cancel x) hr hy⟩
  failed := fun f hf y hy => h.failed_later (Sys.later_cancel x) hf hy
  waiting := by
    intro x' call' hc' hd
    obtain ⟨call, hc, ⟨-, -, rfl⟩ | rfl⟩ := Sys.get_cancel_cases hc'
    · simp [Future.done] at hd
    · exact h.waiting x' call' hc hd
  fate := by
    intro x' call' hc'
    obtain ⟨call, hc, ⟨-, -, rfl⟩ | rfl⟩ := Sys.get_cancel_cases hc'
    · exact trivial
    · exact (h.fate x' call' hc).mono (fun _ hr => hr) fun _ hf => hf
  delivered := by
    intro x' call' hc' hw
    obtain ⟨call, hc, ⟨-, hd, rfl⟩ | rfl⟩ := Sys.get_cancel_cases hc'
    · exact h.delivered x' call hc (h.waiting x' call hc hd)
    · exact h.delivered x' call' hc hw

/-! ## Runs -/

/-- A batch is answered. -/
theorem returns {batch active : List Entry} {applied : TaskId → Option State} (ha : active ∈ s.handed)
    (hsub : active ⊆ batch) (hb : ∀ y ∈ batch, s.Holds y fun call =>
      (call.future = .pending ∧ y ∈ active) ∨ call.future = .cancelled) :
    Core (s.answer batch active applied) where
  order := h.order
  bounded := h.bounded
  queued := by
    intro y hy
    obtain ⟨call, hc, he, hf⟩ := h.queued y hy
    refine ⟨_, by rw [Sys.calls_answer, Sys.get_resolve, hc]; rfl, ?_⟩
    dsimp only
    split
    · -- an entry of the batch whose future is not done has been handed over
      rename_i hin
      rw [he] at hin
      obtain ⟨call', hc', -, hf'⟩ := hb y hin.1
      cases hc.symm.trans hc'
      rcases hf' with ⟨-, hact⟩ | hcan
      · exact absurd hy (h.not_mem_pending (List.mem_flatten_of_mem ha hact))
      · simp [hcan, Future.done] at hin
    · exact ⟨he, hf⟩
  handed := h.handed
  answered := by
    intro r hr
    rcases List.mem_append.mp hr with hr | hr
    · exact ⟨(h.answered r hr).1, fun y hy => h.answered_later (Sys.later_resolve Sys.calls_answer) hr hy⟩
    · cases List.mem_singleton.mp hr
      refine ⟨ha, fun y hy => ?_⟩
      obtain ⟨call, hc, he, hf⟩ := hb y (hsub hy)
      refine ⟨_, by rw [Sys.calls_answer, Sys.get_resolve, hc]; rfl, ?_⟩
      rcases hf with ⟨hf, -⟩ | hf
      · simp [he, hf, hsub hy, Future.done]
      · simp [he, hf, Future.done]
  failed := fun f hf y hy => h.failed_later (Sys.later_resolve Sys.calls_answer) hf hy
  waiting := by
    intro x call' hc' hd
    obtain ⟨call, hc, ⟨-, -, rfl⟩ | ⟨-, rfl⟩⟩ := Sys.get_resolve_cases Sys.calls_answer hc'
    · simp [Future.done] at hd
    · exact h.waiting x call' hc hd
  fate := by
    intro x call' hc'
    obtain ⟨call, hc, ⟨hin, hd, rfl⟩ | ⟨-, rfl⟩⟩ := Sys.get_resolve_cases Sys.calls_answer hc'
    · obtain ⟨call', hc', -, hf⟩ := hb _ hin
      cases hc.symm.trans hc'
      rcases hf with ⟨-, hact⟩ | hcan
      · exact ⟨_, List.mem_append_right _ List.mem_cons_self, hact, rfl⟩
      · simp [hcan, Future.done] at hd
    · exact (h.fate x call' hc).mono (fun _ => List.mem_append_left _) fun _ hf => hf
  delivered := by
    intro x call' hc' hw
    obtain ⟨call, hc, ⟨-, -, rfl⟩ | ⟨-, rfl⟩⟩ := Sys.get_resolve_cases Sys.calls_answer hc'
    · exact h.delivered x call hc hw
    · exact h.delivered x call' hc hw

theorem fail {batch active : List Entry} (e : Option ε) (hb : ∀ y ∈ batch, s.Holds y fun call =>
      (call.future = .pending ∧ y ∈ active) ∨ call.future = .cancelled) : Core (s.fail e batch) where
  order := by
    refine h.order.sublist ?_
    exact (List.Sublist.refl _).append (List.nil_sublist _)
  bounded := fun y hy => h.bounded y
    ((List.mem_append.mp hy).elim (List.mem_append_left _) (fun hm => absurd hm List.not_mem_nil))
  queued := nofun
  handed := h.handed
  answered := fun r hr => ⟨(h.answered r hr).1, fun y hy =>
    h.answered_later (Sys.later_resolve Sys.calls_fail) hr hy⟩
  failed := by
    intro f hf y hy
    rcases List.mem_append.mp hf with hf | hf
    · exact h.failed_later (Sys.later_resolve Sys.calls_fail) hf hy
    · cases List.mem_singleton.mp hf
      have hq : s.Holds y fun call => call.future = .pending ∨ call.future = .cancelled := by
        rcases List.mem_append.mp hy with hm | hm
        · exact (hb y hm).imp fun call hf => hf.imp And.left id
        · exact (h.queued y hm).imp fun call hf => hf.imp id And.left
      obtain ⟨call, hc, he, hf⟩ := hq
      refine ⟨_, by rw [Sys.calls_fail, Sys.get_resolve, hc]; rfl, ?_⟩
      rcases hf with hf | hf
      · simp [he, hf, List.mem_append.mp hy, Future.done]
      · simp [he, hf, Future.done]
  waiting := by
    intro x call' hc' hd
    obtain ⟨call, hc, ⟨-, -, rfl⟩ | ⟨-, rfl⟩⟩ := Sys.get_resolve_cases Sys.calls_fail hc'
    · cases e <;> simp [Future.done] at hd
    · exact h.waiting x call' hc hd
  fate := by
    intro x call' hc'
    obtain ⟨call, hc, ⟨hin, hd, rfl⟩ | ⟨-, rfl⟩⟩ := Sys.get_resolve_cases Sys.calls_fail hc'
    · cases e with
      | none => exact trivial
      | some e => exact ⟨_, List.mem_append_right _ List.mem_cons_self, rfl, hin⟩
    · exact (h.fate x call' hc).mono (fun _ hr => hr) fun _ => List.mem_append_left _
  delivered := by
    intro x call' hc' hw
    have hold : ∀ call, s.calls.get x = some call → call.withdrawn = false →
        (call.completion, x) ∈ s.handed.flatten ∨ ∃ f ∈ (s.fail e batch).failures,
          (call.completion, x) ∈ f.2 := by
      intro call hc hw
      rcases h.delivered x call hc hw with hm | hm | ⟨f, hf, hm⟩
      · exact Or.inr ⟨_, List.mem_append_right _ List.mem_cons_self, List.mem_append_right _ hm⟩
      · exact Or.inl hm
      · exact Or.inr ⟨f, List.mem_append_left _ hf, hm⟩
    obtain ⟨call, hc, ⟨-, -, rfl⟩ | ⟨-, rfl⟩⟩ := Sys.get_resolve_cases Sys.calls_fail hc'
    · exact Or.inr (hold call hc hw)
    · exact Or.inr (hold call' hc hw)

end Core

/-! ## The background task -/

theorem Idle.complete (h : Idle s) (completion : Completion) : Idle (s.complete completion) := by
  intro x call hc hd
  rcases Table.get_insert_cases hc with ⟨rfl, rfl⟩ | hc
  · exact List.mem_append_right _ List.mem_cons_self
  · exact List.mem_append_left _ (h x call hc hd)

theorem Idle.cancel (h : Idle s) (x : Ref) : Idle (s.cancel x) := by
  intro x' call' hc' hd
  obtain ⟨call, hc, ⟨-, -, rfl⟩ | rfl⟩ := Sys.get_cancel_cases hc'
  · simp [Future.done] at hd
  · exact h x' call' hc hd

theorem Fits.complete (h : Fits s s.task) (completion : Completion) :
    Fits (s.complete completion) (s.complete completion).task := by
  have hne : (s.complete completion).pending ≠ [] := by simp [Sys.complete]
  cases ht : s.task with
  | none =>
      rw [ht] at h
      simp only [Sys.complete, ht]
      exact ⟨hne, h.2.complete completion⟩
  | some task =>
      rw [ht] at h
      cases task with
      | created cancelled =>
          simp only [Sys.complete, ht]
          exact ⟨hne, h.2.complete completion⟩
      | done started =>
          simp only [Sys.complete, ht]
          exact ⟨hne, h.2.complete completion⟩
      | writing batch active =>
          simp only [Sys.complete, ht]
          obtain ⟨ha, hsub, hb, hacc⟩ := h
          refine ⟨ha, hsub, fun y hy => ?_, fun x call hc hd => ?_⟩
          · obtain ⟨call, hc, hf⟩ := hb y hy
            exact ⟨call, Table.get_insert_of_get hc, hf⟩
          · rcases Table.get_insert_cases hc with ⟨rfl, rfl⟩ | hc
            · exact Or.inl (List.mem_append_right _ List.mem_cons_self)
            · exact (hacc x call hc hd).imp_left (List.mem_append_left _)

theorem Fits.cancel {task : Option Background} (h : Fits s task) (x : Ref) :
    Fits (s.cancel x) task := by
  cases task with
  | none => exact ⟨h.1, h.2.cancel x⟩
  | some task =>
      cases task with
      | created cancelled => exact ⟨h.1, h.2.cancel x⟩
      | done started => exact ⟨h.1, h.2.cancel x⟩
      | writing batch active =>
          obtain ⟨ha, hsub, hb, hacc⟩ := h
          refine ⟨ha, hsub, fun y hy => ?_, fun x' call' hc' hd => ?_⟩
          · obtain ⟨call, hc, he, hf⟩ := hb y hy
            refine ⟨_, by rw [Sys.get_cancel, hc]; rfl, ?_⟩
            dsimp only
            split
            · exact ⟨he, Or.inr rfl⟩
            · exact ⟨he, hf⟩
          · obtain ⟨call, hc, ⟨-, -, rfl⟩ | rfl⟩ := Sys.get_cancel_cases hc'
            · simp [Future.done] at hd
            · exact hacc x' call' hc hd

namespace Inv

variable (h : Inv s)
include h

theorem begin (hs : s.step .begin = some s') : Inv s' := by
  have hf := h.fits
  simp only [Sys.step] at hs
  split at hs
  · rename_i ht
    cases hs
    rw [ht] at hf
    exact h.core.loop hf.2 (Nat.le_refl _)
  · rename_i ht
    cases hs
    rw [ht] at hf
    exact ⟨h.core.task _, by simp [hf.1], hf.2⟩
  · cases hs

theorem returns {applied : TaskId → Option State} (hs : s.step (.returns applied) = some s') :
    Inv s' := by
  have hf := h.fits
  simp only [Sys.step] at hs
  split at hs
  · rename_i batch active ht
    cases hs
    rw [ht] at hf
    obtain ⟨ha, hsub, hb, hacc⟩ := hf
    refine (h.core.returns ha hsub hb).loop (fun x call' hc' hd => ?_) (Nat.le_refl _)
    obtain ⟨call, hc, ⟨-, -, rfl⟩ | ⟨hdone, rfl⟩⟩ := Sys.get_resolve_cases Sys.calls_answer hc'
    · simp [Future.done] at hd
    · refine (hacc x call' hc hd).resolve_right fun hin => ?_
      exact Bool.noConfusion (hd.symm.trans (hdone hin))
  · cases hs

theorem raises {e : Option ε} (hs : s.step (.raises e) = some s') : Inv s' := by
  have hf := h.fits
  simp only [Sys.step] at hs
  split at hs
  · rename_i batch active ht
    cases hs
    rw [ht] at hf
    obtain ⟨-, -, hb, hacc⟩ := hf
    refine ⟨h.core.fail e hb, ⟨fun _ => rfl, fun _ => rfl⟩, fun x call' hc' hd => ?_⟩
    obtain ⟨call, hc, ⟨-, -, rfl⟩ | ⟨hdone, rfl⟩⟩ := Sys.get_resolve_cases Sys.calls_fail hc'
    · cases e <;> simp [Future.done] at hd
    · have hin := hdone (List.mem_append.mpr (hacc x call' hc hd).symm)
      exact Bool.noConfusion (hd.symm.trans hin)
  · cases hs

theorem close (hs : s.step .close = some s') : Inv s' := by
  have hf := h.fits
  simp only [Sys.step] at hs
  split at hs
  · rename_i ht
    cases hs
    rw [ht] at hf
    exact ⟨h.core.task _, hf⟩
  · cases hs
    exact h

theorem step {action : Action ε} (hs : s.step action = some s') : Inv s' := by
  cases action with
  | complete completion =>
      cases hs
      exact ⟨h.core.complete completion, h.fits.complete completion⟩
  | cancel x =>
      cases hs
      exact ⟨h.core.cancel x, h.fits.cancel x⟩
  | begin => exact h.begin hs
  | returns applied => exact h.returns hs
  | raises e => exact h.raises hs
  | close => exact h.close hs

end Inv

/-! ## Calls and results -/

namespace Sys

variable {x : Ref} {call' : Call ε} {applied : TaskId → Option State}

theorem loop_frame (n : ℕ) : (loop n s).calls = s.calls ∧ (loop n s).results = s.results := by
  induction n generalizing s with
  | zero => exact ⟨rfl, rfl⟩
  | succ n ih =>
      unfold loop
      split
      · exact ⟨rfl, rfl⟩
      · dsimp only
        split
        · exact ih
        · exact ⟨rfl, rfl⟩

theorem begin_spec (hs : s.step .begin = some s') :
    (∃ cancelled, s.task = some (.created cancelled)) ∧ s'.calls = s.calls ∧ s'.results = s.results := by
  simp only [step] at hs
  split at hs
  · rename_i ht
    cases hs
    exact ⟨⟨_, ht⟩, loop_frame _⟩
  · rename_i ht
    cases hs
    exact ⟨⟨_, ht⟩, rfl, rfl⟩
  · cases hs

theorem close_spec (hs : s.step .close = some s') : s'.calls = s.calls ∧ s'.results = s.results ∧
    ∀ batch active, s.task = some (.writing batch active) → s'.task = s.task := by
  simp only [step] at hs
  split at hs <;> cases hs
  · rename_i ht
    exact ⟨rfl, rfl, fun batch active hw => by rw [ht] at hw; cases hw⟩
  · exact ⟨rfl, rfl, fun _ _ _ => rfl⟩

theorem returns_spec (hs : s.step (.returns applied) = some s') : ∃ batch active,
    s.task = some (.writing batch active) ∧
      s'.calls = (s.resolve batch fun id => .result (applied id)).calls ∧
      s'.results = s.results ++ [(active, applied)] := by
  simp only [step] at hs
  split at hs
  · rename_i batch active ht
    cases hs
    exact ⟨batch, active, ht, loop_frame _⟩
  · cases hs

end Sys

end Fronta.Completions
