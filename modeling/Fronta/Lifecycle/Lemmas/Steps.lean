import Fronta.Lifecycle.Lemmas.Stages

/-!
# Every step keeps its stage in order

What goes on beside the task of `run` keeps the stage and all that was reached in it.
-/

namespace Fronta.Lifecycle

open Sql Runs
open Worker (Ref)
open Worker.Sys (Winds)

variable {s s' s₁ : Sys} {late : Option Raised} {wait : Wait} {tasks : List Ref} {lifespan : Bool} {action : Action}

/-- What goes on beside the task of `run`. -/
structure Kept (s s' : Sys) : Prop where
  stage : s'.stage = s.stage
  halted : s'.halted = s.halted
  released : s'.released = s.released
  leaked : s'.leaked = s.leaked
  cut : s'.cut = s.cut
  immediate : s.immediate = true → s'.immediate = true
  worker : s'.worker.Inv
  call : s.stage ≠ .looping → s.worker.call = none → s'.worker.call = none
  winds : s.worker.call = none → Winds s.worker s'.worker
  loops : s.loops = [] → s'.loops = []

theorem Kept.patient (hk : Kept s s') (h : s'.immediate = false) : s.immediate = false := by
  cases hi : s.immediate with
  | false => rfl
  | true => exact absurd (hk.immediate hi) (by simp [h])

section Kept

variable (hk : Kept s s') (hl : s.stage ≠ .looping)

include hk

theorem CutOk.kept (h : CutOk s) (hw : Winds s.worker s'.worker) : CutOk s' where
  asked x hx b hb := by
    obtain ⟨a, ha, -, hc⟩ := hw x b hb
    exact hc (h.asked x (hk.cut ▸ hx) a ha)
  immediate hn := hk.cut.trans (h.immediate (hk.patient hn))

include hl

theorem Draining.kept (h : Draining s) : Draining s' :=
  ⟨hk.worker, hk.call hl h.call, hk.halted.trans h.halted, hk.released.trans h.released,
    h.cut.kept hk (hk.winds h.call)⟩

theorem Drained.kept (h : Drained s) : Drained s' :=
  ⟨h.toDraining.kept hk hl, (hk.winds h.call).asked h.asked,
    fun hn => (hk.winds h.call).finished (h.immediate (hk.patient hn))⟩

theorem Quiet.kept (h : Quiet s) : Quiet s' :=
  ⟨(hk.winds h.call).finished h.finished, hk.call hl h.call, hk.loops h.loops⟩

omit hl in
theorem WaitOk.kept (h : WaitOk s late wait tasks) (hw : Winds s.worker s'.worker) : WaitOk s' late wait tasks where
  late hs := ⟨(h.late hs).1, hk.immediate (h.late hs).2⟩
  asked hg := hw.asked (h.asked hg)
  settle hs := hw.within (h.settle hs)
  immediate he hn := hw.finished (h.immediate he (hk.patient hn))
  cut hc := hk.cut.symm ▸ hw.within (h.cut hc)

theorem StoppingOk.kept {operation : Stopping} (h : StoppingOk s operation) : StoppingOk s' operation := by
  cases operation with
  | fresh => exact Drained.kept hk hl h
  | abandoning tasks =>
      obtain ⟨hd, ht, hc⟩ := h
      have hw := hk.winds hd.call
      exact ⟨hd.kept hk hl, hw.within ht, hk.cut.symm ▸ hw.within hc⟩
  | halting =>
      obtain ⟨ho, hc, hr⟩ := h
      exact ⟨(hk.winds hc).finished ho, hk.call hl hc, hk.released.trans hr⟩
  | done =>
      obtain ⟨hq, hr⟩ := h
      exact ⟨hq.kept hk hl, hk.released.trans hr⟩

omit hl in
theorem ClosingOk.kept {operation : Closing} (h : ClosingOk s operation) : ClosingOk s' operation := by
  cases operation with
  | next left => exact (congrArg (· ++ left) hk.released).trans h
  | failed => exact ⟨hk.released ▸ h.1, hk.leaked.trans h.2⟩

end Kept

theorem Inv.kept (h : Inv s) (hk : Kept s s') : Inv s' := by
  have hstage := h.stage
  unfold StageOk at hstage
  by_cases hl : s.stage = .looping
  · rw [hl] at hstage
    obtain ⟨hh, hr, hc⟩ := hstage
    have hcut := hk.cut.trans hc
    refine ⟨hk.worker, ⟨fun x hx => ?_, fun _ => hcut⟩, ?_⟩
    · rw [hcut] at hx
      cases hx
    · unfold StageOk
      rw [hk.stage, hl]
      exact ⟨hk.halted.trans hh, hk.released.trans hr, hcut⟩
  have hw := hk.winds (h.stage.call hl)
  refine ⟨hk.worker, h.cut.kept hk hw, ?_⟩
  unfold StageOk
  rw [hk.stage]
  cases hs : s.stage with
  | looping => exact absurd hs hl
  | opening =>
      rw [hs] at hstage
      exact ⟨hstage.1.kept hk hl, hstage.2.1.kept hk hl, hk.cut.trans hstage.2.2⟩
  | draining late wait tasks =>
      rw [hs] at hstage
      exact ⟨hstage.1.kept hk hl, hstage.2.kept hk hw⟩
  | stopping c =>
      rw [hs] at hstage
      exact StoppingOk.kept hk hl hstage
  | leaving raised =>
      rw [hs] at hstage
      exact ⟨hstage.1.kept hk hl, hk.released.trans hstage.2⟩
  | closing c =>
      rw [hs] at hstage
      exact ⟨hstage.1.kept hk hl, ClosingOk.kept hk hstage.2⟩
  | ended outcome =>
      rw [hs] at hstage
      rw [hk.released, hk.leaked]
      exact ⟨hstage.1.kept hk hl, hstage.2⟩

/-! ## Beside the task of `run` -/

theorem Kept.requestShutdown (hk : Kept s s') : Kept s s'.requestShutdown where
  stage := hk.stage
  halted := hk.halted
  released := hk.released
  leaked := hk.leaked
  cut := hk.cut
  immediate hn := by
    rw [Sys.requestShutdown, hk.immediate hn]
    rfl
  worker := hk.worker.of_matched ⟨hk.worker.stored, hk.worker.tracked⟩ rfl rfl (Nat.le_refl _)
  call := hk.call
  winds := hk.winds
  loops := hk.loops

theorem Kept.shutdownOnce (hk : Kept s s') : Kept s s'.shutdownOnce := by
  unfold Sys.shutdownOnce
  split_ifs
  · exact hk
  · exact hk.requestShutdown

theorem Kept.refl (hi : s.worker.Inv) : Kept s s where
  stage := rfl
  halted := rfl
  released := rfl
  leaked := rfl
  cut := rfl
  immediate := id
  worker := hi
  call _ := id
  winds _ := .refl rfl
  loops := id

theorem kept_worker {a : Worker.Sys.Action} {w : Worker.Sys} (hi : s.worker.Inv) (hc : s.worker.Apart a)
    (hs : s.worker.step a = some w) (hclaim : s.stage ≠ .looping → a ≠ .claim) : Kept s { s with worker := w } where
  stage := rfl
  halted := rfl
  released := rfl
  leaked := rfl
  cut := rfl
  immediate := id
  worker := Worker.Sys.inv_step hi hc hs
  call hl hn := Worker.Sys.call_step hs hn (hclaim hl)
  winds hn := Worker.Sys.winds_step hs hn
  loops := id

theorem kept_loops {l : Loop} {code : ExitCode} (hi : s.worker.Inv) :
    Kept s { s with loops := s.loops.erase l, exitCode := code } where
  stage := rfl
  halted := rfl
  released := rfl
  leaked := rfl
  cut := rfl
  immediate := id
  worker := hi
  call _ := id
  winds _ := .refl rfl
  loops hn := by rw [hn]; rfl

theorem kept_flags {cancelling cancelled swallowed : Bool} (hi : s.worker.Inv) :
    Kept s { s with cancelling := cancelling, cancelled := cancelled, swallowed := swallowed } where
  stage := rfl
  halted := rfl
  released := rfl
  leaked := rfl
  cut := rfl
  immediate := id
  worker := hi
  call _ := id
  winds _ := .refl rfl
  loops := id

/-! ## The task of `run` -/

/-- The claim in flight is given up. -/
theorem inv_failed {e : Raised} (hi : s.worker.Inv) (hh : s.halted = false) (hr : s.released = []) (hc : CutOk s) :
    Inv (s.failed e) := by
  refine inv_drain ⟨⟨⟨hi.stored, hi.tracked⟩, ?_, List.nodup_nil⟩, rfl, hh, hr, hc.asked, ?_⟩ fun _ => rfl
  · exact (Nat.le_add_right _ _).trans hi.fits
  · rintro ⟨⟩

theorem inv_interrupt {e : Raised} (h : Inv s) (hs : s.interrupt e = some s') : Inv s' := by
  have hstage := h.stage
  unfold StageOk at hstage
  unfold Sys.interrupt at hs
  split at hs
  · rename_i hop
    cases hs
    rw [hop] at hstage
    obtain ⟨hq, hd, -⟩ := hstage
    exact ⟨h.worker, h.cut.goto _, hq.goto _, congrArg (· ++ Resource.all) hd.released⟩
  · rename_i hl
    cases hs
    rw [hl] at hstage
    exact inv_failed h.worker hstage.1 hstage.2.1 h.cut
  · rename_i hd
    cases hs
    rw [hd] at hstage
    exact inv_failed h.worker hstage.1.halted hstage.1.released h.cut
  · rename_i hd
    cases hs
    rw [hd] at hstage
    obtain ⟨hdr, hw⟩ := hstage
    obtain ⟨hg, him⟩ := hw.late rfl
    exact inv_drained ⟨hdr, hw.asked hg, fun hn => by rw [him] at hn; cases hn⟩
  · rename_i c hst
    cases hs
    rw [hst] at hstage
    exact ⟨h.worker, h.cut.goto _, hstage.goto _⟩
  · rename_i c hcl
    cases hs
    rw [hcl] at hstage
    obtain ⟨hq, hc⟩ := hstage
    exact ⟨h.worker, h.cut.goto _, hq.goto _, hc⟩
  · cases hs
  · cases hs

theorem inv_stop (h : Inv s) (hs : s.step lifespan .stop = some s') : Inv s' := by
  simp only [Sys.step] at hs
  split at hs
  · rename_i c hst
    have hstage := h.stage.stopping hst
    split at hs
    · rename_i hop
      rw [hop] at hstage
      have hd : Drained s := hstage
      split_ifs at hs with hr
      · cases hs
        have hover : s.worker.Over := (within_running h.worker).mono fun x _ hx => by rw [hr] at hx; cases hx
        exact ⟨h.worker, ⟨h.cut.asked, h.cut.immediate⟩, hover, hd.call, hd.released⟩
      · cases hs
        have hcut := cutOk_running h.cut hd.asked hd.immediate (.stopping { c with operation := .abandoning s.running })
        have hwithin := within_running h.worker
        exact ⟨h.worker, hcut, ⟨⟨h.worker, hd.call, hd.halted, hd.released, hcut⟩, hd.asked, hd.immediate⟩, hwithin,
          hwithin.mono fun x _ hx => List.mem_append_right _ hx⟩
    · rename_i hop
      rw [hop] at hstage
      obtain ⟨hd, ht, -⟩ := hstage
      obtain ⟨he, hs⟩ := Option.ite_none_right_eq_some.mp hs
      cases hs
      exact ⟨h.worker, ⟨h.cut.asked, h.cut.immediate⟩, over_of_allEnded ht he, hd.call, hd.released⟩
    · rename_i hop
      rw [hop] at hstage
      obtain ⟨ho, hc, hr⟩ := hstage
      obtain ⟨hl, hs⟩ := Option.ite_none_right_eq_some.mp hs
      cases hs
      exact ⟨h.worker, h.cut.goto _, ⟨ho, hc, hl⟩, hr⟩
    · cases hs
  · cases hs

/-- Nothing is left for the lifespan and for `_close`. -/
theorem inv_stopped_step (h : Inv s) (hs : s.step lifespan .stopped = some s') : Inv s' := by
  simp only [Sys.step] at hs
  split at hs
  · rename_i c hst
    have hstage := h.stage.stopping hst
    obtain ⟨⟨hop, -⟩, hs⟩ := Option.ite_none_right_eq_some.mp hs
    rw [hop] at hstage
    obtain ⟨hq, hr⟩ := hstage
    split_ifs at hs
    · cases hs
      exact ⟨h.worker, h.cut.goto _, hq.goto _, hr⟩
    · cases hs
      exact ⟨h.worker, h.cut.goto _, hq.goto _, congrArg (· ++ Resource.all) hr⟩
  · cases hs

theorem inv_close (h : Inv s) (ha : action = .release ∨ action = .releaseFails ∨ action = .closed)
    (hs : s.step lifespan action = some s') : Inv s' := by
  rcases ha with rfl | rfl | rfl
  · simp only [Sys.step] at hs
    split at hs
    · rename_i c hst
      have hstage := h.stage.closing hst
      split at hs
      · rename_i r left hop
        rw [hop] at hstage
        obtain ⟨hq, hc⟩ := hstage
        have hall : s.released ++ [r] ++ left = Resource.all := by
          rw [List.append_assoc]
          exact hc
        cases hs
        refine ⟨h.worker, ⟨h.cut.asked, h.cut.immediate⟩, ?_⟩
        unfold StageOk
        dsimp only
        split_ifs with hf
        · rw [hf.1, List.append_nil] at hall
          exact ⟨⟨hq.finished, hq.call, hq.loops⟩, hall ▸ List.prefix_refl _, Or.inl hall⟩
        · exact ⟨⟨hq.finished, hq.call, hq.loops⟩, hall⟩
      · cases hs
    · cases hs
  · simp only [Sys.step] at hs
    split at hs
    · rename_i c hst
      have hstage := h.stage.closing hst
      split at hs
      · rename_i r left hop
        rw [hop] at hstage
        obtain ⟨hq, hc⟩ := hstage
        cases hs
        exact ⟨h.worker, ⟨h.cut.asked, h.cut.immediate⟩, ⟨hq.finished, hq.call, hq.loops⟩, ⟨r :: left, hc⟩, rfl⟩
      · cases hs
    · cases hs
  · simp only [Sys.step] at hs
    split at hs
    · rename_i c hst
      have hstage := h.stage.closing hst
      obtain ⟨-, hs⟩ := Option.ite_none_left_eq_some.mp hs
      split at hs
      · rename_i hop
        rw [hop] at hstage
        obtain ⟨hq, hc⟩ := hstage
        have hall : s.released = Resource.all := (List.append_nil _).symm.trans hc
        cases hs
        exact ⟨h.worker, h.cut.goto _, hq.goto _, hall ▸ List.prefix_refl _, Or.inl hall⟩
      · rename_i hop
        rw [hop] at hstage
        cases hs
        exact ⟨h.worker, h.cut.goto _, hstage.1.goto _, hstage.2.1, Or.inr ⟨hstage.2.2, rfl⟩⟩
      · cases hs
    · cases hs

theorem inv_step (h : Inv s) (hc : s.Apart action) (hs : s.step lifespan action = some s') : Inv s' := by
  have hstage := h.stage
  unfold StageOk at hstage
  cases action with
  | worker a =>
      obtain ⟨ha, hs⟩ := Option.ite_none_right_eq_some.mp hs
      obtain ⟨w, hw, rfl⟩ := Option.map_eq_some_iff.mp hs
      refine h.kept (kept_worker h.worker hc hw fun hl hclaim => ?_)
      subst hclaim
      simp [Sys.admits, hl] at ha
  | attemptDone x fatal =>
      obtain ⟨w, hw, rfl⟩ := Option.map_eq_some_iff.mp hs
      have hapart : s.worker.Apart (.attemptDone x) := True.intro
      have hk := kept_worker h.worker hapart hw fun _ => by simp
      split_ifs
      · exact h.kept (Kept.shutdownOnce ⟨hk.stage, hk.halted, hk.released, hk.leaked, hk.cut, hk.immediate, hk.worker,
          hk.call, hk.winds, hk.loops⟩)
      · exact h.kept hk
  | signal =>
      obtain ⟨-, hs⟩ := Option.ite_none_left_eq_some.mp hs
      cases hs
      exact h.kept (Kept.refl h.worker).requestShutdown
  | cancel =>
      obtain ⟨-, hs⟩ := Option.ite_none_left_eq_some.mp hs
      cases hs
      exact h.kept (kept_flags h.worker)
  | loopEnds l =>
      obtain ⟨-, hs⟩ := Option.ite_none_right_eq_some.mp hs
      cases hs
      exact h.kept (kept_loops h.worker)
  | loopDies l =>
      obtain ⟨-, hs⟩ := Option.ite_none_right_eq_some.mp hs
      cases hs
      exact h.kept (kept_loops h.worker).shutdownOnce
  | opened =>
      obtain ⟨⟨hop, -⟩, hs⟩ := Option.ite_none_right_eq_some.mp hs
      cases hs
      rw [hop] at hstage
      obtain ⟨-, hd, hcut⟩ := hstage
      exact ⟨h.worker, ⟨h.cut.asked, h.cut.immediate⟩, hd.halted, hd.released, hcut⟩
  | fails =>
      simp only [Sys.step] at hs
      split at hs
      · exact inv_interrupt h (Option.ite_none_left_eq_some.mp hs).2
      · exact inv_interrupt h (Option.ite_none_left_eq_some.mp hs).2
      · exact inv_interrupt h (Option.ite_none_left_eq_some.mp hs).2
      · cases hs
  | deliver =>
      obtain ⟨-, hs⟩ := Option.ite_none_right_eq_some.mp hs
      exact inv_interrupt (h.kept (kept_flags h.worker)) hs
  | swallow =>
      have hflags : ∀ {b},
          (if b = true then some { s with cancelling := false, swallowed := true } else none) = some s' → Inv s' := by
        intro b hs
        obtain ⟨-, hs⟩ := Option.ite_none_right_eq_some.mp hs
        cases hs
        exact h.kept (kept_flags h.worker)
      simp only [Sys.step] at hs
      split at hs
      · exact hflags hs
      · exact hflags hs
      · cases hs
  | endLoop =>
      obtain ⟨⟨hl, -, -, hcall⟩, hs⟩ := Option.ite_none_right_eq_some.mp hs
      cases hs
      rw [hl] at hstage
      exact inv_drain ⟨h.worker, hcall, hstage.1, hstage.2.1, h.cut⟩ fun hn => by cases hn
  | wake =>
      simp only [Sys.step] at hs
      split at hs
      · rename_i hd
        obtain ⟨⟨-, hw⟩, hs⟩ := Option.ite_none_right_eq_some.mp hs
        cases hs
        rw [hd] at hstage
        exact inv_resume hstage.1 hstage.2 hw
      · cases hs
  | stop => exact inv_stop h hs
  | stopped => exact inv_stopped_step h hs
  | leave raised =>
      simp only [Sys.step] at hs
      split at hs
      · rename_i hl
        cases hs
        rw [hl] at hstage
        obtain ⟨hq, hr⟩ := hstage
        exact ⟨h.worker, ⟨h.cut.asked, h.cut.immediate⟩, ⟨hq.finished, hq.call, hq.loops⟩,
          congrArg (· ++ Resource.all) hr⟩
      · cases hs
  | release => exact inv_close h (Or.inl rfl) hs
  | releaseFails => exact inv_close h (Or.inr (Or.inl rfl)) hs
  | closed => exact inv_close h (Or.inr (Or.inr rfl)) hs

theorem inv_init {concurrency : ℕ} {db : Db} : Inv (.init concurrency db) := by
  have hover : (Worker.Sys.init concurrency db).Over := fun x a hx => by simp [Worker.Sys.init] at hx
  have hcut : CutOk (.init concurrency db) := ⟨fun x hx => absurd hx List.not_mem_nil, fun _ => rfl⟩
  have hw := Worker.Sys.init_inv concurrency db
  exact ⟨hw, hcut, ⟨hover, rfl, rfl⟩, ⟨hw, rfl, rfl, rfl, hcut⟩, rfl⟩

end Fronta.Lifecycle
