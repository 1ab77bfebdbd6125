import Fronta.Polling.System
import Fronta.Worker.Lemmas.Attempts
import Mathlib.Tactic.Linarith

/-!
# What a waiting loop has found

While the event is not set, what the last pass has found still holds. The delay doubles from one timeout to the
next.
-/

namespace Fronta.Polling

open Runs Sql Wakeups

namespace Sys

variable {w : Env} {s s' : Sys} {action : Action}

/-! ## Steps -/

variable (w s) in
/-- What a step may do. -/
inductive Moves : Action → Sys → Prop
  | worker {act : Worker.Sys.Action} {worker : Worker.Sys} (hb : beside act = true)
      (hw : s.worker.step act = some worker) :
      Moves (.worker act) { s with worker := worker, commits := s.commits + 1 }
  | end' {jitter : ℚ} (hst : s.worker.stopping = true) : Moves (.begin jitter) { s with phase := .ended }
  | claim {jitter : ℚ} {worker : Worker.Sys} (hw : s.worker.step .claim = some worker) :
      Moves (.begin jitter) { s with wake := false, worker := worker, phase := .claiming }
  | full {jitter : ℚ} (hst : s.worker.stopping = false) (hf : s.free = 0) (hj : uniform jitter = true) :
      Moves (.begin jitter) ({ s with wake := false }.wait w .full jitter)
  | execute {now : Time} {clock : TaskId → Time} {leaseS : ℚ} {name : Name} {tokens : TaskId → Token}
      {ids : List TaskId} {worker : Worker.Sys} (hp : s.phase = .claiming)
      (hw : s.worker.step (.execute now clock leaseS name tokens ids) = some worker) :
      Moves (.execute now clock leaseS name tokens ids)
        { s with worker := worker, seen := s.commits, commits := s.commits + 1 }
  | late {jitter : ℚ} {worker : Worker.Sys} (hp : s.phase = .claiming) (hw : s.worker.step .dispatch = some worker)
      (hst : worker.stopping = true) :
      Moves (.answer jitter) { s with worker := worker, phase := .releasing }
  | nothing {jitter : ℚ} {worker : Worker.Sys} (hp : s.phase = .claiming) (hj : uniform jitter = true)
      (hc : s.worker.call = some (.executed [])) (hw : s.worker.step .dispatch = some worker) :
      Moves (.answer jitter) ({ s with worker := worker }.wait w (.nothing s.seen) jitter)
  | started {jitter : ℚ} {worker : Worker.Sys} (hw : s.worker.step .dispatch = some worker) :
      Moves (.answer jitter) ({ s with worker := worker }.again w)
  | fail {worker : Worker.Sys} (hp : s.phase = .claiming) (hw : s.worker.step .claimFailed = some worker) :
      Moves .fail { s with worker := worker, phase := .recovering }
  | recover {jitter : ℚ} (hp : s.phase = .recovering) (hj : uniform jitter = true) :
      Moves (.recover jitter) (s.wait w .failed jitter)
  | released (hp : s.phase = .releasing) : Moves .released { s with phase := .ended }
  | awake : Moves .awake (s.again w)
  | timeout : Moves .timeout
      { s with phase := .top, delay := min w.pollIntervalS (s.delay * 2), idle := s.idle + 1 }
  | notice {payload : Name} {commit : ℕ} (hc : concerns w payload = true) (hle : commit ≤ s.commits) :
      Moves (.notice payload commit) (s.hear commit)
  | ignored {payload : Name} {commit : ℕ} (hc : concerns w payload = false) : Moves (.notice payload commit) s
  | enqueued {name : Name} {commit : ℕ} (hc : w.definitions.contains name = true) (hle : commit ≤ s.commits) :
      Moves (.enqueued name commit) (s.hear commit)
  | foreign {name : Name} {commit : ℕ} (hc : w.definitions.contains name = false) : Moves (.enqueued name commit) s
  | attemptDone {x : Worker.Ref} {worker : Worker.Sys} (hw : s.worker.step (.attemptDone x) = some worker) :
      Moves (.attemptDone x) { s with worker := worker, wake := true }
  | requestShutdown {worker : Worker.Sys} (hw : s.worker.step .requestShutdown = some worker) :
      Moves .requestShutdown { s with worker := worker, wake := true }

theorem moves_of_step (h : s.step w action = some s') : Moves w s action s' := by
  cases action with
  | worker action =>
      simp only [step, Option.ite_none_right_eq_some, Option.map_eq_some_iff] at h
      obtain ⟨hb, worker, hw, rfl⟩ := h
      exact .worker hb hw
  | begin jitter =>
      simp only [step, Option.ite_none_right_eq_some] at h
      obtain ⟨⟨-, hj⟩, h⟩ := h
      split_ifs at h with hst hf
      · cases h
        exact .end' hst
      · obtain ⟨worker, hw, rfl⟩ := Option.map_eq_some_iff.mp h
        exact .claim hw
      · cases h
        exact .full (by simpa using hst) (Nat.eq_zero_of_not_pos hf) hj
  | execute now clock leaseS name tokens ids =>
      simp only [step, Option.ite_none_right_eq_some, Option.map_eq_some_iff] at h
      obtain ⟨hp, worker, hw, rfl⟩ := h
      exact .execute hp hw
  | answer jitter =>
      simp only [step, Option.ite_none_right_eq_some] at h
      obtain ⟨⟨hp, hj⟩, h⟩ := h
      split at h
      · next rows hc =>
          obtain ⟨worker, hw, rfl⟩ := Option.map_eq_some_iff.mp h
          split_ifs with hst hrows
          · exact .late hp hw hst
          · subst hrows
            exact .nothing hp hj hc hw
          · exact .started hw
      · cases h
  | fail =>
      simp only [step, Option.ite_none_right_eq_some, Option.map_eq_some_iff] at h
      obtain ⟨hp, worker, hw, rfl⟩ := h
      exact .fail hp hw
  | recover jitter =>
      simp only [step, Option.ite_none_right_eq_some, Option.some.injEq] at h
      obtain ⟨⟨hp, hj⟩, rfl⟩ := h
      exact .recover hp hj
  | released =>
      simp only [step, Option.ite_none_right_eq_some, Option.some.injEq] at h
      obtain ⟨hp, rfl⟩ := h
      exact .released hp
  | awake =>
      simp only [step] at h
      split at h
      · simp only [Option.ite_none_right_eq_some, Option.some.injEq] at h
        obtain ⟨-, rfl⟩ := h
        exact .awake
      · cases h
  | timeout =>
      simp only [step] at h
      split at h
      · cases h
        exact .timeout
      · cases h
  | notice payload commit =>
      simp only [step, Option.ite_none_right_eq_some, Option.some.injEq] at h
      obtain ⟨hle, rfl⟩ := h
      split_ifs with hc
      · exact .notice hc hle
      · exact .ignored (by simpa using hc)
  | enqueued name commit =>
      simp only [step, Option.ite_none_right_eq_some, Option.some.injEq] at h
      obtain ⟨hle, rfl⟩ := h
      split_ifs with hc
      · exact .enqueued hc hle
      · exact .foreign (by simpa using hc)
  | attemptDone x =>
      obtain ⟨worker, hw, rfl⟩ := Option.map_eq_some_iff.mp h
      exact .attemptDone hw
  | requestShutdown =>
      cases h
      exact .requestShutdown rfl

/-! ## The event -/

variable (w) in
/-- `_wake` -/
def event : Flag (step w) where
  isSet := wake
  sets := sets w
  clears := clears
  isSet_of_sets hs ha := by
    cases moves_of_step hs with
    | ignored hc => exact absurd (hc.symm.trans ha) Bool.false_ne_true
    | foreign hc => exact absurd (hc.symm.trans ha) Bool.false_ne_true
    | notice | enqueued | attemptDone | requestShutdown => rfl
    | _ => cases ha
  isSet_kept hs hc hw := by
    cases moves_of_step hs with
    | claim h =>
        cases Worker.Sys.moves_of_step h with
        | claim _ hst => simp [clears, hst] at hc
    | full hst => simp [clears, hst] at hc
    | notice | enqueued | attemptDone | requestShutdown => rfl
    | _ => exact hw

/-! ## Passes -/

/-- What is known where the loop is. -/
def PhaseOk (w : Env) (s : Sys) : Prop :=
  match s.phase with
  | .claiming => ∀ rows, s.worker.call = some (.executed rows) → s.wake = true ∨ ∀ commit ∈ s.heard, commit ≤ s.seen
  | .waiting finding timeout =>
      (s.wake = true ∨ s.worker.stopping = false ∧ s.Finds finding) ∧
        ∃ jitter, uniform jitter = true ∧ timeout = min w.pollIntervalS (s.delay * jitter)
  | _ => True

structure Inv (w : Env) (s : Sys) : Prop where
  delay : s.delay = min w.pollIntervalS (initial w * 2 ^ s.idle)
  heard : ∀ commit ∈ s.heard, commit ≤ s.commits
  phase : PhaseOk w s

theorem inv_init {concurrency : ℕ} {db : Db} : Inv w (init w concurrency db) where
  delay := by simp [init, initial]
  heard commit hc := absurd hc List.not_mem_nil
  phase := trivial

theorem delay_again : initial w = min w.pollIntervalS (initial w * 2 ^ 0) := by simp [initial]

theorem delay_double {n : ℕ} : min w.pollIntervalS (min w.pollIntervalS (initial w * 2 ^ n) * 2) =
    min w.pollIntervalS (initial w * 2 ^ (n + 1)) := by
  have hpos := w.pollIntervalS_pos
  rw [pow_succ, ← mul_assoc]
  rcases le_total w.pollIntervalS (initial w * 2 ^ n) with h | h
  · rw [min_eq_left h, min_eq_left (by linarith), min_eq_left (by linarith)]
  · rw [min_eq_right h]

/-- Whoever sets the event leaves nothing to show. -/
theorem PhaseOk.of_wake (h : PhaseOk w s) (hw : s'.wake = true) (hp : s'.phase = s.phase) (hd : s'.delay = s.delay) :
    PhaseOk w s' := by
  unfold PhaseOk at h ⊢
  rw [hp]
  split at h
  · exact fun _ _ => Or.inl hw
  · exact ⟨Or.inl hw, hd ▸ h.2⟩
  · trivial

/-- The actions beside the loop change neither the map nor the call. -/
theorem beside_step {act : Worker.Sys.Action} {worker : Worker.Sys} (hb : beside act = true)
    (hw : s.worker.step act = some worker) : worker.attempts = s.worker.attempts ∧ worker.call = s.worker.call ∧
      worker.stopping = s.worker.stopping ∧ worker.concurrency = s.worker.concurrency := by
  cases Worker.Sys.moves_of_step hw with
  | statement | expire | renew | stop | finish => exact ⟨rfl, rfl, rfl, rfl⟩
  | _ => cases hb

theorem PhaseOk.beside {worker : Worker.Sys} {commits : ℕ} (h : PhaseOk w s)
    (hw : worker.attempts = s.worker.attempts ∧ worker.call = s.worker.call ∧
      worker.stopping = s.worker.stopping ∧ worker.concurrency = s.worker.concurrency) :
    PhaseOk w { s with worker := worker, commits := commits } := by
  obtain ⟨hmap, hcall, hstop, hcon⟩ := hw
  unfold PhaseOk at h ⊢
  dsimp only
  split at h
  · exact fun rows hr => h rows (hcall ▸ hr)
  · refine ⟨h.1.imp_right fun ⟨hst, hf⟩ => ⟨hstop ▸ hst, ?_⟩, h.2⟩
    unfold Finds at hf ⊢
    split at hf
    · exact hcon ▸ hmap ▸ hf
    · exact hf
    · trivial
  · trivial

theorem PhaseOk.wait {finding : Finding} {jitter : ℚ} (hj : uniform jitter = true)
    (hf : s.wake = true ∨ s.Finds finding) : PhaseOk w (s.wait w finding jitter) := by
  unfold PhaseOk Sys.wait
  dsimp only
  split_ifs with hst
  · trivial
  · exact ⟨hf.imp_right fun hf => ⟨by simpa using hst, hf⟩, jitter, hj, rfl⟩

theorem inv_step (hi : Inv w s) (h : s.step w action = some s') : Inv w s' := by
  cases moves_of_step h with
  | worker hb hw =>
      exact ⟨hi.delay, fun c hc => (hi.heard c hc).trans (Nat.le_succ _), hi.phase.beside (beside_step hb hw)⟩
  | end' hst => exact ⟨hi.delay, hi.heard, trivial⟩
  | claim hw =>
      refine ⟨hi.delay, hi.heard, fun rows hr => ?_⟩
      cases Worker.Sys.moves_of_step hw with
      | claim => cases hr
  | full hst hf hj => exact ⟨hi.delay, hi.heard, .wait hj (Or.inr (Nat.le_of_sub_eq_zero hf))⟩
  | execute hp hw =>
      refine ⟨hi.delay, fun c hc => (hi.heard c hc).trans (Nat.le_succ _), ?_⟩
      unfold PhaseOk
      dsimp only
      rw [hp]
      exact fun rows _ => Or.inr hi.heard
  | late => exact ⟨hi.delay, hi.heard, trivial⟩
  | nothing hp hj hc hw =>
      have hphase := hi.phase
      unfold PhaseOk at hphase
      rw [hp] at hphase
      exact ⟨hi.delay, hi.heard, .wait hj (hphase _ hc)⟩
  | started hw => exact ⟨delay_again, hi.heard, trivial⟩
  | fail => exact ⟨hi.delay, hi.heard, trivial⟩
  | recover hp hj => exact ⟨hi.delay, hi.heard, .wait hj (Or.inr trivial)⟩
  | released => exact ⟨hi.delay, hi.heard, trivial⟩
  | awake => exact ⟨delay_again, hi.heard, trivial⟩
  | timeout => exact ⟨by dsimp only; rw [hi.delay, delay_double], hi.heard, trivial⟩
  | notice hc hle => exact ⟨hi.delay, List.forall_mem_cons.mpr ⟨hle, hi.heard⟩, hi.phase.of_wake rfl rfl rfl⟩
  | ignored => exact hi
  | enqueued hc hle => exact ⟨hi.delay, List.forall_mem_cons.mpr ⟨hle, hi.heard⟩, hi.phase.of_wake rfl rfl rfl⟩
  | foreign => exact hi
  | attemptDone hw => exact ⟨hi.delay, hi.heard, hi.phase.of_wake rfl rfl rfl⟩
  | requestShutdown hw => exact ⟨hi.delay, hi.heard, hi.phase.of_wake rfl rfl rfl⟩

theorem stopping_step (h : s.step w action = some s') (hst : s.worker.stopping = true) :
    s'.worker.stopping = true := by
  have hkeep : ∀ act worker, s.worker.step act = some worker → worker.stopping = true := by
    intro act worker hw
    cases Worker.Sys.moves_of_step hw with
    | requestShutdown => rfl
    | dispatch hc hs => rw [hst] at hs; cases hs
    | _ => exact hst
  cases moves_of_step h with
  | worker _ hw | claim hw | execute _ hw | late _ hw | nothing _ _ _ hw | started hw | fail _ hw | attemptDone hw
  | requestShutdown hw => exact hkeep _ _ hw
  | _ => exact hst

/-- A loop that waits has cleared the event. -/
theorem cleared_of_run {concurrency : ℕ} {db : Db} {actions : List Action}
    (hr : run (step w) (init w concurrency db) actions = some s) :
    (event w).Cleared (init w concurrency db) actions ∨ s.phase = .top ∨ s.worker.stopping = true := by
  refine history (I := fun as s => (event w).Cleared (init w concurrency db) as ∨ s.phase = .top ∨
    s.worker.stopping = true) (Or.inr (Or.inl rfl)) (fun as action t t' ht hi hs => ?_) hr
  rcases hi with hc | hp | hst
  · exact Or.inl (hc.append _)
  · cases moves_of_step hs with
    | end' hst => exact Or.inr (Or.inr hst)
    | claim hw =>
        cases Worker.Sys.moves_of_step hw with
        | claim _ hst => exact Or.inl (.last ht hs (by simp [event, clears, hst]))
    | full hst => exact Or.inl (.last ht hs (by simp [event, clears, hst]))
    | execute hp' | late hp' | nothing hp' | fail hp' | recover hp' | released hp' => rw [hp] at hp'; cases hp'
    | started | awake | timeout => exact Or.inr (Or.inl rfl)
    | _ => exact Or.inr (Or.inl hp)
  · exact Or.inr (Or.inr (stopping_step hs hst))

end Sys

end Fronta.Polling
