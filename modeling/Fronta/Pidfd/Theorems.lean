import Fronta.Pidfd.Lemmas.Invariant

/-!
# What one boolean and one reader are enough for

A handle keeps its promises for waits that do not overlap, on a handle that is open or whose process has exited,
if a timer does not fire between the exit and the resumption. Any other step can break them.
-/

namespace Fronta.Pidfd

open Runs Sql

variable {s s' : Sys} {x : Ref} {w : Wait} {action : Action}

/-- The loop tells the wait in progress of the exit. -/
theorem Inv.told_of_exit (h : Inv s) (hx : s.waits.get x = some w) (ho : w.outcome = none)
    (he : s.exited = true) (ht : w.timedOut = false) (hc : w.cancelled = false) :
    ∃ s' w', run Sys.step s [.ready, .resume x] = some s' ∧ s'.waits.get x = some w' ∧
      w'.outcome = some (.returned true) := by
  obtain ⟨-, hreader, hfd⟩ := h.busy x w hx ho
  have hready : s.step .ready = some (s.modify x fun w => { w with told := true }) := by
    simp [Sys.step, hreader, he]
  have hget := @get_modify_self s x w (fun w => { w with told := true }) hx
  have hresume : (s.modify x fun w => { w with told := true }).step (.resume x) =
      some ((s.modify x fun w => { w with told := true }).finish x { w with told := true }) := by
    simp [Sys.step, pending_eq.mpr ⟨hget, ho⟩]
  have hv : Sys.verdict { w with told := true } = .returned true := by
    simp [Sys.verdict, ht, hc]
  refine ⟨_, _, run_cons.mpr ⟨_, hready, run_cons.mpr ⟨_, hresume, rfl⟩⟩, get_finish hfd hget, ?_⟩
  rw [hv]

/-! ## Steps that break a promise -/

/-- A wait that is cancelled and resumed after a close closes the descriptor. -/
theorem closed_of_cancel (hx : s.waits.get x = some w) (ho : w.outcome = none) (hw : s.waiting = true)
    (hfd : 0 ≤ s.fd) : ∃ s', run Sys.step s [.close, .cancel x, .resume x] = some s' ∧ s'.fd < 0 ∧
      ∀ y u, y ≠ x → s.waits.get y = some u → s'.waits.get y = some u := by
  have hclose : s.step .close = some { s with
      closeRequested := true
      requested := true } := by
    simp [Sys.step, Sys.close, hw]
  generalize hs₁ : { s with
      closeRequested := true
      requested := true } = s₁ at hclose
  have hx₁ : s₁.waits.get x = some w := by rw [← hs₁]; exact hx
  have hcancel : s₁.step (.cancel x) = some (s₁.modify x fun w => { w with cancelled := true }) := by
    simp [Sys.step, pending_eq.mpr ⟨hx₁, ho⟩]
  have hget := @get_modify_self s₁ x w (fun w => { w with cancelled := true }) hx₁
  have hresume : (s₁.modify x fun w => { w with cancelled := true }).step (.resume x) =
      some ((s₁.modify x fun w => { w with cancelled := true }).finish x { w with cancelled := true }) := by
    simp [Sys.step, pending_eq.mpr ⟨hget, ho⟩]
  have hfd₁ : 0 ≤ s₁.fd := by rw [← hs₁]; exact hfd
  have hreq₁ : s₁.closeRequested = true := by rw [← hs₁]
  have hrun := run_cons.mpr ⟨_, hclose, run_cons.mpr ⟨_, hcancel, run_cons.mpr ⟨_, hresume, run_nil⟩⟩⟩
  refine ⟨_, hrun, ?_, ?_⟩
  · have hopen : ¬s₁.fd < 0 := Int.not_lt.mpr hfd₁
    simp [Sys.finish, Sys.ended, Sys.modify, Sys.close, hreq₁, hfd₁, hopen]
  · intro y u hy hu
    have hfd₂ : 0 ≤ (s₁.modify x fun w => { w with cancelled := true }).fd := hfd₁
    have hu₁ : s₁.waits.get y = some u := by rw [← hs₁]; exact hu
    rw [waits_finish hfd₂]
    simp [Sys.ended, Sys.modify, Table.get_modify, hu₁, hy]

/-- Every step that waits for more than the handle can tell may break a promise. -/
theorem Inv.breaks (h : Inv s) (hs : s.step action = some s') (hn : ¬s.Calm action) :
    ∃ later s'', run Sys.step s' later = some s'' ∧ ¬Promised s'' := by
  cases action with
  | wait =>
      cases hs
      by_cases hidle : s.Idle
      · -- a handle that is closed answers at once
        have hn : ¬(s.fd < 0 → s.exited = true) := fun hc => hn ⟨hidle, hc⟩
        rw [Classical.not_imp] at hn
        refine ⟨[], _, rfl, fun hp => hn.2 ?_⟩
        have hget : s.waitExit.waits.get s.waits.next =
            some { outcome := some (.returned true), exited := s.exited } := by
          simp [Sys.waitExit, hn.1]
        exact (hp.answers _ _ true hget rfl).symm
      · -- the first wait closes the descriptor of the second one
        simp only [idle_iff, not_forall, not_not] at hidle
        obtain ⟨x, w, hx, ho⟩ := hidle
        have hfd := (h.busy x w hx ho).2.2
        have hwaits : s.waitExit = { s with
            waits := s.waits.insert {}
            waiting := true
            reader := some s.waits.next } := by
          simp [Sys.waitExit, Int.not_lt.mpr hfd]
        rw [hwaits]
        generalize hs₁ : { s with
            waits := s.waits.insert {}
            waiting := true
            reader := some s.waits.next } = s₁
        have hx₁ : s₁.waits.get x = some w := by rw [← hs₁]; exact Table.get_insert_of_get hx
        have hnew : s₁.waits.get s.waits.next = some {} := by rw [← hs₁]; exact Table.get_insert_self
        have hne : s.waits.next ≠ x := Nat.ne_of_gt (Table.lt_of_get hx)
        obtain ⟨s₂, hr, hclosed, hkeep⟩ :=
          closed_of_cancel hx₁ ho (by rw [← hs₁]) (by rw [← hs₁]; exact hfd)
        refine ⟨_, s₂, hr, fun hp => ?_⟩
        exact absurd (hp.held _ _ (hkeep _ _ hne hnew) rfl) (Int.not_le.mpr hclosed)
  | timer x =>
      obtain ⟨w, hw, hs⟩ := Option.bind_eq_some_iff.mp hs
      obtain ⟨-, hs⟩ := Option.ite_none_left_eq_some.mp hs
      cases hs
      obtain ⟨hx, ho⟩ := pending_eq.mp hw
      have hlate : w.cancelled = false ∧ s.exited = true := by
        simpa [Sys.Calm, hx] using hn
      have hget := @get_modify_self s x w (fun w => { w with timedOut := true, exited := s.exited }) hx
      generalize hs₁ : (s.modify x fun w => { w with timedOut := true, exited := s.exited }) = s₁ at hget ⊢
      have hresume : s₁.step (.resume x) =
          some (s₁.finish x { w with timedOut := true, exited := s.exited }) := by
        simp [Sys.step, pending_eq.mpr ⟨hget, ho⟩]
      have hfd : 0 ≤ s₁.fd := by rw [← hs₁]; exact (h.busy x w hx ho).2.2
      refine ⟨[.resume x], _, run_cons.mpr ⟨_, hresume, rfl⟩, fun hp => ?_⟩
      have hv : Sys.verdict { w with timedOut := true, exited := s.exited } = .returned false := by
        simp [Sys.verdict, hlate.1]
      have ha := hp.answers x _ false (get_finish hfd hget) (by rw [hv])
      exact absurd ha (by simp [hlate.2])
  | exit | ready | cancel x | resume x | close => exact absurd True.intro hn

/-! ## Runs -/

/-- In every run in which waits do not overlap, none begins on a handle that was closed before the exit, and no
timer fires between the exit and the resumption of its wait, the handle keeps its promises, and the loop can tell
the wait in progress of the exit. Every step that is not of this kind, after such a run, has a continuation that
breaks a promise. -/
theorem pidfd_waits (fd : ℕ) (actions : List Action) (s : Sys)
    (hc : Along Sys.step Sys.Calm (.init fd) actions) (h : run Sys.step (.init fd) actions = some s) :
    Promised s ∧
    (∀ x w, s.waits.get x = some w → w.outcome = none → s.exited = true → w.timedOut = false →
      w.cancelled = false → ∃ s' w', run Sys.step s [.ready, .resume x] = some s' ∧
        s'.waits.get x = some w' ∧ w'.outcome = some (.returned true)) ∧
    ∀ action s', s.step action = some s' → ¬s.Calm action →
      ∃ later s'', run Sys.step s' later = some s'' ∧ ¬Promised s'' := by
  have hi : Inv s := invariant (fun _ _ _ hi hc hs => hi.step hc hs) (inv_init fd) hc h
  exact ⟨hi.promised, fun x w hx ho he ht hcan => hi.told_of_exit hx ho he ht hcan,
    fun action s' hs hn => hi.breaks hs hn⟩

/-- A close during a wait that times out is performed at its end, and the next wait finds the exit. -/
theorem pidfd_waits_closed :
    ∃ s, run Sys.step (.init 7) [.wait, .close, .timer 1, .resume 1, .exit, .wait] = some s ∧ s.closes = 1 ∧
      Promised s := by
  have hrun : (run Sys.step (.init 7) [.wait, .close, .timer 1, .resume 1, .exit, .wait]).any (fun s =>
      s.closes = 1) = true := by decide +kernel
  obtain ⟨s, hs, hp⟩ := Option.any_eq_true _ _ |>.mp hrun
  exact ⟨s, hs, of_decide_eq_true hp, (pidfd_waits 7 _ s (by decide +kernel) hs).1⟩

/-- Two waits overlap and a close is requested. The second one hears of the exit and closes the descriptor under
the first one, which is told nothing and ends with an error when its timer fires. -/
theorem overlapping_wait_raises :
    ∃ s w s' w', run Sys.step (.init 7) [.wait, .wait, .close, .exit, .ready, .resume 2] = some s ∧
      s.fd < 0 ∧ s.waits.get 1 = some w ∧ w.outcome = none ∧ run Sys.step s [.timer 1, .resume 1] = some s' ∧
      s'.waits.get 1 = some w' ∧ w'.outcome = some .raised := by
  have hrun : (run Sys.step (.init 7) [.wait, .wait, .close, .exit, .ready, .resume 2]).any (fun s =>
      s.fd < 0 && (s.waits.get 1).any (fun w => w.outcome = none) &&
        (run Sys.step s [.timer 1, .resume 1]).any fun s' =>
          (s'.waits.get 1).any fun w' => w'.outcome = some .raised) = true := by decide +kernel
  obtain ⟨s, hs, hp⟩ := Option.any_eq_true _ _ |>.mp hrun
  rw [Bool.and_eq_true, Bool.and_eq_true] at hp
  obtain ⟨⟨hfd, hw⟩, hlater⟩ := hp
  obtain ⟨w, hw, ho⟩ := Option.any_eq_true _ _ |>.mp hw
  obtain ⟨s', hs', hw'⟩ := Option.any_eq_true _ _ |>.mp hlater
  obtain ⟨w', hw', ho'⟩ := Option.any_eq_true _ _ |>.mp hw'
  exact ⟨s, w, s', w', hs, of_decide_eq_true hfd, hw, of_decide_eq_true ho, hs', hw', of_decide_eq_true ho'⟩

end Fronta.Pidfd
