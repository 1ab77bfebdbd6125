import Fronta.Lifecycle.Lemmas.Cancellation
import Fronta.Lifecycle.Lemmas.Steps

/-!
# Nothing outlives the worker

The controllers are the first to end and the pools the last, whatever ends the worker.
-/

namespace Fronta.Lifecycle

open Runs Sql

variable {s : Sys}

/-- The lifespan is left only in these stages. -/
def Stage.isOver : Stage → Bool
  | .leaving _ | .closing _ | .ended _ => true
  | _ => false

theorem unfinished_of_over (h : s.worker.Over) : s.worker.unfinished = [] := by
  refine List.filter_eq_nil_iff.mpr fun ⟨x, a⟩ hx hp => ?_
  exact h x a (Table.mem_entries.mp hx) (of_decide_eq_true hp)

theorem Inv.quiet (h : Inv s) (ho : s.stage.isOver = true) : Quiet s := by
  have hstage := h.stage
  unfold StageOk at hstage
  cases hs : s.stage with
  | leaving | closing | ended =>
      rw [hs] at hstage
      exact hstage.1
  | opening | looping | draining | stopping =>
      rw [hs] at ho
      cases ho

/-- Where a controller runs, nothing that it uses has been taken away. -/
theorem Inv.served (h : Inv s) (hu : s.worker.unfinished ≠ []) : s.halted = false ∧ s.released = [] := by
  have hover : ¬ s.worker.Over := fun ho => hu (unfinished_of_over ho)
  have hstage := h.stage
  unfold StageOk at hstage
  cases hs : s.stage with
  | opening =>
      rw [hs] at hstage
      exact absurd hstage.1.finished hover
  | looping =>
      rw [hs] at hstage
      exact ⟨hstage.1, hstage.2.1⟩
  | draining =>
      rw [hs] at hstage
      exact ⟨hstage.1.halted, hstage.1.released⟩
  | stopping c =>
      have hc := h.stage.stopping hs
      cases hop : c.operation with
      | fresh =>
          rw [hop] at hc
          have hd : Drained s := hc
          exact ⟨hd.halted, hd.released⟩
      | abandoning tasks =>
          rw [hop] at hc
          exact ⟨hc.1.halted, hc.1.released⟩
      | halting =>
          rw [hop] at hc
          exact absurd hc.1 hover
      | done =>
          rw [hop] at hc
          exact absurd hc.1.finished hover
  | leaving | closing | ended =>
      rw [hs] at hstage
      exact absurd hstage.1.finished hover

/-- Under any signals, failures and cancellations: while a controller runs, the background loops are not stopped
and nothing is closed. From the end of the lifespan on no controller runs and none is being claimed. A controller
is cancelled only after it was asked to stop, and never in a graceful shutdown. `run` ends with everything closed,
or raises what kept a resource from closing. It returns a code in place of a cancellation only if that was
swallowed. -/
theorem nothing_outlives_run {lifespan : Bool} {concurrency : ℕ} {db : Db} {actions : List Action}
    (hc : Along (Sys.step lifespan) Sys.Apart (.init concurrency db) actions)
    (h : run (Sys.step lifespan) (.init concurrency db) actions = some s) :
    (s.worker.unfinished ≠ [] → s.halted = false ∧ s.released = []) ∧
    (s.stage.isOver = true → s.worker.unfinished = [] ∧ s.worker.call = none ∧ s.loops = []) ∧
    (s.immediate = false → s.cut = []) ∧
    (∀ x ∈ s.cut, ∀ a, s.worker.objects.get x = some a → a.cause ≠ none) ∧
    (∀ outcome, s.stage = .ended outcome →
      s.released = Resource.all ∨ s.leaked = true ∧ outcome = .raised .error) ∧
    ∀ code, s.stage = .ended (.returned code) → s.cancelled = true → s.swallowed = true := by
  have hi : Inv s := invariant (fun _ _ _ hi hc hs => inv_step hi hc hs) inv_init hc h
  have hcarried : Carried s := invariant (I := Carried) (fun _ _ _ hi _ hs => carried_step hi hs)
    (fun hn => by cases hn) (Along.trivial _ _) h
  refine ⟨hi.served, fun ho => ?_, hi.cut.immediate, fun x hx a ha => ?_, fun outcome ho => ?_, fun code ho hn => ?_⟩
  · have hq := hi.quiet ho
    exact ⟨unfinished_of_over hq.finished, hq.call, hq.loops⟩
  · exact Option.isSome_iff_ne_none.mp (hi.cut.asked x hx a ha)
  · have hstage := hi.stage
    rw [StageOk, ho] at hstage
    exact hstage.2.2
  · rcases hcarried hn with hw | hg | hr
    · exact hw
    · rw [ho] at hg
      cases hg.2
    · rw [ho] at hr
      cases hr

section Runs

/-- One claimed attempt. A first cancellation ends its grace period, a second one the wait for its end: it is
cancelled itself, and the lifespan and the pools wait for it. -/
def interrupted : List Action :=
  [.opened, .worker (.statement (.enqueue 0 { type := "t", inputJson := "{}", policy := default })), .worker .claim,
    .worker (.execute 1 (fun _ => 1) 30 "w" (fun _ => 7) [1]), .worker .dispatch, .signal, .endLoop, .cancel, .deliver,
    .cancel, .deliver, .stop, .worker (.finish 1), .stop] ++
  Loop.all.map .loopEnds ++ [.stop, .stopped, .leave (some .cancelled), .release, .release, .release, .release, .closed]

theorem nothing_outlives_run_interrupted : ∃ s, run (Sys.step true) (.init 1 .init) interrupted = some s ∧
    s.stage = .ended (.raised .cancelled) ∧ s.cut = [1] ∧ s.worker.unfinished = [] ∧
    (s.released = Resource.all ∨ s.leaked = true ∧ Outcome.raised .cancelled = .raised .error) := by
  have hrun : (run (Sys.step true) (.init 1 .init) interrupted).any (fun s =>
      s.stage = .ended (.raised .cancelled) ∧ s.cut = [1]) = true := by decide +kernel
  obtain ⟨s, hs, hp⟩ := Option.any_eq_true _ _ |>.mp hrun
  obtain ⟨hstage, hcut⟩ := of_decide_eq_true hp
  obtain ⟨-, hover, -, -, hended, -⟩ := nothing_outlives_run (by decide +kernel) hs
  exact ⟨s, hs, hstage, hcut, (hover (by rw [hstage]; rfl)).1, hended _ hstage⟩

end Runs

end Fronta.Lifecycle
