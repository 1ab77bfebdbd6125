import Fronta.Shutdown.Lemmas.Steps

/-!
# What a graceful shutdown settles

When the pools are closed every controller has finished, and every claimed row was answered for, unless its
attempt had been given up: its lease was not renewed in time, or its controller raised.
-/

namespace Fronta.Shutdown

open Runs Sql

variable {s : Sys} {concurrency : ℕ} {name : Name} {actions : List Action}

theorem inv_of_run (hc : Along Sys.step Sys.Clean (.init concurrency name) actions)
    (h : run Sys.step (.init concurrency name) actions = some s) : Inv s :=
  invariant (fun _ _ _ hi hc hs => hi.step hc hs) inv_init hc h

/-- After the request no run adds an object. -/
theorem objects_of_run {t : Sys} (h : run Sys.step t actions = some s) (hst : t.worker.stopping = true) :
    s.worker.stopping = true ∧ s.worker.objects.next = t.worker.objects.next := by
  induction actions generalizing t with
  | nil =>
      cases h
      exact ⟨hst, rfl⟩
  | cons action actions ih =>
      obtain ⟨t', hs, h⟩ := run_cons.mp h
      obtain ⟨hst', hn⟩ := stopping_step hs hst
      obtain ⟨hs, hn'⟩ := ih h hst'
      exact ⟨hs, hn'.trans hn⟩

/-- The last stage leaves a row no place but a settled one. -/
theorem Inv.settled_of_closed (h : Inv s) (hst : s.stage = .closed) :
    s.unfinished = [] ∧ ∀ c ∈ s.claimed, s.Settled c := by
  have hok := h.duties.stage
  rw [hst] at hok
  obtain ⟨hq, hw⟩ := hok
  constructor
  · refine List.eq_nil_iff_forall_not_mem.mpr fun y hy => ?_
    obtain ⟨hy, hp⟩ := List.mem_filter.mp hy
    exact absurd (hw y.1 y.2 (Table.mem_entries.mp hy) (of_decide_eq_true hp)) List.not_mem_nil
  · intro c hc
    cases h.duties.accounted c hc with
    | inFlight hm =>
        rw [Worker.Sys.claimed_of_call hq.call] at hm
        cases hm
    | lost hm =>
        obtain ⟨r, hr, -⟩ := h.facts.owed c hm
        rw [hq.release] at hr
        cases hr
    | unstarted hu =>
        rw [hq.unstarted] at hu
        cases hu
    | running hx hp => exact absurd (hw _ _ hx hp) List.not_mem_nil
    | settled hs => exact hs

/-- In a run where no claim brings back a row that the map still holds and no page of a release misses a row:
nothing starts after the request. When the pools are closed, no controller runs, and of every claimed row the
worker has had an answer or logged a write that failed, or its attempt was stopped for want of a renewal or ended
by an exception. An answered row is without the token that the answer was about. -/
theorem graceful_shutdown (hc : Along Sys.step Sys.Clean (.init concurrency name) actions)
    (h : run Sys.step (.init concurrency name) actions = some s) :
    (∀ as bs t, actions = as ++ bs → run Sys.step (.init concurrency name) as = some t →
      t.worker.stopping = true → s.worker.objects.next = t.worker.objects.next) ∧
    (s.stage = .closed → s.unfinished = []) ∧
    (s.stage = .closed → ∀ c ∈ s.claimed,
      (∃ answer, (c, answer) ∈ s.answers) ∨ c ∈ s.expired ∨ c ∈ s.crashed) ∧
    ∀ c answer, (c, answer) ∈ s.answers → answer ≠ .failed →
      ∀ t, s.worker.db.tasks.get c.1 = some t → t.token ≠ some c.2 := by
  have hi := inv_of_run hc h
  refine ⟨fun as bs t he ht hst => ?_, fun hst => (hi.settled_of_closed hst).1,
    fun hst => (hi.settled_of_closed hst).2, fun c answer hm => (hi.facts.answers c answer hm).2⟩
  subst he
  obtain ⟨t', ht', h⟩ := run_append.mp h
  cases ht.symm.trans ht'
  exact (objects_of_run h hst).2

section Runs

/-- A task with the default policy. -/
def plain : NewTask := { type := "t", inputJson := "{}", policy := default }

/-- An action of the worker's part. -/
abbrev worker (action : Worker.Sys.Action) : Action := .orphans (.worker action)

/-- One claim of the worker. -/
def claims (now : Time) (token : Token) (ids : List TaskId) : List Action :=
  [worker .claim, worker (.execute now (fun _ => now) 30 "w" (fun _ => token) ids)]

/-- The response of the first try of a completion is lost while a claim lands after the request. -/
theorem graceful_shutdown_retried :
    let actions : List Action :=
      List.replicate 2 (worker (.statement (.enqueue 0 plain))) ++ claims 1 71 [1] ++ [worker .dispatch] ++
        [worker .claim, worker .requestShutdown,
          worker (.execute 2 (fun _ => 2) 30 "w" (fun _ => 82) [2]), worker .dispatch,
          .complete 1 ⟨1, 71, .succeed, some "1", nofun⟩, .begin, .write .completions 3 fun _ => 0,
          .lose .completions, .write .unstarted 3 fun _ => 0, .answer .unstarted, .endLoop,
          .write .completions 4 fun _ => 0, .answer .completions, worker (.finish 1),
          worker (.attemptDone 1), .endGrace, .close]
    ∃ s, run Sys.step (.init 2 "w") actions = some s ∧ s.stage = .closed ∧ s.unfinished = [] ∧
      s.claimed = [(1, 71), (2, 82)] ∧ ∀ c ∈ s.claimed,
        (∃ answer, (c, answer) ∈ s.answers) ∨ c ∈ s.expired ∨ c ∈ s.crashed := by
  intro actions
  have hrun : (run Sys.step (.init 2 "w") actions).any (fun s =>
      s.stage = .closed && s.claimed = [(1, 71), (2, 82)]) = true := by decide +kernel
  obtain ⟨s, hs, hp⟩ := Option.any_eq_true _ _ |>.mp hrun
  rw [Bool.and_eq_true] at hp
  have hst := of_decide_eq_true hp.1
  obtain ⟨-, hended, hsettled, -⟩ := graceful_shutdown (by decide +kernel) hs
  exact ⟨s, hs, hst, hended hst, of_decide_eq_true hp.2, hsettled hst⟩

/-- No renewal is confirmed within the lease. The attempt is stopped without an outcome, and the pools are closed
while its row still runs under its token. -/
theorem lost_lease_has_no_answer :
    ∃ (actions : List Action) (s : Sys), Along Sys.step Sys.Clean (.init 1 "w") actions ∧
      run Sys.step (.init 1 "w") actions = some s ∧ s.stage = .closed ∧ (1, 71) ∈ s.claimed ∧
      (∀ answer, ((1, 71), answer) ∉ s.answers) ∧ s.valid (1, 71) = true := by
  let actions : List Action :=
    [worker (.statement (.enqueue 0 plain))] ++ claims 1 71 [1] ++
      [worker .dispatch, worker .requestShutdown, .endLoop, worker (.expire 1), worker (.finish 1),
        worker (.attemptDone 1), .endGrace, .close]
  have hrun : (run Sys.step (.init 1 "w") actions).any (fun s =>
      s.stage = .closed && (1, 71) ∈ s.claimed && s.answers = [] && s.valid (1, 71)) = true := by decide +kernel
  obtain ⟨s, hs, hp⟩ := Option.any_eq_true _ _ |>.mp hrun
  simp only [Bool.and_eq_true, decide_eq_true_eq] at hp
  obtain ⟨⟨⟨hst, hm⟩, hnone⟩, hv⟩ := hp
  refine ⟨actions, s, by decide +kernel, hs, hst, hm, fun answer ha => ?_, hv⟩
  rw [hnone] at ha
  cases ha

end Runs

end Fronta.Shutdown
