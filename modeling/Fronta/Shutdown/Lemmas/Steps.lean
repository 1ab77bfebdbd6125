import Fronta.Shutdown.Lemmas.Accounts

/-!
# The writers and the end of the worker

The other actions keep the account too: controllers hand in their outcomes, the writers get their answers, and
the worker goes on from its claim loop until its pools are closed.
-/

namespace Fronta.Shutdown

open Sql
open Worker (Ref)

variable {s s' : Sys} {x : Ref} {a : Worker.Attempt} {c : Claimed} {completion : Completion} {writer : Writer}
  {completions : List Completion} {stage : Stage}

namespace Sys

theorem fenced_completions (h : s.fenced .completions = some completions) : ∃ batch active,
    s.completions.task = some (.writing batch active) ∧ completions = active.map Prod.fst := by
  simp only [fenced] at h
  split at h
  · rename_i batch active ht
    exact ⟨batch, active, ht, (Option.some.inj h).symm⟩
  · cases h

theorem Accounted.mono (h : s.Accounted c) (ho : s'.orphans = s.orphans) (hl : s'.lost = s.lost)
    (hu : ∀ completions, s.unstarted = some completions → c ∈ completions.map ofCompletion →
      s'.unstarted = some completions ∨ s'.Settled c)
    (hs : s.Settled c → s'.Settled c) : s'.Accounted c := by
  cases h with
  | inFlight hm => exact .inFlight (by rw [worker, ho]; exact hm)
  | lost hm => exact .lost (by rw [hl]; exact hm)
  | unstarted h hc =>
      rcases hu _ h hc with h | h
      · exact .unstarted h hc
      · exact .settled h
  | running hx hp he => exact .running (by rw [worker, ho]; exact hx) hp he
  | settled h => exact .settled (hs h)

theorem StageOk.of_orphans (h : s.StageOk stage) (ho : s'.orphans = s.orphans)
    (hu : s.unstarted = none → s'.unstarted = none) : s'.StageOk stage := by
  refine h.mono (fun hq => ?_) fun _ tasks hw => ?_
  · refine ⟨?_, ?_, ?_, hu hq.unstarted⟩
    · rw [worker, ho]; exact hq.stopping
    · rw [worker, ho]; exact hq.call
    · rw [ho]; exact hq.release
  · rw [Waits, worker, ho]; exact hw

end Sys

namespace Inv

variable (h : Inv s)
include h

/-! ## One part of the state -/

theorem of_completions {cs : Completions.Sys Empty} (hi : Completions.Inv cs)
    (hcalls : ∀ r call', cs.calls.get r = some call' → ∃ call, s.completions.calls.get r = some call ∧
      call'.completion = call.completion)
    (hkeep : ∀ r call, s.completions.calls.get r = some call → ∃ call', cs.calls.get r = some call' ∧
      call'.completion = call.completion)
    (hresults : ∀ r ∈ cs.results, ∀ y ∈ r.1, ∃ answer, (ofCompletion y.1, answer) ∈ s.answers)
    (htask : s.responses .completions ≠ none → cs.task = s.completions.task) :
    Inv { s with completions := cs } where
  orphans := h.orphans
  flight := h.flight
  completions := hi
  records := by
    refine h.records.congr rfl rfl rfl (fun _ => id) fun r call' hr => ?_
    obtain ⟨call, hr, he⟩ := hcalls r call' hr
    rw [he]
    exact h.records.calls r call hr
  facts := by
    refine ⟨h.facts.answers, fun writer applied hr => ?_, h.facts.causes, fun r call' hr hk => ?_,
      h.facts.owed⟩
    · obtain ⟨completions, hf, hoff⟩ := h.facts.responses writer applied hr
      refine ⟨completions, ?_, hoff⟩
      cases writer with
      | completions =>
          have hr : s.responses .completions = some applied := hr
          rw [Sys.fenced, htask (by simp [hr])]
          exact hf
      | unstarted => exact hf
    · obtain ⟨call, hr, he⟩ := hcalls r call' hr
      rw [he] at hk ⊢
      exact h.facts.calls r call hr hk
  duties := by
    refine ⟨fun c hc => (h.duties.accounted c hc).mono rfl rfl (fun _ hu _ => Or.inl hu) id,
      h.duties.pending, h.duties.causes, fun x r hr => ?_, hresults, h.duties.stage.of_orphans rfl id⟩
    obtain ⟨a, call, hx, hcall, he⟩ := h.duties.waits x r hr
    obtain ⟨call', hcall', hsame⟩ := hkeep r call hcall
    exact ⟨a, call', hx, hcall', by rw [hsame, he]⟩

theorem of_responses {responses : Writer → Option (List Applied)}
    (hr : ∀ writer applied, responses writer = some applied → ∃ completions,
      s.fenced writer = some completions ∧ ∀ c ∈ completions, s.worker.db.Off (ofCompletion c)) :
    Inv { s with responses := responses } where
  orphans := h.orphans
  flight := h.flight
  completions := h.completions
  records := h.records.congr rfl rfl rfl (fun _ => id) h.records.calls
  facts := ⟨h.facts.answers, hr, h.facts.causes, h.facts.calls, h.facts.owed⟩
  duties := ⟨fun c hc => (h.duties.accounted c hc).mono rfl rfl (fun _ hu _ => Or.inl hu) id,
    h.duties.pending, h.duties.causes, h.duties.waits, h.duties.results, h.duties.stage.of_orphans rfl id⟩

/-- The worker hears about claimed rows. -/
theorem of_answers {answers : List (Claimed × Answer)}
    (hn : ∀ c answer, (c, answer) ∈ answers → c ∈ s.claimed ∧ (answer ≠ .failed → s.worker.db.Off c)) :
    Inv { s with answers := s.answers ++ answers } := by
  have hmono : ∀ {c}, s.Settled c → { s with answers := s.answers ++ answers }.Settled c := fun hc =>
    hc.mono (List.subset_append_left _ _) (List.Subset.refl _) (List.Subset.refl _)
  refine ⟨h.orphans, h.flight, h.completions, h.records.congr rfl rfl rfl (fun _ => id) h.records.calls,
    ⟨fun c answer hm => ?_, h.facts.responses, h.facts.causes, h.facts.calls, h.facts.owed⟩,
    ⟨fun c hc => ?_, h.duties.pending, fun x a hx hc => ?_, h.duties.waits, fun r hr y hy => ?_,
      h.duties.stage.of_orphans rfl id⟩⟩
  · exact (List.mem_append.mp hm).elim (h.facts.answers c answer) (hn c answer)
  · exact (h.duties.accounted c hc).mono rfl rfl (fun _ hu _ => Or.inl hu) hmono
  · exact hmono (h.duties.causes x a hx hc)
  · obtain ⟨answer, hm⟩ := h.duties.results r hr y hy
    exact ⟨answer, List.mem_append_left _ hm⟩

theorem of_crashed (c : Claimed) : Inv { s with crashed := s.crashed ++ [c] } := by
  have hmono : ∀ {c'}, s.Settled c' → { s with crashed := s.crashed ++ [c] }.Settled c' := fun hc =>
    hc.mono (List.Subset.refl _) (List.Subset.refl _) (List.subset_append_left _ _)
  exact ⟨h.orphans, h.flight, h.completions, h.records.congr rfl rfl rfl (fun _ => id) h.records.calls,
    ⟨h.facts.answers, h.facts.responses, h.facts.causes, h.facts.calls, h.facts.owed⟩,
    ⟨fun c hc => (h.duties.accounted c hc).mono rfl rfl (fun _ hu _ => Or.inl hu) hmono, h.duties.pending,
      fun x a hx hc => hmono (h.duties.causes x a hx hc), h.duties.waits, h.duties.results,
      h.duties.stage.of_orphans rfl id⟩⟩

theorem of_stage (hst : s.StageOk stage) : Inv { s with stage := stage } where
  orphans := h.orphans
  flight := h.flight
  completions := h.completions
  records := h.records.congr rfl rfl rfl (fun _ => id) h.records.calls
  facts := ⟨h.facts.answers, h.facts.responses, h.facts.causes, h.facts.calls, h.facts.owed⟩
  duties := ⟨fun c hc => (h.duties.accounted c hc).mono rfl rfl (fun _ hu _ => Or.inl hu) id,
    h.duties.pending, h.duties.causes, h.duties.waits, h.duties.results, hst.of_orphans rfl id⟩

/-- The rows that go back have their answers. -/
theorem of_unstarted (hu : s.unstarted = some completions) (hr : s.responses .unstarted = none)
    (ha : ∀ c ∈ completions, ∃ answer, (ofCompletion c, answer) ∈ s.answers) :
    Inv { s with unstarted := none } where
  orphans := h.orphans
  flight := h.flight
  completions := h.completions
  records := h.records.congr rfl rfl rfl (fun _ hn => by cases hn) h.records.calls
  facts := by
    refine ⟨h.facts.answers, fun writer applied hw => ?_, h.facts.causes, h.facts.calls, h.facts.owed⟩
    cases writer with
    | completions => exact h.facts.responses .completions applied hw
    | unstarted => exact absurd (hr.symm.trans hw) nofun
  duties := by
    refine ⟨fun c hc => (h.duties.accounted c hc).mono rfl rfl (fun completions' hu' hm => ?_) id,
      fun hne => absurd rfl hne, h.duties.causes, h.duties.waits, h.duties.results,
      h.duties.stage.of_orphans rfl fun _ => rfl⟩
    cases hu.symm.trans hu'
    obtain ⟨c', hc', rfl⟩ := List.mem_map.mp hm
    exact Or.inr (Or.inl (ha c' hc'))

/-! ## Completions -/

theorem complete (hs : s.step (.complete x completion) = some s') : Inv s' := by
  simp only [Sys.step] at hs
  split at hs
  · rename_i a hx
    obtain ⟨⟨-, -, -, he, hcancel⟩, hs⟩ := Option.ite_none_right_eq_some.mp hs
    cases hs
    have hnew : s.completions.step (.complete completion) = some (s.completions.complete completion) := rfl
    refine ⟨h.orphans, h.flight, h.completions.step hnew,
      h.records.congr rfl rfl rfl (fun _ => id) fun r call hr => ?_,
      ⟨h.facts.answers, fun writer applied hr => ?_, h.facts.causes, fun r call hr hk => ?_, h.facts.owed⟩,
      ⟨fun c hc => (h.duties.accounted c hc).mono rfl rfl (fun _ hu _ => Or.inl hu) id, h.duties.pending,
        h.duties.causes, fun y r hr => ?_, h.duties.results, h.duties.stage.of_orphans rfl id⟩⟩
    · rcases Table.get_insert_cases hr with ⟨-, rfl⟩ | hr
      · exact he ▸ h.records.objects x a hx
      · exact h.records.calls r call hr
    · obtain ⟨completions, hf, hoff⟩ := h.facts.responses writer applied hr
      refine ⟨completions, ?_, hoff⟩
      cases writer with
      | completions =>
          obtain ⟨batch, active, ht, rfl⟩ := Sys.fenced_completions hf
          simp [Sys.fenced, Completions.Sys.complete, ht]
      | unstarted => exact hf
    · rcases Table.get_insert_cases hr with ⟨-, rfl⟩ | hr
      · exact he ▸ h.facts.causes x a hx (hcancel hk)
      · exact h.facts.calls r call hr hk
    · have hr : Function.update s.waits x (some s.completions.calls.next) y = some r := hr
      by_cases hy : y = x
      · subst hy
        rw [Function.update_self] at hr
        cases hr
        exact ⟨a, _, hx, Table.get_insert_self, he⟩
      · rw [Function.update_of_ne hy] at hr
        obtain ⟨b, call, hb, hc, he⟩ := h.duties.waits y r hr
        exact ⟨b, call, hb, Table.get_insert_of_get hc, he⟩
  · cases hs

theorem begin (hs : s.step .begin = some s') : Inv s' := by
  obtain ⟨cs, hcs, rfl⟩ := Option.map_eq_some_iff.mp hs
  obtain ⟨⟨cancelled, ht⟩, hcalls, hresults⟩ := Completions.Sys.begin_spec hcs
  refine h.of_completions (h.completions.step hcs) (fun r call hr => ⟨call, hcalls ▸ hr, rfl⟩)
    (fun r call hr => ⟨call, hcalls ▸ hr, rfl⟩) (fun r hr => h.duties.results r (hresults ▸ hr)) fun hr => ?_
  obtain ⟨applied, hr⟩ := Option.ne_none_iff_exists'.mp hr
  obtain ⟨completions, hf, -⟩ := h.facts.responses .completions applied hr
  obtain ⟨batch, active, hw, -⟩ := Sys.fenced_completions hf
  cases ht.symm.trans hw

theorem close (hs : s.step .close = some s') : Inv s' := by
  obtain ⟨⟨hst, -⟩, hs⟩ := Option.ite_none_right_eq_some.mp hs
  obtain ⟨cs, hcs, rfl⟩ := Option.map_eq_some_iff.mp hs
  obtain ⟨hcalls, hresults, htask⟩ := Completions.Sys.close_spec hcs
  have hclosing := h.duties.stage
  rw [hst] at hclosing
  have hcompletions : Inv { s with completions := cs } := by
    refine h.of_completions (h.completions.step hcs) (fun r call hr => ⟨call, hcalls ▸ hr, rfl⟩)
      (fun r call hr => ⟨call, hcalls ▸ hr, rfl⟩) (fun r hr => h.duties.results r (hresults ▸ hr)) fun hr => ?_
    obtain ⟨applied, hr⟩ := Option.ne_none_iff_exists'.mp hr
    obtain ⟨completions, hf, -⟩ := h.facts.responses .completions applied hr
    obtain ⟨batch, active, hw, -⟩ := Sys.fenced_completions hf
    exact htask batch active hw
  have hclosed : s.StageOk .closed := hclosing
  exact hcompletions.of_stage (hclosed.of_orphans rfl id)

theorem lose (writer : Writer) : Inv { s with responses := Function.update s.responses writer none } := by
  refine h.of_responses fun writer' applied hr => ?_
  by_cases hw : writer' = writer
  · subst hw
    rw [Function.update_self] at hr
    cases hr
  · rw [Function.update_of_ne hw] at hr
    exact h.facts.responses writer' applied hr

/-- A call of `fenced_write` returns, and the worker has heard about every row of it. -/
theorem returns {states : TaskId → Option State} {answers : List (Claimed × Answer)}
    (hf : s.fenced writer = some completions)
    (ha : ∀ c ∈ completions, ∃ answer, (ofCompletion c, answer) ∈ answers)
    (hn : ∀ c answer, (c, answer) ∈ answers → c ∈ s.claimed ∧ (answer ≠ .failed → s.worker.db.Off c))
    (hs : s.returns writer states answers = some s') : Inv s' := by
  have heard := (h.lose writer).of_answers hn
  have hnone : Function.update s.responses writer none writer = none := Function.update_self ..
  have hall : ∀ c ∈ completions, ∃ answer, (ofCompletion c, answer) ∈ s.answers ++ answers := fun c hc =>
    (ha c hc).imp fun _ hm => List.mem_append_right _ hm
  cases writer with
  | completions =>
      obtain ⟨cs, hcs, rfl⟩ := Option.map_eq_some_iff.mp hs
      obtain ⟨batch, active, ht, hcalls, hresults⟩ := Completions.Sys.returns_spec hcs
      obtain ⟨batch', active', ht', rfl⟩ := Sys.fenced_completions hf
      cases ht.symm.trans ht'
      refine heard.of_completions (heard.completions.step hcs) (fun r call' hr => ?_) (fun r call hr => ?_)
        (fun r hr y hy => ?_) fun hne => ?_
      · obtain ⟨call, hc, ⟨-, -, rfl⟩ | ⟨-, rfl⟩⟩ := Completions.Sys.get_resolve_cases hcalls hr
        · exact ⟨call, hc, rfl⟩
        · exact ⟨call', hc, rfl⟩
      · obtain ⟨call', hc, he, -⟩ := Completions.Sys.later_resolve hcalls r call hr
        exact ⟨call', hc, he⟩
      · rw [hresults] at hr
        rcases List.mem_append.mp hr with hr | hr
        · exact heard.duties.results r hr y hy
        · cases List.mem_singleton.mp hr
          exact hall y.1 (List.mem_map_of_mem hy)
      · exact absurd hnone hne
  | unstarted =>
      cases hs
      exact heard.of_unstarted hf hnone hall

theorem answer (hs : s.step (.answer writer) = some s') : Inv s' := by
  obtain ⟨completions, hf, hs⟩ := Option.bind_eq_some_iff.mp hs
  obtain ⟨applied, hr, hs⟩ := Option.bind_eq_some_iff.mp hs
  obtain ⟨completions', hf', hoff⟩ := h.facts.responses writer applied hr
  cases hf.symm.trans hf'
  refine h.returns hf (fun c hc => ⟨_, List.mem_map_of_mem hc⟩) (fun c answer hm => ?_) hs
  obtain ⟨c', hc', he⟩ := List.mem_map.mp hm
  cases he
  exact ⟨(h.fenced hf hc').1, fun _ => hoff c' hc'⟩

theorem refuse (hs : s.step (.refuse writer) = some s') : Inv s' := by
  obtain ⟨completions, hf, hs⟩ := Option.bind_eq_some_iff.mp hs
  refine h.returns hf (fun c hc => ⟨_, List.mem_map_of_mem hc⟩) (fun c answer hm => ?_) hs
  obtain ⟨c', hc', he⟩ := List.mem_map.mp hm
  cases he
  exact ⟨(h.fenced hf hc').1, fun hne => absurd rfl hne⟩

/-! ## Statements and crashes -/

/-- A statement and an end of a controller change nothing else. -/
theorem after_eq {o : Orphans.Sys} {w : Worker.Sys.Action} (ho : s.orphans.step (.worker w) = some o)
    (hw : (∃ op, w = .statement op) ∨ ∃ x, w = .finish x) :
    s.after (.worker w) o = { s with orphans := o } := by
  obtain ⟨worker, -, -, -, rfl⟩ := Orphans.Sys.act_spec ho
  have hlost : s.orphans.release = none → s.lost = [] := fun hn => by
    refine List.eq_nil_iff_forall_not_mem.mpr fun c hc => ?_
    obtain ⟨r, hr, -⟩ := h.facts.owed c hc
    rw [hn] at hr
    cases hr
  rcases hw with ⟨op, rfl⟩ | ⟨x, rfl⟩
  · simp only [Sys.after, Sys.taken, Sys.heard, Sys.gaveUp, List.append_nil, Option.isNone_iff_eq_none]
    split
    · rename_i hn
      rw [hlost hn]
    · rfl
  · simp only [Sys.after, Sys.taken, Sys.heard, Sys.gaveUp, List.append_nil, Option.isNone_iff_eq_none]
    split
    · rename_i hn
      rw [hlost hn]
    · rfl

theorem write {now : Time} {jitter : TaskId → ℚ} (hs : s.step (.write writer now jitter) = some s') :
    Inv s' := by
  obtain ⟨completions, hf, hs⟩ := Option.bind_eq_some_iff.mp hs
  split at hs
  · rename_i applied db hok
    obtain ⟨o, ho, rfl⟩ := Option.map_eq_some_iff.mp hs
    have hinv := h.after ho (decide_eq_true trivial) ⟨fun _ => rfl, nofun⟩
    rw [h.after_eq ho (Or.inl ⟨_, rfl⟩)] at hinv
    obtain ⟨worker, hw, -, -, rfl⟩ := Orphans.Sys.act_spec ho
    cases hw
    refine hinv.of_responses fun writer' applied' hr => ?_
    by_cases he : writer' = writer
    · subst he
      refine ⟨completions, hf, fun c hc t ht => ?_⟩
      have ht : (s.worker.db.exec (.complete now jitter completions)).tasks.get c.id = some t := ht
      rw [Db.exec, hok] at ht
      obtain ⟨-, he | ⟨rfl, -⟩⟩ := Db.complete_ok hok
      · obtain ⟨-, rfl⟩ := Prod.mk.inj he
        refine Db.token_applyOutcomes h.orphans.rows (fun c' hc' hk => ?_) hc ht
        exact (h.fenced hf hc').2 hk
      · cases hc
    · rw [Function.update_of_ne he] at hr
      exact hinv.facts.responses writer' applied' hr
  · cases hs

theorem crash (hs : s.step (.crash x) = some s') : Inv s' := by
  simp only [Sys.step] at hs
  split at hs
  · rename_i a hx
    obtain ⟨-, hs⟩ := Option.ite_none_right_eq_some.mp hs
    obtain ⟨o, ho, rfl⟩ := Option.map_eq_some_iff.mp hs
    have hcrashed := h.of_crashed (ofAttempt a)
    have ho' : { s with crashed := s.crashed ++ [ofAttempt a] }.orphans.step (.worker (.finish x)) = some o := ho
    have hinv := hcrashed.after ho' (decide_eq_true trivial) ⟨fun hn => absurd rfl (hn x), fun y b he hy => ?_⟩
    · rwa [hcrashed.after_eq ho' (Or.inr ⟨x, rfl⟩)] at hinv
    · cases he
      cases hx.symm.trans hy
      exact Or.inr (Or.inr (List.mem_append_right _ List.mem_cons_self))
  · cases hs

theorem mayFinish (hf : s.mayFinish x = true) (hx : s.worker.objects.get x = some a) :
    s.Settled (ofAttempt a) := by
  unfold Sys.mayFinish at hf
  split at hf
  · rename_i r hr
    obtain ⟨b, call, hb, hcall, he⟩ := h.duties.waits x r hr
    cases hx.symm.trans hb
    rw [hcall, Option.any_some] at hf
    split at hf
    · rename_i state hfuture
      have hfate := h.completions.core.fate r call hcall
      rw [hfuture] at hfate
      obtain ⟨res, hres, hm, -⟩ := hfate
      obtain ⟨answer, ha⟩ := h.duties.results res hres _ hm
      exact Or.inl ⟨answer, he ▸ ha⟩
    · cases hf
  · rw [hx, Option.any_some] at hf
    exact h.duties.causes x a hx (of_decide_eq_true hf)

theorem orphans_step {action : Orphans.Action} (hs : s.step (.orphans action) = some s')
    (hc : s.Clean (.orphans action)) : Inv s' := by
  obtain ⟨hadm, hs⟩ := Option.ite_none_right_eq_some.mp hs
  obtain ⟨o, ho, rfl⟩ := Option.map_eq_some_iff.mp hs
  refine h.after ho hc ⟨fun _ => hadm, fun x a he hx => ?_⟩
  subst he
  exact h.mayFinish hadm hx

/-! ## Stages -/

theorem mem_tasks (hx : s.worker.objects.get x = some a) (hp : a.phase = .running) : x ∈ s.tasks := by
  have ht := h.orphans.worker.tracked x a hx (by simp [hp])
  exact List.mem_map.mpr ⟨_, AList.mem_lookup_iff.mp ht, rfl⟩

theorem orClosing (hq : s.Quiet) (hst : s.StageOk stage) : Inv (s.orClosing stage) := by
  refine h.of_stage ?_
  split
  · rename_i hn
    exact ⟨hq, fun x a hx hp => hn ▸ h.mem_tasks hx hp⟩
  · exact hst

omit h in
theorem waits_nil {tasks : List Ref} (hw : s.Waits tasks) (he : s.allEnded tasks = true) : s.Waits [] := by
  intro x a hx hp
  have hx' := List.all_eq_true.mp he x (hw x a hx hp)
  rw [hx, Option.all_some] at hx'
  exact absurd hp (of_decide_eq_true hx')

theorem endLoop (hs : s.step .endLoop = some s') : Inv s' := by
  obtain ⟨⟨-, hst, hcall, hrel, hu⟩, hs⟩ := Option.ite_none_right_eq_some.mp hs
  cases hs
  have hq : s.Quiet := ⟨hst, hcall, Option.isNone_iff_eq_none.mp hrel, hu⟩
  exact h.orClosing hq hq

theorem stopAll (hq : s.Quiet) : Inv s.stopAll := by
  have hget : ∀ y, s.stopAll.worker.objects.get y = (s.worker.objects.get y).map fun a =>
      (if y ∈ s.tasks then some (a.stop .shutdown) else none).getD a := fun _ => rfl
  have hnext : ∀ (y : Ref) (a : Worker.Attempt), a.Next False (· = .shutdown)
      ((if y ∈ s.tasks then some (a.stop .shutdown) else none).getD a) := fun y a => by
    split
    · exact .stop rfl
    · exact .refl
  have hback : ∀ y b, s.stopAll.worker.objects.get y = some b →
      ∃ a, s.worker.objects.get y = some a ∧ a.Next False (· = .shutdown) b := fun y b hb => by
    rw [hget] at hb
    obtain ⟨a, ha, rfl⟩ := Option.map_eq_some_iff.mp hb
    exact ⟨a, ha, hnext y a⟩
  have hkeep : ∀ y a, s.worker.objects.get y = some a →
      ∃ b, s.stopAll.worker.objects.get y = some b ∧ a.Next False (· = .shutdown) b := fun y a ha =>
    ⟨_, by rw [hget, ha]; rfl, hnext y a⟩
  have hcause : ∀ y b cause, s.stopAll.worker.objects.get y = some b → b.cause = some cause →
      cause ≠ .shutdown → ∃ a, s.worker.objects.get y = some a ∧ ofAttempt a = ofAttempt b ∧
        a.cause = some cause := fun y b cause hb hc hne => by
    obtain ⟨a, ha, hn⟩ := hback y b hb
    refine ⟨a, ha, by rw [ofAttempt, ofAttempt, hn.row, hn.token], ?_⟩
    rcases hn.cause with he | ⟨cause', -, he, rfl⟩
    · exact he ▸ hc
    · exact absurd (Option.some.inj (he.symm.trans hc)).symm hne
  have hclaimed : s.stopAll.worker.claimed = [] := Worker.Sys.claimed_of_call hq.call
  refine ⟨⟨?_, h.orphans.rows, h.orphans.issued, h.orphans.idle, fun r hr => ?_⟩, ⟨fun y b hb => ?_, ?_, ?_, ?_⟩,
    h.completions, ⟨h.records.issued, fun y b hb => ?_, h.records.flight, h.records.lost, h.records.unstarted,
    h.records.calls⟩, ⟨h.facts.answers, h.facts.responses, fun y b hb hc => ?_, h.facts.calls, h.facts.owed⟩,
    ⟨fun c hc => ?_, h.duties.pending, fun y b hb hc => ?_, fun y r hr => ?_, h.duties.results, ?_⟩⟩
  · refine h.orphans.worker.of_matched (h.orphans.worker.update (fun y a b hb => ?_) rfl rfl) rfl rfl le_rfl
    obtain ⟨-, hb⟩ := Option.ite_none_right_eq_some.mp hb
    cases hb
    exact ⟨rfl, Iff.rfl⟩
  · rw [show s.stopAll.orphans.release = none from hq.release] at hr
    cases hr
  · obtain ⟨a, ha, hn⟩ := hback y b hb
    exact hn.token ▸ h.flight.objects y a ha
  · exact fun c hc => absurd (hclaimed ▸ hc) List.not_mem_nil
  · exact fun c hc => absurd (hclaimed ▸ hc) List.not_mem_nil
  · exact fun c hc => absurd (hclaimed ▸ hc) List.not_mem_nil
  · obtain ⟨a, ha, hn⟩ := hback y b hb
    rw [ofAttempt, hn.row, hn.token]
    exact h.records.objects y a ha
  · obtain ⟨a, ha, he, hc⟩ := hcause y b _ hb hc (by decide)
    exact he ▸ h.facts.causes y a ha hc
  · cases h.duties.accounted c hc with
    | inFlight hm => exact .inFlight hm
    | lost hm => exact .lost hm
    | unstarted hu hm => exact .unstarted hu hm
    | running hx hp he =>
        obtain ⟨b, hb, hn⟩ := hkeep _ _ hx
        exact .running hb ((hn.runs hp).resolve_right id) (by rw [ofAttempt, hn.row, hn.token]; exact he)
    | settled hs => exact .settled hs
  · obtain ⟨a, ha, he, hc⟩ := hcause y b _ hb hc (by decide)
    exact he ▸ h.duties.causes y a ha hc
  · obtain ⟨a, call, hx, hcall, he⟩ := h.duties.waits y r hr
    obtain ⟨b, hb, hn⟩ := hkeep y a hx
    exact ⟨b, call, hb, hcall, by rw [he, ofAttempt, ofAttempt, hn.row, hn.token]⟩
  · refine h.duties.stage.mono (fun hq => ⟨hq.stopping, hq.call, hq.release, hq.unstarted⟩)
      fun _ tasks hw y b hb hp => ?_
    obtain ⟨a, ha, hn⟩ := hback y b hb
    exact hw y a ha (hn.running hp)

theorem endGrace (hs : s.step .endGrace = some s') : Inv s' := by
  obtain ⟨hst, hs⟩ := Option.ite_none_right_eq_some.mp hs
  cases hs
  have hq := h.duties.stage
  rw [hst] at hq
  have hstop := h.stopAll hq
  have hq' : s.stopAll.Quiet := ⟨hq.stopping, hq.call, hq.release, hq.unstarted⟩
  exact hstop.orClosing hq' ⟨hq', fun x a hx hp => hstop.mem_tasks hx hp⟩

theorem settled (hs : s.step .settled = some s') : Inv s' := by
  simp only [Sys.step] at hs
  split at hs
  · rename_i tasks hst
    obtain ⟨he, hs⟩ := Option.ite_none_right_eq_some.mp hs
    cases hs
    have hok := h.duties.stage
    rw [hst] at hok
    exact h.orClosing hok.1 ⟨hok.1, waits_nil hok.2 he⟩
  · cases hs

theorem cut (hs : s.step .cut = some s') : Inv s' := by
  obtain ⟨⟨hst, -⟩, hs⟩ := Option.ite_none_right_eq_some.mp hs
  cases hs
  have hok := h.duties.stage
  rw [hst] at hok
  have hclosing : s.StageOk .closing := hok
  exact h.of_stage hclosing

theorem step {action : Action} (hc : s.Clean action) (hs : s.step action = some s') : Inv s' := by
  cases action with
  | orphans action => exact h.orphans_step hs hc
  | complete x completion => exact h.complete hs
  | crash x => exact h.crash hs
  | begin => exact h.begin hs
  | write writer now jitter => exact h.write hs
  | lose writer => cases hs; exact h.lose writer
  | answer writer => exact h.answer hs
  | refuse writer => exact h.refuse hs
  | endLoop => exact h.endLoop hs
  | endGrace => exact h.endGrace hs
  | settled => exact h.settled hs
  | cut => exact h.cut hs
  | close => exact h.close hs

end Inv

theorem stopping_step {action : Action} (hs : s.step action = some s') (hst : s.worker.stopping = true) :
    s'.worker.stopping = true ∧ s'.worker.objects.next = s.worker.objects.next := by
  cases action with
  | orphans action =>
      obtain ⟨-, hs⟩ := Option.ite_none_right_eq_some.mp hs
      obtain ⟨o, ho, rfl⟩ := Option.map_eq_some_iff.mp hs
      exact Orphans.stopping_step ho hst
  | crash x =>
      simp only [Sys.step] at hs
      split at hs
      · obtain ⟨-, hs⟩ := Option.ite_none_right_eq_some.mp hs
        obtain ⟨o, ho, rfl⟩ := Option.map_eq_some_iff.mp hs
        exact Orphans.stopping_step ho hst
      · cases hs
  | write writer now jitter =>
      obtain ⟨completions, -, hs⟩ := Option.bind_eq_some_iff.mp hs
      split at hs
      · obtain ⟨o, ho, rfl⟩ := Option.map_eq_some_iff.mp hs
        exact Orphans.stopping_step ho hst
      · cases hs
  | complete x completion =>
      simp only [Sys.step] at hs
      split at hs
      · obtain ⟨-, hs⟩ := Option.ite_none_right_eq_some.mp hs
        cases hs; exact ⟨hst, rfl⟩
      · cases hs
  | begin => obtain ⟨cs, -, rfl⟩ := Option.map_eq_some_iff.mp hs; exact ⟨hst, rfl⟩
  | lose writer => cases hs; exact ⟨hst, rfl⟩
  | answer writer =>
      obtain ⟨completions, -, hs⟩ := Option.bind_eq_some_iff.mp hs
      obtain ⟨applied, -, hs⟩ := Option.bind_eq_some_iff.mp hs
      cases writer with
      | completions => obtain ⟨cs, -, rfl⟩ := Option.map_eq_some_iff.mp hs; exact ⟨hst, rfl⟩
      | unstarted => cases hs; exact ⟨hst, rfl⟩
  | refuse writer =>
      obtain ⟨completions, -, hs⟩ := Option.bind_eq_some_iff.mp hs
      cases writer with
      | completions => obtain ⟨cs, -, rfl⟩ := Option.map_eq_some_iff.mp hs; exact ⟨hst, rfl⟩
      | unstarted => cases hs; exact ⟨hst, rfl⟩
  | endLoop => obtain ⟨-, hs⟩ := Option.ite_none_right_eq_some.mp hs; cases hs; exact ⟨hst, rfl⟩
  | endGrace => obtain ⟨-, hs⟩ := Option.ite_none_right_eq_some.mp hs; cases hs; exact ⟨hst, rfl⟩
  | settled =>
      simp only [Sys.step] at hs
      split at hs
      · obtain ⟨-, hs⟩ := Option.ite_none_right_eq_some.mp hs
        cases hs; exact ⟨hst, rfl⟩
      · cases hs
  | cut => obtain ⟨-, hs⟩ := Option.ite_none_right_eq_some.mp hs; cases hs; exact ⟨hst, rfl⟩
  | close =>
      obtain ⟨-, hs⟩ := Option.ite_none_right_eq_some.mp hs
      obtain ⟨cs, -, rfl⟩ := Option.map_eq_some_iff.mp hs
      exact ⟨hst, rfl⟩

end Fronta.Shutdown
