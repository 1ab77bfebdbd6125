import Fronta.Completions.Lemmas.Steps
import Fronta.Shutdown.Lemmas.Attempts

/-!
# What becomes of a claimed row

Every claimed row is in flight, owed by a release, on its way back, in the hands of a running controller, or
settled. The actions of the worker and of the other parties keep the account.
-/

namespace Fronta

open Sql

namespace Db

variable {db db' : Db} {issued : List Token} {c : TaskId × Token}

/-- While the token is on its row, a cancel is requested. -/
def CancelSeen (db : Db) (c : TaskId × Token) : Prop :=
  ∀ t, db.tasks.get c.1 = some t → t.token = some c.2 → t.cancelRequestedAt ≠ none

/-- Issued tokens do not come back, and a row that keeps one keeps its cancel request. -/
def Later (issued : List Token) (db db' : Db) : Prop :=
  ∀ i t' token, token ∈ issued → db'.tasks.get i = some t' → t'.token = some token →
    ∃ t, db.tasks.get i = some t ∧ t.token = some token ∧
      (t.cancelRequestedAt ≠ none → t'.cancelRequestedAt ≠ none)

theorem Off.later (h : db.Off c) (hl : Later issued db db') (hi : c.2 ∈ issued) : db'.Off c := by
  intro t' ht' htok
  obtain ⟨t, ht, htok, -⟩ := hl c.1 t' c.2 hi ht' htok
  exact h t ht htok

theorem CancelSeen.later (h : db.CancelSeen c) (hl : Later issued db db') (hi : c.2 ∈ issued) :
    db'.CancelSeen c := by
  intro t' ht' htok
  obtain ⟨t, ht, htok, hc⟩ := hl c.1 t' c.2 hi ht' htok
  exact hc (h t ht htok)

end Db

theorem Orphans.later_step {s s' : Orphans.Sys} {action : Orphans.Action} (hs : s.step action = some s') :
    Db.Later s.issued s.worker.db s'.worker.db := by
  intro i t' token hi ht htok
  obtain ⟨t, ht, htok, -, hc⟩ := Orphans.Sys.token_step hs hi ht htok
  exact ⟨t, ht, htok, hc⟩

namespace Shutdown

open Worker (Ref)

namespace Sys

/-! ## The account -/

/-- The worker has heard about the row, or has given its attempt up. -/
def Settled (s : Sys) (c : Claimed) : Prop :=
  (∃ answer, (c, answer) ∈ s.answers) ∨ c ∈ s.expired ∨ c ∈ s.crashed

/-- Where a claimed row is. -/
inductive Accounted (s : Sys) (c : Claimed) : Prop
  | inFlight (h : c ∈ s.worker.claimed)
  | lost (h : c ∈ s.lost)
  | unstarted {completions : List Completion} (h : s.unstarted = some completions)
      (hc : c ∈ completions.map ofCompletion)
  | running {x : Ref} {a : Worker.Attempt} (h : s.worker.objects.get x = some a) (hp : a.phase = .running)
      (hc : ofAttempt a = c)
  | settled (h : s.Settled c)

/-- Nothing is claimed, released or started any more. -/
structure Quiet (s : Sys) : Prop where
  stopping : s.worker.stopping = true
  call : s.worker.call = none
  release : s.orphans.release = none
  unstarted : s.unstarted = none

/-- Only these controllers may run. -/
def Waits (s : Sys) (tasks : List Ref) : Prop :=
  ∀ x a, s.worker.objects.get x = some a → a.phase = .running → x ∈ tasks

def StageOk (s : Sys) : Stage → Prop
  | .serving => True
  | .grace => s.Quiet
  | .settling tasks => s.Quiet ∧ s.Waits tasks
  | .cutting | .closing | .closed => s.Quiet ∧ s.Waits []

end Sys

/-- The worker refers to claimed rows only, by tokens that were given out. -/
structure Records (s : Sys) : Prop where
  issued : ∀ c ∈ s.claimed, c.2 ∈ s.orphans.issued
  objects : ∀ x a, s.worker.objects.get x = some a → ofAttempt a ∈ s.claimed
  flight : ∀ c ∈ s.worker.claimed, c ∈ s.claimed
  lost : ∀ c ∈ s.lost, c ∈ s.claimed
  unstarted : ∀ completions, s.unstarted = some completions → ∀ c ∈ completions,
    ofCompletion c ∈ s.claimed ∧ c.kind = .release
  calls : ∀ r call, s.completions.calls.get r = some call → ofCompletion call.completion ∈ s.claimed

/-- What the worker has heard is so in the database. -/
structure Facts (s : Sys) : Prop where
  answers : ∀ c answer, (c, answer) ∈ s.answers → c ∈ s.claimed ∧ (answer ≠ .failed → s.worker.db.Off c)
  responses : ∀ writer applied, s.responses writer = some applied → ∃ completions,
    s.fenced writer = some completions ∧ ∀ c ∈ completions, s.worker.db.Off (ofCompletion c)
  causes : ∀ x a, s.worker.objects.get x = some a → a.cause = some .cancel →
    s.worker.db.CancelSeen (ofAttempt a)
  calls : ∀ r call, s.completions.calls.get r = some call → call.completion.kind = .cancel →
    s.worker.db.CancelSeen (ofCompletion call.completion)
  owed : ∀ c ∈ s.lost, ∃ r, s.orphans.release = some r ∧ (c ∈ r.owed ∨ s.worker.db.Off c)

/-- No claimed row is forgotten. -/
structure Duties (s : Sys) : Prop where
  accounted : ∀ c ∈ s.claimed, s.Accounted c
  pending : s.unstarted ≠ none → s.worker.stopping = true ∧ s.worker.call = none
  causes : ∀ x a, s.worker.objects.get x = some a → a.cause = some .lost → s.Settled (ofAttempt a)
  waits : ∀ x r, s.waits x = some r → ∃ a call, s.worker.objects.get x = some a ∧
    s.completions.calls.get r = some call ∧ ofCompletion call.completion = ofAttempt a
  results : ∀ r ∈ s.completions.results, ∀ y ∈ r.1, ∃ answer, (ofCompletion y.1, answer) ∈ s.answers
  stage : s.StageOk s.stage

structure Inv (s : Sys) : Prop where
  orphans : Orphans.Inv s.orphans
  flight : Orphans.InFlight s.orphans
  completions : Completions.Inv s.completions
  records : Records s
  facts : Facts s
  duties : Duties s

theorem inv_init {concurrency : ℕ} {name : Name} : Inv (.init concurrency name) where
  orphans := Orphans.inv_init
  flight := Orphans.inFlight_init
  completions := Completions.inv_init
  records := ⟨nofun, nofun, nofun, nofun, nofun, nofun⟩
  facts := ⟨nofun, nofun, nofun, nofun, nofun⟩
  duties := ⟨nofun, fun h => absurd rfl h, nofun, nofun, nofun, trivial⟩

variable {s s' : Sys} {o : Orphans.Sys} {action : Orphans.Action} {c : Claimed} {answer : Answer}
  {writer : Writer} {completions : List Completion}

theorem Sys.Settled.mono (h : s.Settled c) (ha : s.answers ⊆ s'.answers) (he : s.expired ⊆ s'.expired)
    (hc : s.crashed ⊆ s'.crashed) : s'.Settled c :=
  h.imp (fun ⟨answer, hm⟩ => ⟨answer, ha hm⟩) fun h => h.imp (fun hm => he hm) fun hm => hc hm

theorem Sys.Settled.after (h : s.Settled c) : (s.after action o).Settled c :=
  h.mono (List.subset_append_left _ _) (List.subset_append_left _ _) (List.Subset.refl _)

theorem Records.congr (h : Records s) (ho : s'.orphans = s.orphans) (hc : s'.claimed = s.claimed)
    (hl : s'.lost = s.lost)
    (hu : ∀ completions, s'.unstarted = some completions → s.unstarted = some completions)
    (hcalls : ∀ r call, s'.completions.calls.get r = some call →
      ofCompletion call.completion ∈ s.claimed) : Records s' where
  issued := by rw [hc, ho]; exact h.issued
  objects := by rw [Sys.worker, ho, hc]; exact h.objects
  flight := by rw [Sys.worker, ho, hc]; exact h.flight
  lost := by rw [hl, hc]; exact h.lost
  unstarted completions hs := by rw [hc]; exact h.unstarted completions (hu completions hs)
  calls := by rw [hc]; exact hcalls

theorem Sys.StageOk.mono {stage : Stage} (h : s.StageOk stage) (hq : s.Quiet → s'.Quiet)
    (ho : s.Quiet → ∀ tasks, s.Waits tasks → s'.Waits tasks) : s'.StageOk stage := by
  cases stage with
  | serving => trivial
  | grace => exact hq h
  | settling tasks => exact ⟨hq h.1, ho h.1 _ h.2⟩
  | cutting => exact ⟨hq h.1, ho h.1 _ h.2⟩
  | closing => exact ⟨hq h.1, ho h.1 _ h.2⟩
  | closed => exact ⟨hq h.1, ho h.1 _ h.2⟩

/-- A completion that a call of `fenced_write` writes is of a claimed row, and a cancel was requested. -/
theorem Inv.fenced (h : Inv s) (hf : s.fenced writer = some completions) {c : Completion}
    (hc : c ∈ completions) : ofCompletion c ∈ s.claimed ∧
      (c.kind = .cancel → s.worker.db.CancelSeen (ofCompletion c)) := by
  cases writer with
  | completions =>
      simp only [Sys.fenced] at hf
      split at hf
      · rename_i batch active ht
        cases hf
        obtain ⟨y, hy, rfl⟩ := List.mem_map.mp hc
        have hfits := h.completions.fits
        rw [ht] at hfits
        obtain ⟨call, hcall, he, -⟩ := hfits.2.2.1 y (hfits.2.1 hy)
        rw [← he]
        exact ⟨h.records.calls _ call hcall, h.facts.calls _ call hcall⟩
      · cases hf
  | unstarted =>
      obtain ⟨hm, hk⟩ := h.records.unstarted _ hf c hc
      exact ⟨hm, fun he => by rw [hk] at he; cases he⟩

/-! ## Actions of the worker and of the other parties -/

/-- What the action needs here: a controller that ends is settled. -/
structure Allowed (s : Sys) (action : Orphans.Action) : Prop where
  admits : (∀ x, action ≠ .worker (.finish x)) → s.admits action = true
  finish : ∀ x a, action = .worker (.finish x) → s.worker.objects.get x = some a → s.Settled (ofAttempt a)

namespace Sys

theorem mem_taken (h : c ∈ taken o action) : c ∈ o.worker.claimed := by
  unfold taken at h
  split at h
  · exact h
  · cases h

theorem lost_after (hl : action ≠ .lose) :
    (s.after action o).lost = if o.release.isNone then [] else s.lost := by
  simp only [after]

theorem unstarted_after (hd : action ≠ .worker .dispatch) :
    (s.after action o).unstarted = s.unstarted := by
  simp only [after]

theorem mem_lost (h : c ∈ (s.after action o).lost) :
    (action = .lose ∧ c ∈ s.worker.claimed) ∨ c ∈ s.lost ∧ o.release ≠ none := by
  by_cases hl : action = .lose
  · subst hl
    exact Or.inl ⟨rfl, h⟩
  · rw [lost_after hl] at h
    split at h
    · cases h
    · rename_i hr
      exact Or.inr ⟨h, fun he => hr (by rw [he]; rfl)⟩

theorem off_of_invalid (h : s.worker.db.RowsOk) (hv : s.valid c = false) : s.worker.db.Off c := by
  intro t ht htok
  have hrun := (h _ t ht).running_token.mpr (by simp [htok])
  simp [valid, ht, htok, hrun] at hv

end Sys

namespace Inv

theorem later (ho : s.orphans.step action = some o) :
    Db.Later s.orphans.issued s.worker.db o.worker.db := Orphans.later_step ho

variable (h : Inv s) (ho : s.orphans.step action = some o)
include h ho

theorem dispatch_fresh (ha : action = .worker .dispatch) : s.unstarted = none := by
  subst ha
  by_contra hn
  obtain ⟨-, hcall⟩ := h.duties.pending hn
  obtain ⟨w, hw, -⟩ := Orphans.Sys.act_spec ho
  have hcall : s.orphans.worker.call = none := hcall
  simp [Worker.Sys.step, hcall] at hw

theorem fenced_after (hf : s.fenced writer = some completions) :
    (s.after action o).fenced writer = some completions := by
  cases writer with
  | completions => exact hf
  | unstarted =>
      have hd : action ≠ .worker .dispatch := fun ha => by
        have hn := h.dispatch_fresh ho ha
        rw [Sys.fenced, hn] at hf
        cases hf
      exact (Sys.unstarted_after hd).trans hf

theorem unstarted_origin (hu : (s.after action o).unstarted = some completions) :
    s.unstarted = some completions ∨ action = .worker .dispatch ∧ s.worker.stopping = true ∧
      completions = s.worker.claimed.map Sys.release := by
  by_cases hd : action = .worker .dispatch
  · have hn := h.dispatch_fresh ho hd
    subst hd
    simp only [Sys.after] at hu
    split at hu
    · rename_i hst
      exact Or.inr ⟨rfl, hst, (Option.some.inj hu).symm⟩
    · exact Or.inl hu
  · exact Or.inl (Sys.unstarted_after hd ▸ hu)

theorem heard (ha : Allowed s action) (hm : (c, answer) ∈ s.heard o action) :
    c ∈ s.claimed ∧ (answer ≠ .failed → o.worker.db.Off c) := by
  have hinvalid : c ∈ s.claimed → s.valid c = false →
      c ∈ s.claimed ∧ (answer ≠ .failed → o.worker.db.Off c) := fun hc hv =>
    ⟨hc, fun _ => (Sys.off_of_invalid h.orphans.rows hv).later (later ho) (h.records.issued c hc)⟩
  unfold Sys.heard at hm
  split at hm
  · obtain ⟨c', hc', hv⟩ := List.mem_filterMap.mp hm
    obtain ⟨hv, he⟩ := Option.ite_none_left_eq_some.mp hv
    cases he
    obtain ⟨x, -, hx⟩ := List.mem_filterMap.mp hc'
    obtain ⟨a, hxa, rfl⟩ := Option.map_eq_some_iff.mp hx
    exact hinvalid (h.records.objects x a hxa) (by simpa using hv)
  · rename_i x
    obtain ⟨a, hx, he⟩ := Option.map_eq_some_iff.mp (Option.mem_toList.mp hm)
    cases he
    have hadm := ha.admits nofun
    simp only [Sys.admits, hx, Option.all_some, Bool.not_eq_true'] at hadm
    exact hinvalid (h.records.objects x a hx) hadm
  · split at hm
    · rename_i hn
      obtain ⟨c', hc', he⟩ := List.mem_map.mp hm
      cases he
      refine ⟨h.records.lost c hc', fun _ => ?_⟩
      obtain ⟨r, hr, hoff⟩ := h.facts.owed c hc'
      rcases hoff with howed | hoff
      · exact Orphans.reply_off h.orphans ho hr (Option.isNone_iff_eq_none.mp hn) howed
      · exact hoff.later (later ho) (h.records.issued c (h.records.lost c hc'))
    · cases hm
  · obtain ⟨c', hc', he⟩ := List.mem_map.mp hm
    cases he
    exact ⟨h.records.lost c hc', fun hne => absurd rfl hne⟩
  · cases hm

theorem records_after : Records (s.after action o) where
  issued c hc := by
    rcases List.mem_append.mp hc with hc | hc
    · exact Orphans.Sys.issued_step ho (h.records.issued c hc)
    · exact (h.flight.step ho).claimed c (Sys.mem_taken hc)
  objects x b hx := by
    refine List.mem_append_left _ ?_
    rcases Orphans.object_origin ho hx with ⟨a, ha, hn⟩ | ⟨-, -, -, hm⟩
    · rw [ofAttempt, hn.row, hn.token]
      exact h.records.objects x a ha
    · exact h.records.flight _ hm
  flight c hc := by
    rcases Orphans.claimed_origin ho hc with hm | ⟨⟨_, _, _, _, _, _, rfl⟩, -⟩
    · exact List.mem_append_left _ (h.records.flight c hm)
    · exact List.mem_append_right _ hc
  lost c hc := by
    refine List.mem_append_left _ ?_
    rcases Sys.mem_lost hc with ⟨-, hm⟩ | ⟨hm, -⟩
    · exact h.records.flight c hm
    · exact h.records.lost c hm
  unstarted completions hcs c hc := by
    rcases h.unstarted_origin ho hcs with hcs | ⟨-, -, rfl⟩
    · exact (h.records.unstarted _ hcs c hc).imp_left (List.mem_append_left _)
    · obtain ⟨row, hrow, rfl⟩ := List.mem_map.mp hc
      exact ⟨List.mem_append_left _ (h.records.flight row hrow), rfl⟩
  calls r call hr := List.mem_append_left _ (h.records.calls r call hr)

theorem facts_after (ha : Allowed s action) : Facts (s.after action o) where
  answers c answer hm := by
    rcases List.mem_append.mp hm with hm | hm
    · obtain ⟨hc, hoff⟩ := h.facts.answers c answer hm
      exact ⟨List.mem_append_left _ hc, fun hne => (hoff hne).later (later ho) (h.records.issued c hc)⟩
    · exact (h.heard ho ha hm).imp_left (List.mem_append_left _)
  responses writer applied hr := by
    obtain ⟨completions, hf, hoff⟩ := h.facts.responses writer applied hr
    refine ⟨completions, h.fenced_after ho hf, fun c hc => (hoff c hc).later (later ho) ?_⟩
    exact h.records.issued _ (h.fenced hf hc).1
  causes x b hx hcause := by
    rcases Orphans.object_origin ho hx with ⟨a, hxa, hn⟩ | ⟨-, -, hnone, -⟩
    · have hi := h.records.issued _ (h.records.objects x a hxa)
      rw [ofAttempt, hn.row, hn.token]
      refine Db.CancelSeen.later ?_ (later ho) hi
      rcases hn.cause with he | ⟨cause, hnone, he, w, rfl, hstops⟩
      · exact h.facts.causes x a hxa (he ▸ hcause)
      · cases he.symm.trans hcause
        cases w with
        | expire y => exact absurd hstops.2 nofun
        | stop y cause =>
            have hadm := ha.admits nofun
            obtain ⟨-, rfl⟩ := hstops
            cases hadm
        | renew clock leaseS due =>
            rcases Worker.Attempt.renewed_cases hstops.2 with ⟨he, -⟩ | ⟨-, t, ht, hc⟩
            · simp [Worker.Attempt.stop, hnone] at he
            · intro t' ht' htok
              cases ht'.symm.trans ht
              exact hc
        | _ => exact hstops.elim
    · rw [hnone] at hcause
      cases hcause
  calls r call hr hk :=
    (h.facts.calls r call hr hk).later (later ho) (h.records.issued _ (h.records.calls r call hr))
  owed c hc := by
    rcases Sys.mem_lost hc with ⟨rfl, hm⟩ | ⟨hm, hne⟩
    · exact Orphans.lose_owed h.orphans h.flight ho hm
    · obtain ⟨r, hr, hoff⟩ := h.facts.owed c hm
      rcases Orphans.release_step ho hr with ⟨r', hr', he⟩ | ⟨hn, -⟩
      · refine ⟨r', hr', ?_⟩
        rw [he]
        exact hoff.imp id fun hoff => hoff.later (later ho) (h.records.issued c (h.records.lost c hm))
      · exact absurd hn hne

theorem accounted_after (ha : Allowed s action) (hc : c ∈ (s.after action o).claimed) :
    (s.after action o).Accounted c := by
  rcases List.mem_append.mp hc with hc | hc
  swap
  · exact .inFlight (Sys.mem_taken hc)
  cases h.duties.accounted c hc with
  | inFlight hm =>
      rcases Orphans.claimed_step ho hm with hm | rfl | rfl | ⟨rfl, hst | ⟨x, a, hx, hp, he⟩⟩
      · exact .inFlight hm
      · exact .lost hm
      · -- the database has refused the claim
        have hadm := ha.admits nofun
        simp only [Sys.admits] at hadm
        split at hadm
        · rename_i hcall
          rw [Worker.Sys.claimed, hcall] at hm
          cases hm
        · cases hadm
      · exact .unstarted (if_pos hst) (List.mem_map.mpr ⟨Sys.release c, List.mem_map_of_mem hm, rfl⟩)
      · exact .running hx hp he
  | lost hm =>
      obtain ⟨r, hr, -⟩ := h.facts.owed c hm
      rcases Orphans.release_step ho hr with ⟨r', hr', -⟩ | ⟨hn, rfl | rfl⟩
      · refine .lost ?_
        have hl : action ≠ .lose := fun he => by
          subst he
          obtain ⟨hg, -⟩ := Option.ite_none_right_eq_some.mp ho
          rw [hr] at hg
          cases hg
        rw [Sys.lost_after hl, hr']
        exact hm
      · refine .settled (Or.inl ⟨.released, List.mem_append_right _ ?_⟩)
        simp [Sys.heard, hn, hm]
      · refine .settled (Or.inl ⟨.failed, List.mem_append_right _ ?_⟩)
        simp [Sys.heard, hm]
  | unstarted hu hm =>
      have hu : s.fenced .unstarted = some _ := hu
      exact .unstarted (h.fenced_after ho hu) hm
  | running hx hp he =>
      obtain ⟨b, hb, hn⟩ := Orphans.object_step ho hx
      rcases hn.runs hp with hb' | hf
      · exact .running hb hb' (by rw [ofAttempt, hn.row, hn.token]; exact he)
      · exact .settled (he ▸ (ha.finish _ _ hf hx).after)
  | settled hs => exact .settled hs.after

/-- An attempt that is stopped as lost was rejected, or got no renewal in time. -/
theorem lost_after (ha : Allowed s action) {x : Ref} {b : Worker.Attempt}
    (hx : o.worker.objects.get x = some b) (hcause : b.cause = some .lost) :
    (s.after action o).Settled (ofAttempt b) := by
  rcases Orphans.object_origin ho hx with ⟨a, hxa, hn⟩ | ⟨-, -, hnone, -⟩
  · rw [ofAttempt, hn.row, hn.token]
    rcases hn.cause with he | ⟨cause, hnone, he, w, rfl, hstops⟩
    · exact (h.duties.causes x a hxa (he ▸ hcause)).after
    · cases he.symm.trans hcause
      have hxa : s.worker.objects.get x = some a := hxa
      cases w with
      | expire y =>
          obtain ⟨rfl, -⟩ := hstops
          refine Or.inr (Or.inl (List.mem_append_right _ ?_))
          simp [Sys.gaveUp, hxa, hnone]
      | stop y cause =>
          obtain ⟨rfl, rfl⟩ := hstops
          refine Or.inl ⟨.rejected, List.mem_append_right _ ?_⟩
          simp [Sys.heard, hxa]
      | renew clock leaseS due =>
          obtain ⟨hd, hr⟩ := hstops
          rcases Worker.Attempt.renewed_cases hr with ⟨-, hv⟩ | ⟨he, -⟩
          · refine Or.inl ⟨.rejected, List.mem_append_right _ (List.mem_filterMap.mpr ⟨ofAttempt a, ?_, ?_⟩)⟩
            · exact List.mem_filterMap.mpr ⟨x, hd, by rw [hxa]; rfl⟩
            · exact if_neg (Bool.not_eq_true _ ▸ hv)
          · simp [Worker.Attempt.stop, hnone] at he
      | _ => exact hstops.elim
  · rw [hnone] at hcause
    cases hcause

theorem stage_after (hst : s.StageOk s.stage) : (s.after action o).StageOk s.stage := by
  refine hst.mono (fun hq => ?_) fun hq tasks hw x b hx hp => ?_
  · obtain ⟨hcall, hrel⟩ := Orphans.quiet_step ho hq.stopping hq.call hq.release
    refine ⟨(Orphans.stopping_step ho hq.stopping).1, hcall, hrel, ?_⟩
    by_contra hu
    obtain ⟨completions, hu⟩ := Option.ne_none_iff_exists'.mp hu
    rcases h.unstarted_origin ho hu with hu | ⟨rfl, -⟩
    · rw [hq.unstarted] at hu
      cases hu
    · obtain ⟨w, hw, -⟩ := Orphans.Sys.act_spec ho
      have hcall : s.orphans.worker.call = none := hq.call
      simp [Worker.Sys.step, hcall] at hw
  · rcases Orphans.object_origin ho hx with ⟨a, hxa, hn⟩ | ⟨-, -, -, hm⟩
    · exact hw x a hxa (hn.running hp)
    · have hm : _ ∈ s.worker.claimed := hm
      rw [Worker.Sys.claimed_of_call hq.call] at hm
      cases hm

theorem duties_after (ha : Allowed s action) : Duties (s.after action o) where
  accounted _ hc := h.accounted_after ho ha hc
  pending hu := by
    obtain ⟨completions, hu⟩ := Option.ne_none_iff_exists'.mp hu
    rcases h.unstarted_origin ho hu with hu | ⟨rfl, hst, -⟩
    · obtain ⟨hst, hcall⟩ := h.duties.pending (by rw [hu]; nofun)
      exact ⟨(Orphans.stopping_step ho hst).1, Orphans.call_step ho hst hcall⟩
    · refine ⟨(Orphans.stopping_step ho hst).1, ?_⟩
      obtain ⟨w, hw, -, -, rfl⟩ := Orphans.Sys.act_spec ho
      simp only [Worker.Sys.step] at hw
      split at hw
      · split at hw <;> cases hw <;> rfl
      · cases hw
  causes x b hx hcause := h.lost_after ho ha hx hcause
  waits x r hr := by
    obtain ⟨a, call, hx, hcall, he⟩ := h.duties.waits x r hr
    obtain ⟨b, hb, hn⟩ := Orphans.object_step ho hx
    exact ⟨b, call, hb, hcall, by rw [he, ofAttempt, ofAttempt, hn.row, hn.token]⟩
  results r hr y hy := by
    obtain ⟨answer, hm⟩ := h.duties.results r hr y hy
    exact ⟨answer, List.mem_append_left _ hm⟩
  stage := h.stage_after ho h.duties.stage

theorem after (hc : s.orphans.clean action = true) (ha : Allowed s action) : Inv (s.after action o) where
  orphans := h.orphans.step hc ho
  flight := h.flight.step ho
  completions := h.completions
  records := h.records_after ho
  facts := h.facts_after ho ha
  duties := h.duties_after ho ha

end Inv

end Shutdown

end Fronta
