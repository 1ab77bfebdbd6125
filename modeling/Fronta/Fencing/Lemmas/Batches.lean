import Fronta.Store.Lemmas.Statements

/-!
# Completion batches row by row

A batch decides every row on its own entry, and an entry that does not fit its row does nothing.
-/

namespace Fronta.Db

open Sql

variable {db : Db} {now : Time} {jitter : TaskId → ℚ} {id : TaskId} {t : Row}

theorem withEvents_none {f : TaskId → Row → Option Row} {p : Applied → Bool}
    (h : ∀ i t, db.tasks.get i = some t → f i t = none) : db.withEvents now f p = ([], db) := by
  have hr : db.applied f = [] := by rw [applied, Table.returning_eq_nil h, List.map_nil]
  simp [withEvents, hr, publish, eventsOf, Table.update_eq_self h]

theorem mem_notices {a : Applied} {e : Event} (h : e ∈ db.notices now a) : e.taskId = a.id := by
  obtain ⟨s, -, rfl⟩ := List.mem_map.mp h
  rfl

theorem eventsOf_filter (l : List Applied) (id : TaskId) :
    (db.eventsOf now l).filter (fun e => e.taskId = id) =
      db.eventsOf now (l.filter fun a => a.id = id) := by
  induction l with
  | nil => rfl
  | cons a l ih =>
      simp only [eventsOf, List.flatMap_cons, List.filter_append] at ih ⊢
      rw [ih]
      by_cases ha : a.id = id
      · rw [List.filter_cons_of_pos (by simpa using ha), List.flatMap_cons,
          List.filter_eq_self.mpr fun e he => by simp [mem_notices he, ha]]
      · rw [List.filter_cons_of_neg (by simpa using ha),
          List.filter_eq_nil_iff.mpr fun e he => by simp [mem_notices he, ha], List.nil_append]

theorem applied_filter (f : TaskId → Row → Option Row) (id : TaskId) :
    (db.applied f).filter (fun a => a.id = id) =
      (((db.tasks.get id).bind (f id)).map fun t => t.applied id).toList := by
  rw [applied, List.filter_map]
  have : (fun a : Applied => decide (a.id = id)) ∘ (fun x : TaskId × Row => x.2.applied x.1) =
      fun x => decide (x.1 = id) := rfl
  rw [this, Table.returning_filter]
  cases (db.tasks.get id).bind (f id) <;> rfl

/-! ## Single writes -/

/-- The row's current attempt does not run under this token. -/
def Stale (db : Db) (id : TaskId) (token : Token) : Prop :=
  ∀ t, db.tasks.get id = some t → t.state = .running → t.token ≠ some token

theorem complete_of_stale {c : Completion} (h : db.Stale c.id c.token) :
    db.complete now jitter [c] = .ok ([], db) := by
  have hn : db.applyOutcomes now jitter [c] = ([], db) := by
    refine withEvents_none fun i t ht => ?_
    simp only [Option.bind_eq_none_iff]
    intro c' hc'
    obtain ⟨hm, rfl, htok⟩ := outcomeOf_spec hc'
    rw [List.mem_singleton] at hm; subst hm
    simp only [Row.complete, ite_eq_right_iff, reduceCtorEq, imp_false, not_and]
    intro hr
    exact absurd htok (h t ht hr)
  simp [complete, hn]

theorem heartbeat_of_stale {clock : TaskId → Time} {leaseS : ℚ} {token : Token}
    (h : db.Stale id token) : db.heartbeat clock leaseS [(id, token)] = db := by
  have : db.tasks.update (fun i t => (List.find? (fun r => r.1 = i && t.token = some r.2)
      [(id, token)]).bind fun r => t.heartbeat (clock i) leaseS r.2) = db.tasks := by
    refine Table.update_eq_self fun i t ht => ?_
    simp only [Option.bind_eq_none_iff]
    rintro ⟨j, tok⟩ hr
    have hm := List.mem_of_find?_eq_some hr
    have hp := List.find?_some hr
    simp only [List.mem_singleton, Prod.mk.injEq] at hm
    simp only [Bool.and_eq_true, decide_eq_true_eq] at hp
    obtain ⟨rfl, rfl⟩ := hm
    obtain ⟨rfl, htok⟩ := hp
    simp only [Row.heartbeat, ite_eq_right_iff, reduceCtorEq, imp_false, not_and]
    intro hrun
    exact absurd htok (h t ht hrun)
  simp only [heartbeat, this]

theorem setProgress_of_stale {token : Token} {progress : Jsonb} (h : db.Stale id token) :
    db.setProgress id token progress = db := by
  have : db.tasks.update (fun i t => if i = id then t.setProgress token progress else none) =
      db.tasks := by
    refine Table.update_eq_self fun i t ht => ?_
    simp only [Row.setProgress, ite_eq_right_iff, reduceCtorEq, imp_false, not_and]
    rintro rfl hrun
    exact h t ht hrun
  simp only [setProgress, this]

/-! ## Batches -/

theorem outcomeOf_singleton {cs : List Completion} {c : Completion}
    (hn : (cs.map Completion.id).Nodup) (hc : c ∈ cs) (t : Row) :
    outcomeOf cs c.id t = outcomeOf [c] c.id t := by
  have huniq : ∀ c' ∈ cs, c'.id = c.id → c' = c := fun c' hc' he => List.inj_on_of_nodup_map hn hc' hc he
  cases h : outcomeOf cs c.id t with
  | some c' =>
      obtain ⟨hm, hid, htok⟩ := outcomeOf_spec h
      obtain rfl := huniq _ hm hid
      simp [outcomeOf, htok]
  | none =>
      have := List.find?_eq_none.mp h c hc
      simp only [decide_true, Bool.true_and, decide_eq_true_eq] at this
      simp [outcomeOf, this]

theorem outcomeOf_eq_none {cs : List Completion} (h : id ∉ cs.map Completion.id) (t : Row) :
    outcomeOf cs id t = none := by
  refine List.find?_eq_none.mpr fun c hc => ?_
  have : c.id ≠ id := fun he => h (List.mem_map.mpr ⟨c, hc, he⟩)
  simp [this]

/-- The outcome of an accepted batch: distinct ids, applied in one statement. -/
theorem complete_ok {cs : List Completion} {applied : List Applied} {db' : Db}
    (h : db.complete now jitter cs = .ok (applied, db')) :
    (cs.map Completion.id).Nodup ∧
      ((applied, db') = db.applyOutcomes now jitter cs ∨ cs = [] ∧ applied = [] ∧ db' = db) := by
  unfold complete at h
  split at h
  · rename_i hcs
    subst hcs
    simp only [Except.ok.injEq, Prod.mk.injEq] at h
    exact ⟨by simp, Or.inr ⟨rfl, h.1.symm, h.2.symm⟩⟩
  · split at h
    · cases h
    · rename_i hv
      simp only [not_or, not_not] at hv
      exact ⟨hv.2, Or.inl (Except.ok.inj h).symm⟩

theorem complete_singleton (c : Completion) :
    db.complete now jitter [c] = .ok (db.applyOutcomes now jitter [c]) := by
  simp [complete]

/-- Each row of a batch ends as if its own entry had been executed alone. -/
theorem complete_alone {cs : List Completion} {applied : List Applied} {db' : Db}
    (h : db.complete now jitter cs = .ok (applied, db')) {c : Completion} (hc : c ∈ cs) :
    ∃ alone dbAlone, db.complete now jitter [c] = .ok (alone, dbAlone) ∧
      db'.tasks.get c.id = dbAlone.tasks.get c.id ∧
      applied.filter (fun a => a.id = c.id) = alone ∧
      (db.eventsOf now applied).filter (fun e => e.taskId = c.id) = db.eventsOf now alone := by
  obtain ⟨hn, hok | ⟨rfl, -⟩⟩ := complete_ok h
  · refine ⟨_, _, complete_singleton c, ?_⟩
    simp only [Prod.ext_iff] at hok
    obtain ⟨rfl, rfl⟩ := hok
    have hrow : ∀ t, (outcomeOf cs c.id t).bind (fun c' => t.complete now (jitter c.id) c') =
        (outcomeOf [c] c.id t).bind fun c' => t.complete now (jitter c.id) c' :=
      fun t => by rw [outcomeOf_singleton hn hc]
    have hfilter : (db.applyOutcomes now jitter cs).1.filter (fun a => a.id = c.id) =
        (db.applyOutcomes now jitter [c]).1 := by
      have hall : (db.applyOutcomes now jitter [c]).1.filter (fun a => a.id = c.id) =
          (db.applyOutcomes now jitter [c]).1 := by
        refine List.filter_eq_self.mpr fun a ha => ?_
        obtain ⟨⟨i, t'⟩, hm, rfl⟩ := List.mem_map.mp ha
        obtain ⟨t, -, ht'⟩ := Table.mem_returning.mp hm
        obtain ⟨c', hc', -⟩ := Option.bind_eq_some_iff.mp ht'
        obtain ⟨hm', hid, -⟩ := outcomeOf_spec hc'
        simp only [List.mem_singleton] at hm'; subst hm'
        exact decide_eq_true hid.symm
      rw [← hall]
      simp only [applyOutcomes, withEvents, applied_filter, hrow]
    refine ⟨?_, hfilter, by rw [eventsOf_filter, hfilter]; rfl⟩
    simp only [applyOutcomes, withEvents_tasks, Table.get_update, hrow]
  · cases hc

theorem complete_other {cs : List Completion} {applied : List Applied} {db' : Db}
    (h : db.complete now jitter cs = .ok (applied, db')) (hid : id ∉ cs.map Completion.id) :
    db'.tasks.get id = db.tasks.get id ∧ applied.filter (fun a => a.id = id) = [] := by
  obtain ⟨-, hok | ⟨-, rfl, rfl⟩⟩ := complete_ok h
  · simp only [Prod.ext_iff] at hok
    obtain ⟨rfl, rfl⟩ := hok
    simp only [applyOutcomes, withEvents, applied_filter, Table.get_update,
      outcomeOf_eq_none hid]
    cases db.tasks.get id <;> simp
  · simp

end Fronta.Db
