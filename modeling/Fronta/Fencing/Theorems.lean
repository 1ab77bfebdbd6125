import Fronta.Fencing.Lemmas.Tokens

/-!
# One outcome per execution token

The fence holds in every reachable state, whatever tries of a completion batch were lost after their
commit.
-/

namespace Fronta.Fencing

open Runs

variable {s : Sys}

/-- A row has at most one valid token and a token at most one row. At most one transition ends the
attempt of a token, and from then on its writes do nothing. A batch treats each row as if the row's
own entry had been executed alone. -/
theorem fenced_single_outcome (h : Reachable Sys.step Sys.init s) :
    (∀ id token token', s.Valid id token → s.Valid id token' → token = token') ∧
    (∀ id id' token, s.Valid id token → s.Valid id' token → id = id') ∧
    (∀ token, s.endings.count token ≤ 1) ∧
    (∀ token ∈ s.endings, ∀ id, ¬ s.Valid id token) ∧
    (∀ id token, ¬ s.Valid id token →
      (∀ c now jitter, c.id = id → c.token = token →
        s.db.complete now jitter [c] = .ok ([], s.db)) ∧
      (∀ clock leaseS, s.db.heartbeat clock leaseS [(id, token)] = s.db) ∧
      (∀ progress, s.db.setProgress id token progress = s.db)) ∧
    (∀ cs now jitter applied db', s.db.complete now jitter cs = .ok (applied, db') →
      (∀ c ∈ cs, ∃ alone dbAlone, s.db.complete now jitter [c] = .ok (alone, dbAlone) ∧
        db'.tasks.get c.id = dbAlone.tasks.get c.id ∧
        applied.filter (fun a => a.id = c.id) = alone ∧
        (s.db.eventsOf now applied).filter (fun e => e.taskId = c.id) = s.db.eventsOf now alone) ∧
      (∀ id, id ∉ cs.map Completion.id → db'.tasks.get id = s.db.tasks.get id ∧
        applied.filter (fun a => a.id = id) = [])) := by
  have hi := Sys.inv_of_reachable h
  refine ⟨?_, ?_, ?_, ?_, ?_, ?_⟩
  · rintro id token token' ⟨t, ht, -, htok⟩ ⟨u, hu, -, hutok⟩
    rw [ht, Option.some.injEq] at hu; subst hu
    exact Option.some.inj (htok.symm.trans hutok)
  · rintro id id' token ⟨t, ht, -, htok⟩ ⟨u, hu, -, hutok⟩
    exact hi.distinct _ _ _ _ _ ht hu htok hutok
  · exact fun token => List.nodup_iff_count_le_one.mp hi.ended_once token
  · rintro token hm id ⟨t, ht, -, htok⟩
    exact hi.ended_gone token hm id t ht htok
  · intro id token hn
    have hstale := Sys.stale_of_not_valid hn
    exact ⟨fun c now jitter hc ht => Db.complete_of_stale (hc ▸ ht ▸ hstale),
      fun clock leaseS => Db.heartbeat_of_stale hstale,
      fun progress => Db.setProgress_of_stale hstale⟩
  · intro cs now jitter applied db' hok
    exact ⟨fun c hc => Db.complete_alone hok hc, fun id hid => Db.complete_other hok hid⟩

/-- One task: its completion commits without a response, is repeated and then answered. -/
theorem fenced_single_outcome_lost_response :
    ∃ s, Reachable Sys.step Sys.init s ∧ s.endings = [7] ∧ ¬ s.Valid 1 7 := by
  let c : Completion := ⟨1, 7, .succeed, some "null", by simp⟩
  let run : List Sys.Action :=
    [.statement (.enqueue 0 { type := "t", inputJson := "{}", policy := default }),
      .statement (.claim 1 (fun _ => 1) 30 "w" (fun _ => 7) [1]),
      .submit [c], .attempt 1 .lost 2 (fun _ => 0), .attempt 1 .failed 3 (fun _ => 0),
      .attempt 1 .answered 4 (fun _ => 0)]
  have hrun : (Runs.run Sys.step Sys.init run).any (fun s => s.endings = [7]) = true := by
    decide +kernel
  obtain ⟨s, hs, he⟩ := Option.any_eq_true _ _ |>.mp hrun
  have he : s.endings = [7] := by simpa using he
  have hr : Reachable Sys.step Sys.init s := ⟨run, hs⟩
  exact ⟨s, hr, he, (fenced_single_outcome hr).2.2.2.1 7 (by simp [he]) 1⟩

end Fronta.Fencing
