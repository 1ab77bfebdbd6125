import Fronta.Fencing.Lemmas.Tokens
import Fronta.Orphans.System

/-!
# Pages of orphans

What a page chooses from its snapshot, and what it makes of the rows that still run under the tokens that
it saw.
-/

namespace Fronta

open Sql

theorem RowOp.apply_worker {op : RowOp} {t t' : Row} (ha : op.apply t = some t')
    (hc : op.isClaim = false) : t'.worker = t.worker := by
  cases op <;>
    simp only [apply, Row.claim, Row.heartbeat, Row.setProgress, Row.complete, Row.requestCancel,
      Row.reap, Row.requeue, Option.ite_none_right_eq_some, Option.some.injEq] at ha <;>
    obtain ⟨-, rfl⟩ := ha <;> first | rfl | cases hc

/-- A released row: queued again without a charge, or cancelled if a cancel was pending. -/
structure Row.Released (t t' : Row) : Prop where
  token : t'.token = none
  lease : t'.leaseUntil = none
  failures : t'.failures = t.failures
  attempt : t'.attempt = t.attempt
  queued : t.cancelRequestedAt = none → t'.state = .queued
  cancelled : t.cancelRequestedAt ≠ none → t'.state = .cancelled

theorem Row.released_of_complete {t t' : Row} {now jitter : ℚ} {c : Completion}
    (h : t.complete now jitter c = some t') (hk : c.kind = .release) : t.Released t' := by
  obtain ⟨-, h⟩ := Option.ite_none_right_eq_some.mp h
  cases h
  refine ⟨rfl, rfl, ?_, rfl, fun hc => ?_, fun hc => ?_⟩ <;> simp_all [Row.outcome]

namespace Db

variable {db : Db} {op : Op} {i : TaskId} {t t' : Row} {token : Token} {worker : Name}
  {live : List TaskId} {outcomes : List Completion} {now : Time} {jitter : TaskId → ℚ}

/-- A statement that does not issue the token finds it on the row, which belongs to the same worker. -/
theorem exec_same_token (hn : token ∉ Fencing.Sys.tokensOf op) (h : (db.exec op).tasks.get i = some t')
    (ht : t'.token = some token) :
    ∃ t, db.tasks.get i = some t ∧ t.token = some token ∧ t'.worker = t.worker := by
  cases exec_origin h with
  | kept hk => exact ⟨t', hk, ht, rfl⟩
  | @moved t move hk hp ha =>
      cases hc : move.isClaim with
      | false =>
          rcases RowOp.apply_token ha ht with ht₀ | ⟨now, clock, leaseS, worker, rfl⟩
          · exact ⟨t, hk, ht₀, RowOp.apply_worker ha hc⟩
          · cases hc
      | true =>
          cases move with
          | claim now clock leaseS worker token' =>
              obtain ⟨-, ha⟩ := Option.ite_none_right_eq_some.mp ha
              cases ha
              cases op <;> simp only [Op.performs] at hp
              case claim tokens ids =>
                obtain ⟨hi, he⟩ := hp
                cases he
                obtain rfl := Option.some.inj ht
                exact absurd (Fencing.Sys.mem_tokensOf hi) hn
              all_goals simp at hp
          | _ => cases hc
  | inserted _ _ he => subst he; simp [Row.enqueued] at ht

/-! ## The snapshot -/

theorem orphans_nodup : ((db.orphans worker live).map Completion.id).Nodup := by
  rw [List.Nodup, List.pairwise_map]
  refine List.Pairwise.filterMap (R := fun x y : TaskId × Row => x.1 < y.1) _ ?_ ?_
  · intro x y hxy c hc d hd
    obtain ⟨_, -, rfl⟩ := Option.map_eq_some_iff.mp hc
    obtain ⟨_, -, rfl⟩ := Option.map_eq_some_iff.mp hd
    exact Nat.ne_of_lt hxy
  · exact (db.tasks.entries_sorted.sublist List.filter_sublist).sublist (List.take_sublist _ _)

/-- A page that is not full has every orphan. -/
theorem mem_orphans_of_short (hok : db.RowsOk) (hs : (db.orphans worker live).length < 256)
    (ht : db.tasks.get i = some t) (hr : t.state = .running) (hw : t.worker = some worker)
    (hl : i ∉ live) (htok : t.token = some token) :
    ∃ c ∈ db.orphans worker live, c.id = i ∧ c.token = token := by
  unfold orphans at hs ⊢
  generalize hrows : (db.tasks.entries.filter fun x =>
    x.2.worker = some worker && x.2.state = .running && !live.contains x.1) = rows at hs ⊢
  have hall : ∀ x ∈ rows, (x.2.token.map fun token => (⟨x.1, token, .release, none, by simp⟩ :
      Completion)).isSome := by
    intro x hx
    rw [← hrows] at hx
    obtain ⟨hx, hp⟩ := List.mem_filter.mp hx
    simp only [Bool.and_eq_true, decide_eq_true_eq] at hp
    rw [Option.isSome_map]
    exact (hok _ _ (Table.mem_entries.mp hx)).running_token.mp hp.1.2
  have hlen : (rows.take 256).length < 256 := by
    rwa [List.length_filterMap_eq_countP, List.countP_eq_length.mpr] at hs
    exact fun x hx => hall x (List.mem_of_mem_take hx)
  have htake : rows.take 256 = rows := by
    refine List.take_of_length_le ?_
    rw [List.length_take] at hlen
    omega
  rw [htake]
  have hmem : (i, t) ∈ rows := by
    rw [← hrows]
    exact List.mem_filter.mpr ⟨Table.mem_entries.mpr ht, by simp [hr, hw, hl]⟩
  exact ⟨_, List.mem_filterMap.mpr ⟨(i, t), hmem, by rw [htok]; rfl⟩, rfl, rfl⟩

/-! ## The commit -/

/-- A row after a page: left as it was, or released under the token that the page saw. -/
theorem applyOutcomes_cases (h : (db.applyOutcomes now jitter outcomes).2.tasks.get i = some t') :
    db.tasks.get i = some t' ∨ ∃ t c, db.tasks.get i = some t ∧ c ∈ outcomes ∧ c.id = i ∧
      t.state = .running ∧ t.token = some c.token ∧ t.complete now (jitter i) c = some t' := by
  obtain ⟨t, ht, ⟨-, rfl⟩ | hs⟩ := Table.get_update_cases h
  · exact Or.inl ht
  · obtain ⟨c, hc, ha⟩ := Option.bind_eq_some_iff.mp hs
    obtain ⟨hm, hi, htok⟩ := outcomeOf_spec hc
    exact Or.inr ⟨t, c, ht, hm, hi, (Option.ite_none_right_eq_some.mp ha).1.1, htok, ha⟩

theorem outcomeOf_isSome {c : Completion} (hc : c ∈ outcomes) (hi : c.id = i)
    (ht : t.token = some c.token) : ∃ c', outcomeOf outcomes i t = some c' := by
  refine Option.isSome_iff_exists.mp (List.find?_isSome.mpr ⟨c, hc, ?_⟩)
  simp [hi, ht]

/-- A row that still runs under the token of an outcome loses it, unless that is a cancel which nobody
requested. -/
theorem token_applyOutcomes {c : Completion} (hok : db.RowsOk)
    (hk : ∀ c ∈ outcomes, c.kind = .cancel → ∀ t, db.tasks.get c.id = some t → t.token = some c.token →
      t.cancelRequestedAt ≠ none)
    (hc : c ∈ outcomes) (h : (db.applyOutcomes now jitter outcomes).2.tasks.get c.id = some t') :
    t'.token ≠ some c.token := by
  intro htok
  obtain ⟨t, ht, hs⟩ := Table.get_update_cases h
  rcases hs with ⟨hn, rfl⟩ | hs
  · obtain ⟨c', hc'⟩ := outcomeOf_isSome hc rfl htok
    obtain ⟨hm, hi, htok'⟩ := outcomeOf_spec hc'
    have hrun := (hok _ _ ht).running_token.mpr (by simp [htok])
    have hcancel := hk c' hm
    rw [hi] at hcancel
    have hkind : c'.kind = .cancel → t'.cancelRequestedAt ≠ none := fun hk => hcancel hk t' ht htok'
    simp [hc', Row.complete, hrun, htok', imp_iff_not_or.mp hkind] at hn
  · obtain ⟨c', -, ha⟩ := Option.bind_eq_some_iff.mp hs
    obtain ⟨-, ha⟩ := Option.ite_none_right_eq_some.mp ha
    cases ha
    cases htok

/-- A page returns all the rows that still run under their tokens. -/
theorem length_le_applyOutcomes (hk : ∀ c ∈ outcomes, c.kind = .release)
    (hd : (outcomes.map Completion.id).Nodup)
    (hr : ∀ c ∈ outcomes, ∃ t, db.tasks.get c.id = some t ∧ t.state = .running ∧
      t.token = some c.token) :
    outcomes.length ≤ (db.applyOutcomes now jitter outcomes).1.length := by
  have hsub : outcomes.map Completion.id ⊆
      (db.applyOutcomes now jitter outcomes).1.map Applied.id := by
    intro id hid
    obtain ⟨c, hc, rfl⟩ := List.mem_map.mp hid
    obtain ⟨t, ht, hrun, htok⟩ := hr c hc
    obtain ⟨c', hc'⟩ := outcomeOf_isSome hc rfl htok
    obtain ⟨hm, -, htok'⟩ := outcomeOf_spec hc'
    have ha : ∃ t', (outcomeOf outcomes c.id t).bind (fun c' => t.complete now (jitter c.id) c') =
        some t' := by
      rw [hc']
      simp [Row.complete, hrun, htok', hk c' hm]
    obtain ⟨t', ha⟩ := ha
    refine List.mem_map.mpr ⟨t'.applied c.id, ?_, rfl⟩
    exact List.mem_map.mpr ⟨(c.id, t'), Table.mem_returning.mpr ⟨t, ht, ha⟩, rfl⟩
  have := (List.subperm_of_subset hd hsub).length_le
  simpa using this

theorem RowsOk.applyOutcomes (h : db.RowsOk) : (db.applyOutcomes now jitter outcomes).2.RowsOk := by
  intro i t' ht'
  rcases applyOutcomes_cases ht' with ht | ⟨t, c, ht, -, -, -, -, ha⟩
  · exact h i t' ht
  · exact @RowOp.apply_lifecycle (.complete now (jitter i) c) t t' (h i t ht) ha

end Db

end Fronta
