import Fronta.Fencing.Lemmas.Batches
import Fronta.Fencing.System

/-!
# Where tokens come from and where they go

A statement stores only tokens that it issues, and an ended attempt's token is gone for good.
-/

namespace Fronta

open Sql

/-- A transition keeps the token, clears it, or is a claim that stores a new one. -/
theorem RowOp.apply_token {op : RowOp} {t t' : Row} {token : Token} (ha : op.apply t = some t')
    (ht : t'.token = some token) :
    t.token = some token ∨ ∃ now clock leaseS worker, op = .claim now clock leaseS worker token := by
  cases op <;>
    simp only [apply, Row.claim, Row.heartbeat, Row.setProgress, Row.complete, Row.requestCancel,
      Row.reap, Row.requeue, Option.ite_none_right_eq_some, Option.some.injEq] at ha <;>
    obtain ⟨-, rfl⟩ := ha <;> simp_all

namespace Fencing.Sys

variable {s s' : Sys} {op : Op} {id : TaskId} {t' : Row} {token : Token}

/-- A token in the table was there before or is one that the statement issues for this very row. -/
theorem exec_token {db : Db} (h : (db.exec op).tasks.get id = some t') (ht : t'.token = some token) :
    (∃ t, db.tasks.get id = some t ∧ t.token = some token) ∨
      ∃ now clock leaseS worker tokens ids, op = .claim now clock leaseS worker tokens ids ∧
        id ∈ ids ∧ token = tokens id := by
  cases Db.exec_origin h with
  | kept hk => exact Or.inl ⟨t', hk, ht⟩
  | moved hk hp ha =>
      rcases RowOp.apply_token ha ht with ht | ⟨now, clock, leaseS, worker, rfl⟩
      · exact Or.inl ⟨_, hk, ht⟩
      · cases op <;> simp only [Op.performs] at hp
        case claim now' clock' leaseS' worker' tokens ids =>
          obtain ⟨hi, he⟩ := hp
          cases he
          exact Or.inr ⟨_, _, _, _, tokens, ids, rfl, hi, rfl⟩
        all_goals simp at hp
  | inserted _ _ he => subst he; simp [Row.enqueued] at ht

theorem mem_tokensOf {now : Time} {clock : TaskId → Time} {leaseS : ℚ} {worker : Name}
    {tokens : TaskId → Token} {ids : List TaskId} (h : id ∈ ids) :
    tokens id ∈ tokensOf (.claim now clock leaseS worker tokens ids) :=
  List.mem_map.mpr ⟨id, List.mem_dedup.mpr h, rfl⟩

/-- The tokens of running rows, of the past and of the future are kept apart. -/
structure Inv (s : Sys) : Prop where
  rows : s.db.RowsOk
  issued_once : s.issued.Nodup
  issued : ∀ id t token, s.db.tasks.get id = some t → t.token = some token → token ∈ s.issued
  distinct : ∀ i j t u token, s.db.tasks.get i = some t → s.db.tasks.get j = some u →
    t.token = some token → u.token = some token → i = j
  ended_issued : ∀ token ∈ s.endings, token ∈ s.issued
  ended_gone : ∀ token ∈ s.endings, ∀ id t, s.db.tasks.get id = some t → t.token ≠ some token
  ended_once : s.endings.Nodup

theorem inv_init : init.Inv where
  rows := Db.rowsOk_init
  issued_once := List.nodup_nil
  issued := by intro id t token h; cases h
  distinct := by intro i j t u token h; cases h
  ended_issued := by simp [init]
  ended_gone := by simp [init]
  ended_once := List.nodup_nil

theorem mem_newEndings {db db' : Db}
    (h : token ∈ db.tasks.entries.filterMap fun x => endedBy x.2 (db'.tasks.get x.1)) :
    ∃ id t t', db.tasks.get id = some t ∧ t.token = some token ∧ db'.tasks.get id = some t' ∧
      t'.state ≠ .running := by
  obtain ⟨⟨id, t⟩, hx, he⟩ := List.mem_filterMap.mp h
  simp only [endedBy, Option.any_eq_true, decide_eq_true_eq, Option.ite_none_right_eq_some] at he
  obtain ⟨⟨-, t', ht', hs⟩, ht⟩ := he
  exact ⟨id, t, t', Table.mem_entries.mp hx, ht, ht', hs⟩

theorem Inv.execute (h : s.Inv) (hf : s.fresh op) : (s.execute op).Inv := by
  have hrows := h.rows.exec op
  have hnew := (List.nodup_append.mp hf).2.2
  -- A token that is new to the table was not issued before.
  have horigin : ∀ id t' token, (s.db.exec op).tasks.get id = some t' → t'.token = some token →
      (∃ t, s.db.tasks.get id = some t ∧ t.token = some token) ∨ token ∈ tokensOf op := by
    intro id t' token ht' htok
    rcases exec_token ht' htok with hold | ⟨_, _, _, _, tokens, ids, rfl, hi, rfl⟩
    · exact Or.inl hold
    · exact Or.inr (mem_tokensOf hi)
  have hended : ∀ token,
      token ∈ s.db.tasks.entries.filterMap
        (fun x => endedBy x.2 ((s.db.exec op).tasks.get x.1)) →
      token ∈ s.issued ∧ ∀ id t, (s.db.exec op).tasks.get id = some t → t.token ≠ some token := by
    intro token hm
    obtain ⟨id, t, t', ht, htok, ht', hs⟩ := mem_newEndings hm
    refine ⟨h.issued _ _ _ ht htok, ?_⟩
    intro j u hu hutok
    rcases horigin j u token hu hutok with ⟨v, hv, hvtok⟩ | hfresh
    · obtain rfl := h.distinct _ _ _ _ _ ht hv htok hvtok
      rw [ht', Option.some.injEq] at hu; subst hu
      exact hs ((hrows _ _ ht').running_token.mpr (by simp [hutok]))
    · exact hnew _ (h.issued _ _ _ ht htok) _ hfresh rfl
  refine ⟨hrows, hf, ?_, ?_, ?_, ?_, ?_⟩
  · intro id t' token ht' htok
    rcases horigin id t' token ht' htok with ⟨t, ht, hold⟩ | hfresh
    · exact List.mem_append_left _ (h.issued _ _ _ ht hold)
    · exact List.mem_append_right _ hfresh
  · intro i j t u token ht hu htt hut
    rcases exec_token ht htt with ⟨t₀, ht₀, htt₀⟩ | ⟨_, _, _, _, tokens, ids, rfl, hi, rfl⟩
    · rcases horigin j u token hu hut with ⟨u₀, hu₀, hut₀⟩ | hfresh
      · exact h.distinct _ _ _ _ _ ht₀ hu₀ htt₀ hut₀
      · exact absurd rfl (hnew _ (h.issued _ _ _ ht₀ htt₀) _ hfresh)
    · rcases exec_token hu hut with ⟨u₀, hu₀, hut₀⟩ | ⟨_, _, _, _, tokens', ids', heq, hj, htj⟩
      · exact absurd rfl (hnew _ (h.issued _ _ _ hu₀ hut₀) _ (mem_tokensOf hi))
      · cases heq
        have hinj := List.inj_on_of_nodup_map (List.nodup_append.mp hf).2.1
        exact hinj (List.mem_dedup.mpr hi) (List.mem_dedup.mpr hj) htj
  · intro token hm
    rcases List.mem_append.mp hm with hm | hm
    · exact List.mem_append_left _ (h.ended_issued _ hm)
    · exact List.mem_append_left _ (hended _ hm).1
  · intro token hm id t ht htok
    rcases List.mem_append.mp hm with hm | hm
    · rcases horigin id t token ht htok with ⟨t₀, ht₀, htt₀⟩ | hfresh
      · exact h.ended_gone _ hm _ _ ht₀ htt₀
      · exact hnew _ (h.ended_issued _ hm) _ hfresh rfl
    · exact (hended _ hm).2 _ _ ht htok
  · refine List.nodup_append.mpr ⟨h.ended_once, ?_, ?_⟩
    · refine List.pairwise_filterMap.mpr (s.db.tasks.entries_sorted.imp_of_mem ?_)
      rintro ⟨i, t⟩ ⟨j, u⟩ hi hj hlt token ht token' hu rfl
      have htok := (Option.ite_none_right_eq_some.mp ht).2
      have hutok := (Option.ite_none_right_eq_some.mp hu).2
      exact Nat.ne_of_lt hlt
        (h.distinct _ _ _ _ _ (Table.mem_entries.mp hi) (Table.mem_entries.mp hj) htok hutok)
    · rintro token hm token' hm' rfl
      obtain ⟨id, t, -, ht, htok, -⟩ := mem_newEndings hm'
      exact h.ended_gone _ hm _ _ ht htok

theorem Inv.with_writes (h : s.Inv) (writes : Table (List Completion)) :
    ({ s with writes := writes } : Sys).Inv :=
  ⟨h.rows, h.issued_once, h.issued, h.distinct, h.ended_issued, h.ended_gone, h.ended_once⟩

theorem Inv.step {a : Action} (h : s.Inv) (hs : s.step a = some s') : s'.Inv := by
  have hcomplete : ∀ now jitter cs, (s.execute (.complete now jitter cs)).Inv := fun _ _ _ =>
    h.execute (by simpa [fresh, tokensOf] using h.issued_once)
  cases a with
  | statement op =>
      obtain ⟨hf, he⟩ := Option.ite_none_right_eq_some.mp hs
      exact Option.some.inj he ▸ h.execute hf
  | submit completions => exact Option.some.inj hs ▸ h.with_writes _
  | attempt w outcome now jitter =>
      obtain ⟨completions, -, rfl⟩ := Option.map_eq_some_iff.mp hs
      cases outcome with
      | failed => exact h
      | lost => exact hcomplete _ _ _
      | answered => exact (hcomplete _ _ _).with_writes _
      | abandoned => exact h.with_writes _

theorem inv_of_reachable (h : Runs.Reachable Sys.step init s) : s.Inv :=
  h.invariant inv_init fun _ _ _ => Inv.step

theorem stale_of_not_valid (hn : ¬ s.Valid id token) : s.db.Stale id token :=
  fun t ht hr htok => hn ⟨t, ht, hr, htok⟩

end Fencing.Sys

end Fronta
