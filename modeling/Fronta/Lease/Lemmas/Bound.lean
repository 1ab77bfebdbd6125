import Mathlib.Tactic.Linarith
import Fronta.Lease.Lemmas.Steps

/-!
# The lower bound of a lease

A row under one of the worker's tokens never loses lease time: whoever writes `lease_until` holds the row
from before the stamp until the commit, so later writes carry later stamps. What a claim or a renewal has
written therefore still holds when the worker learns of it, in whatever order it does.
-/

namespace Fronta

open Sql

/-- A transition that leaves a row running under a token kept the lease, renewed it under this token or
claimed the row. -/
theorem RowOp.apply_lease {op : RowOp} {t t' : Row} {token : Token} (ha : op.apply t = some t')
    (hr : t'.state = .running) (ht : t'.token = some token) :
    (t.state = .running ∧ t.token = some token ∧
      (t.cancelRequestedAt ≠ none → t'.cancelRequestedAt ≠ none) ∧
      (t'.leaseUntil = t.leaseUntil ∨ ∃ clock leaseS, op = .heartbeat clock leaseS token)) ∨
    ∃ now clock leaseS worker, op = .claim now clock leaseS worker token ∧
      t'.leaseUntil = some (clock + leaseS) := by
  cases op with
  | claim now clock leaseS worker token' =>
      obtain ⟨-, ha⟩ := Option.ite_none_right_eq_some.mp ha
      cases ha
      cases ht
      exact Or.inr ⟨now, clock, leaseS, worker, rfl, rfl⟩
  | heartbeat clock leaseS token' =>
      obtain ⟨⟨hr', ht'⟩, ha⟩ := Option.ite_none_right_eq_some.mp ha
      cases ha
      have he : token' = token := Option.some.inj (ht'.symm.trans ht)
      exact Or.inl ⟨hr', ht, id, Or.inr ⟨clock, leaseS, by rw [he]⟩⟩
  | setProgress token' progress =>
      obtain ⟨⟨hr', -⟩, ha⟩ := Option.ite_none_right_eq_some.mp ha
      cases ha
      exact Or.inl ⟨hr', ht, id, Or.inl rfl⟩
  | complete now jitter c =>
      obtain ⟨-, ha⟩ := Option.ite_none_right_eq_some.mp ha
      cases ha; cases ht
  | requestCancel now =>
      obtain ⟨-, ha⟩ := Option.ite_none_right_eq_some.mp ha
      cases ha
      refine Or.inl ⟨?_, ht, fun _ => by simp, Or.inl rfl⟩
      by_contra hq
      dsimp only at hr
      split at hr
      · cases hr
      · exact hq hr
  | reap now jitter =>
      obtain ⟨-, ha⟩ := Option.ite_none_right_eq_some.mp ha
      cases ha; cases ht
  | requeue now =>
      obtain ⟨-, ha⟩ := Option.ite_none_right_eq_some.mp ha
      cases ha; cases ht

/-- A running row after a statement. -/
theorem Db.exec_lease {db : Db} {op : Op} {i : TaskId} {t' : Row} {token : Token}
    (h : (db.exec op).tasks.get i = some t') (hr : t'.state = .running) (ht : t'.token = some token) :
    (∃ t, db.tasks.get i = some t ∧ t.state = .running ∧ t.token = some token ∧
      (t.cancelRequestedAt ≠ none → t'.cancelRequestedAt ≠ none) ∧
      (t'.leaseUntil = t.leaseUntil ∨
        ∃ clock leaseS renewals, op = .heartbeat clock leaseS renewals ∧ (i, token) ∈ renewals)) ∨
    ∃ now clock leaseS worker tokens ids, op = .claim now clock leaseS worker tokens ids ∧ i ∈ ids ∧
      token = tokens i ∧ t'.leaseUntil = some (clock i + leaseS) := by
  cases Db.exec_origin h with
  | kept hk => exact Or.inl ⟨t', hk, hr, ht, id, Or.inl rfl⟩
  | moved hk hp ha =>
      rcases RowOp.apply_lease ha hr ht with ⟨hr', ht', hc, hl⟩ | ⟨now, clock, leaseS, worker, rfl, hl⟩
      · refine Or.inl ⟨_, hk, hr', ht', hc, hl.imp_right ?_⟩
        rintro ⟨clock, leaseS, rfl⟩
        cases op <;> simp only [Op.performs] at hp
        case heartbeat clock' leaseS' renewals =>
          obtain ⟨token', hmem, he⟩ := hp
          cases he
          exact ⟨clock', leaseS, renewals, rfl, hmem⟩
        all_goals simp at hp
      · cases op <;> simp only [Op.performs] at hp
        case claim now' clock' leaseS' worker' tokens ids =>
          obtain ⟨hi, he⟩ := hp
          cases he
          exact Or.inr ⟨_, clock', _, _, tokens, ids, rfl, hi, rfl, hl⟩
        all_goals simp at hp
  | inserted _ _ he => subst he; cases hr

/-- A heartbeat stamps the rows that run under a sent token. -/
theorem Db.heartbeat_held {db : Db} {clock : TaskId → Time} {leaseS : ℚ}
    {renewals : List (TaskId × Token)} {i : TaskId} {t : Row} {token : Token}
    (h : db.tasks.get i = some t) (hr : t.state = .running) (ht : t.token = some token)
    (hmem : (i, token) ∈ renewals) :
    (db.heartbeat clock leaseS renewals).tasks.get i =
      some { t with leaseUntil := some (clock i + leaseS) } := by
  simp only [heartbeat, Table.get_update, h, Option.map_some, Option.some.injEq]
  have hfind : (renewals.find? fun r => r.1 = i && t.token = some r.2) = some (i, token) := by
    have hsome : (renewals.find? fun r => r.1 = i && t.token = some r.2).isSome :=
      List.find?_isSome.mpr ⟨_, hmem, by simp [ht]⟩
    obtain ⟨r, hr'⟩ := Option.isSome_iff_exists.mp hsome
    have hspec := List.find?_some hr'
    simp only [ht, Bool.and_eq_true, decide_eq_true_eq, Option.some.injEq] at hspec
    rw [hr', ← hspec.1, hspec.2]
  rw [hfind, Option.bind_some, Row.heartbeat, if_pos ⟨hr, ht⟩, Option.getD_some]

/-- It leaves the other rows as they are. -/
theorem Db.heartbeat_other {db : Db} {clock : TaskId → Time} {leaseS : ℚ}
    {renewals : List (TaskId × Token)} {i : TaskId}
    (h : ∀ t token, db.tasks.get i = some t → t.state = .running → t.token = some token →
      (i, token) ∉ renewals) :
    (db.heartbeat clock leaseS renewals).tasks.get i = db.tasks.get i := by
  rw [heartbeat, Table.get_update]
  cases ht : db.tasks.get i with
  | none => rfl
  | some t =>
      rw [Option.map_some]
      cases hb : (renewals.find? fun r => r.1 = i && t.token = some r.2).bind fun r =>
          t.heartbeat (clock i) leaseS r.2 with
      | none => rfl
      | some t' =>
          obtain ⟨r, hr, hb⟩ := Option.bind_eq_some_iff.mp hb
          obtain ⟨⟨hrun, htok⟩, -⟩ := Option.ite_none_right_eq_some.mp hb
          have hspec := List.find?_some hr
          simp only [Bool.and_eq_true, decide_eq_true_eq] at hspec
          exact absurd (hspec.1 ▸ List.mem_of_find?_eq_some hr) (h t r.2 ht hrun htok)

/-- A claim returns rows that it was to start. -/
theorem Db.mem_claimed {db : Db} {now : Time} {clock : TaskId → Time} {leaseS : ℚ} {worker : Name}
    {tokens : TaskId → Token} {ids : List TaskId} {a : Applied}
    (h : a ∈ (db.claim now clock leaseS worker tokens ids).1) : a.id ∈ ids := by
  obtain ⟨x, hx, rfl⟩ := List.mem_map.mp h
  obtain ⟨t, -, ht⟩ := Table.mem_returning.mp hx
  exact (Option.ite_none_right_eq_some.mp ht).1

namespace Lease

open Worker (Cause Ref)

variable {w : Env} {s s' : Sys} {action : Action} {i : TaskId} {token : Token} {t t' : Row} {l : Time}

theorem held_eq_some : s.held i token = some t ↔
    s.store.db.tasks.get i = some t ∧ t.state = .running ∧ t.token = some token := by
  rw [Sys.held, Option.filter_eq_some_iff, Bool.and_eq_true, decide_eq_true_eq, decide_eq_true_eq]

theorem mem_locked {call : Call} {stamps : List (TaskId × Time)} {τ : Time}
    (hst : call.status = .executing stamps) (h : (i, τ) ∈ stamps) : i ∈ call.locked := by
  rw [Call.locked, hst]
  exact List.mem_map_of_mem h

theorem mem_of_lookup {α : Type*} {stamps : List (TaskId × α)} {τ : α}
    (h : stamps.lookup i = some τ) : (i, τ) ∈ stamps := by
  obtain ⟨l₁, l₂, rfl, -⟩ := List.lookup_eq_some_iff.mp h
  simp

/-- While the row runs under the token, its lease does not end before `l`. -/
def Leased (s : Sys) (i : TaskId) (token : Token) (l : Time) : Prop :=
  ∀ t, s.held i token = some t → ∃ l', t.leaseUntil = some l' ∧ l ≤ l'

/-- What the worker's own bookkeeping rests on. -/
structure Core (w : Env) (s : Sys) : Prop where
  store : s.store.Inv
  own : ∀ token ∈ s.own, token ∈ s.store.issued
  claims : ∀ k claim rows, s.claims.get k = some claim → claim.rows = some rows →
    ∀ r ∈ rows, r.2 ∈ s.own
  attempts : ∀ x a, s.objects.get x = some a → a.token ∈ s.own
  sent : ∀ c call, s.calls.get c = some call → call.started ≤ s.monotonic w ∧
    ∀ r ∈ call.sent, r.2 ∈ s.own
  /-- No lease ends later than one that is stamped now. -/
  capped : ∀ i token t, s.held i token = some t → token ∈ s.own →
    ∃ l, t.leaseUntil = some l ∧ l ≤ s.clock + w.leaseS
  stamps : ∀ c call stamps i τ, s.calls.get c = some call → call.status = .executing stamps →
    (i, τ) ∈ stamps → τ ≤ s.clock ∧ call.started ≤ τ + w.skew ∧
      ∃ t l, s.store.db.tasks.get i = some t ∧ t.leaseUntil = some l ∧ l ≤ τ + w.leaseS
  apart : ∀ c c' call call' i, s.calls.get c = some call → s.calls.get c' = some call' →
    i ∈ call.locked → i ∈ call'.locked → c = c'

theorem clock_rest (hs : Rest w s action s') : s.clock ≤ s'.clock := by
  cases hs with
  | same _ _ hc => exact hc.ge
  | advance h => exact h
  | executed _ _ _ hc => exact hc.ge
  | issue => exact le_rfl
  | answer _ _ hc => exact hc.ge

theorem own_executes {op : Op} {own : List Token} (h : Executes w s action op own) :
    ∀ token ∈ s.own, token ∈ own := by
  cases h with
  | foreign => exact fun _ h => h
  | claim => exact fun _ h => List.mem_append_left _ h
  | commit => exact fun _ h => h

theorem own_rest (hs : Rest w s action s') : ∀ token ∈ s.own, token ∈ s'.own := by
  cases hs with
  | same _ ho => rw [ho]; exact fun _ h => h
  | advance => exact fun _ h => h
  | executed he _ ho => rw [ho]; exact own_executes he
  | issue => exact fun _ h => h
  | answer _ ho => rw [ho]; exact fun _ h => h

/-- A locked row is left as it is by every statement but the one that locks it. -/
theorem locked_respected {op : Op} {c : CallId} {call : Call} (h : s.respects op = true)
    (hc : s.calls.get c = some call) (hi : i ∈ call.locked) :
    (s.store.db.exec op).tasks.get i = s.store.db.tasks.get i := by
  have := List.all_eq_true.mp h _ (Table.mem_entries.mpr hc)
  exact of_decide_eq_true (List.all_eq_true.mp this i hi)

theorem locked_executes (h : Core w s) {op : Op} {own : List Token} {c : CallId} {call : Call}
    (he : Executes w s action op own) (hc : s.calls.get c = some call) (hi : i ∈ call.locked)
    (hne : action ≠ .commit c) : (s.store.db.exec op).tasks.get i = s.store.db.tasks.get i := by
  cases he with
  | foreign _ hr => exact locked_respected hr hc hi
  | claim _ _ hr => exact locked_respected hr hc hi
  | @commit c' call' stamps hc' hst hg =>
      refine Db.heartbeat_other fun t token ht hrun htok hmem => ?_
      have hlook : (stamps.lookup i).isSome := by
        rcases hg _ hmem with hn | hl
        · rw [held_eq_some.mpr ⟨ht, hrun, htok⟩] at hn; cases hn
        · exact hl
      obtain ⟨τ, hτ⟩ := Option.isSome_iff_exists.mp hlook
      have := h.apart c c' call call' i hc hc' hi (mem_locked hst (mem_of_lookup hτ))
      exact hne (by rw [this])

/-- A row that runs under a token of the worker after a step ran under it before, with its old lease or
with a later stamp of a renewal, or was claimed by this step. -/
theorem lease_executes (h : Core w s) {op : Op} {own : List Token} (he : Executes w s action op own)
    (ht : (s.store.db.exec op).tasks.get i = some t') (hrun : t'.state = .running)
    (htok : t'.token = some token) (hown : token ∈ own) :
    (∃ t, s.held i token = some t ∧ (t.cancelRequestedAt ≠ none → t'.cancelRequestedAt ≠ none) ∧
      (t'.leaseUntil = t.leaseUntil ∨
        ∃ c call τ l, action = .commit c ∧ s.calls.get c = some call ∧ τ ≤ s.clock ∧
          call.started ≤ τ + w.skew ∧ t.leaseUntil = some l ∧ l ≤ τ + w.leaseS ∧
          t'.leaseUntil = some (τ + w.leaseS))) ∨
    ∃ k now clock worker tokens ids issuedAt waiting,
      action = .executeClaim k now clock worker tokens ids ∧
      s.claims.get k = some ⟨issuedAt, none, waiting⟩ ∧ token = tokens i ∧ token ∉ s.own ∧
      issuedAt ≤ clock i + w.skew ∧ clock i ≤ s.clock ∧ t'.leaseUntil = some (clock i + w.leaseS) := by
  have hfresh : ∀ {tokens : List Token}, (s.store.issued ++ tokens).Nodup → token ∈ tokens →
      token ∉ s.own :=
    fun hn hmem ho => (List.nodup_append.mp hn).2.2 _ (h.own _ ho) _ hmem rfl
  rcases Db.exec_lease ht hrun htok with ⟨t, hg, hr, htk, hc, hl⟩ |
    ⟨now, clock, leaseS, worker, tokens, ids, rfl, hi, htk, hl⟩
  · refine Or.inl ⟨t, held_eq_some.mpr ⟨hg, hr, htk⟩, hc, ?_⟩
    rcases hl with hl | ⟨clock, leaseS, renewals, rfl, hmem⟩
    · exact Or.inl hl
    · cases he with
      | foreign hf =>
          have := List.all_eq_true.mp hf _ hmem
          simp only [Bool.not_eq_true', List.contains_eq_mem, decide_eq_false_iff_not] at this
          exact absurd hown this
      | @commit c call stamps hc' hst hguard =>
          have hlook : (stamps.lookup i).isSome := by
            rcases hguard _ hmem with hn | hlook
            · rw [held_eq_some.mpr ⟨hg, hr, htk⟩] at hn; cases hn
            · exact hlook
          obtain ⟨τ, hτ⟩ := Option.isSome_iff_exists.mp hlook
          obtain ⟨hle, hstart, t₁, l, ht₁, hl, hcap⟩ :=
            h.stamps c call stamps i τ hc' hst (mem_of_lookup hτ)
          cases hg.symm.trans ht₁
          refine Or.inr ⟨c, call, τ, l, rfl, hc', hle, hstart, hl, hcap, ?_⟩
          have hnew : (s.store.db.exec (.heartbeat (fun i => (stamps.lookup i).getD 0) w.leaseS
              call.sent)).tasks.get i = _ := Db.heartbeat_held hg hr htk hmem
          rw [hnew, Option.some.injEq] at ht
          rw [← ht, hτ]
          rfl
  · cases he with
    | foreign _ _ hn =>
        exact absurd hown (hfresh hn (htk ▸ Fencing.Sys.mem_tokensOf hi))
    | claim hk hb _ hn =>
        exact Or.inr ⟨_, _, _, _, _, _, _, _, rfl, hk, htk,
          hfresh hn (htk ▸ Fencing.Sys.mem_tokensOf hi), (hb i hi).1, (hb i hi).2, hl⟩

theorem held_congr (h : s'.store = s.store) : s'.held i token = s.held i token := by
  rw [Sys.held, Sys.held, h]

theorem monotonic_le (h : s.clock ≤ s'.clock) : s.monotonic w ≤ s'.monotonic w :=
  add_le_add_left h w.skew

theorem executes_fresh (h : Core w s) {op : Op} {own : List Token} (he : Executes w s action op own) :
    s.store.fresh op := by
  cases he with
  | foreign _ _ hf => exact hf
  | claim _ _ _ hf => exact hf
  | commit =>
      have := h.store.issued_once
      simpa [Fencing.Sys.fresh, Fencing.Sys.tokensOf] using this

theorem own_of_held (h : Core w s) {op : Op} {own : List Token} (he : Executes w s action op own)
    (ht : s.held i token = some t) (hown : token ∈ own) : token ∈ s.own := by
  cases he with
  | foreign => exact hown
  | claim _ _ _ hf =>
      refine (List.mem_append.mp hown).resolve_right fun hmem => ?_
      obtain ⟨hg, -, htk⟩ := held_eq_some.mp ht
      exact (List.nodup_append.mp hf).2.2 _ (h.store.issued i t token hg htk) _ hmem rfl
  | commit => exact hown

theorem core_init : Core w Sys.init where
  store := Fencing.Sys.inv_init
  own _ h := by cases h
  claims _ _ _ h := by cases h
  attempts _ _ h := by cases h
  sent _ _ h := by cases h
  capped _ _ _ h := by cases h
  stamps _ _ _ _ _ h := by cases h
  apart _ _ _ _ _ h := by cases h

theorem stamp_rest {c : CallId} (hs : s.step w (.stamp c i) = some s') :
    s'.store = s.store ∧ s'.clock = s.clock := by
  obtain ⟨call, -, hs⟩ := Option.bind_eq_some_iff.mp hs
  split at hs
  · obtain ⟨-, hs⟩ := Option.ite_none_right_eq_some.mp hs
    cases hs; exact ⟨rfl, rfl⟩
  · cases hs

section

variable (h : Core w s) (hs : s.step w action = some s')
include h hs

theorem Core.store_step : s'.store.Inv ∧ ∀ token ∈ s'.own, token ∈ s'.store.issued := by
  cases rest_step hs with
  | same hst ho => rw [hst, ho]; exact ⟨h.store, h.own⟩
  | advance => exact ⟨h.store, h.own⟩
  | @executed _ op own _ he hst ho =>
      rw [hst, ho]
      refine ⟨h.store.execute (executes_fresh h he), fun token ht => ?_⟩
      cases he with
      | foreign => exact List.mem_append_left _ (h.own _ ht)
      | claim =>
          rcases List.mem_append.mp ht with ht | ht
          · exact List.mem_append_left _ (h.own _ ht)
          · exact List.mem_append_right _ ht
      | commit => exact List.mem_append_left _ (h.own _ ht)
  | issue => exact ⟨h.store, h.own⟩
  | answer hst ho => rw [hst, ho]; exact ⟨h.store, h.own⟩

theorem Core.claims_step {k : ClaimId} {claim : Claim} {rows : List (TaskId × Token)}
    (hk : s'.claims.get k = some claim) (hr : claim.rows = some rows) :
    ∀ r ∈ rows, r.2 ∈ s'.own := by
  have hown := own_rest (rest_step hs)
  cases rest_step hs with
  | same _ _ _ hcl =>
      rw [hcl] at hk
      exact fun r hm => hown _ (h.claims k claim rows hk hr r hm)
  | advance => exact h.claims k claim rows hk hr
  | executed he _ ho _ hcl =>
      rcases hcl k claim hk with hk | ⟨now, clock, worker, tokens, ids, issuedAt, waiting, rfl, -, rfl, hown', -,
          rfl⟩
      · exact fun r hm => hown _ (h.claims k claim rows hk hr r hm)
      · cases hr
        intro r hm
        obtain ⟨a, ha, rfl⟩ := List.mem_map.mp hm
        rw [ho, hown']
        exact List.mem_append_right _ (Fencing.Sys.mem_tokensOf (Db.mem_claimed ha))
  | issue =>
      rcases Table.get_insert_cases hk with ⟨-, rfl⟩ | hk
      · cases hr
      · exact h.claims k claim rows hk hr
  | answer _ ho _ hcl =>
      rw [hcl] at hk
      rcases Table.get_modify_cases hk with ⟨-, hold⟩ | ⟨rfl, old, hold, rfl⟩
      · exact fun r hm => hown _ (h.claims k _ rows hold hr r hm)
      · exact fun r hm => hown _ (h.claims k _ rows hold hr r hm)

theorem Core.attempts_step {x : Ref} {a : Attempt} (ha : s'.objects.get x = some a) :
    a.token ∈ s'.own := by
  have hown := own_rest (rest_step hs)
  rcases attempt_step hs ha with ⟨-, k, issuedAt, rows, row, -, hk, hr, rfl⟩ | ⟨b, hb, hc⟩
  · exact hown _ (h.claims k _ rows hk rfl row hr)
  · rw [hc.same.2.1]
    exact hown _ (h.attempts x b hb)

theorem Core.sent_step {c : CallId} {call : Call} (hc : s'.calls.get c = some call) :
    call.started ≤ s'.monotonic w ∧ ∀ r ∈ call.sent, r.2 ∈ s'.own := by
  have hown := own_rest (rest_step hs)
  have hmono := monotonic_le (w := w) (clock_rest (rest_step hs))
  rcases call_step hs hc with ⟨-, refs, waiter, -, -, rfl⟩ | ⟨call₀, hc₀, hm, -⟩
  · refine ⟨hmono, fun r hr => ?_⟩
    obtain ⟨x, -, hr⟩ := List.mem_filterMap.mp hr
    obtain ⟨a, ha, rfl⟩ := Option.map_eq_some_iff.mp hr
    exact hown _ (h.attempts x a ha)
  · obtain ⟨h₁, h₂⟩ := h.sent c call₀ hc₀
    rw [hm.started, hm.sent]
    exact ⟨h₁.trans hmono, fun r hr => hown _ (h₂ r hr)⟩

theorem Core.capped_step (ht : s'.held i token = some t') (hown : token ∈ s'.own) :
    ∃ l, t'.leaseUntil = some l ∧ l ≤ s'.clock + w.leaseS := by
  have hclock := add_le_add_left (clock_rest (rest_step hs)) w.leaseS
  cases rest_step hs with
  | same hst ho =>
      obtain ⟨l, hl, hle⟩ := h.capped i token t' (held_congr hst ▸ ht) (ho ▸ hown)
      exact ⟨l, hl, hle.trans hclock⟩
  | advance =>
      obtain ⟨l, hl, hle⟩ := h.capped i token t' ht hown
      exact ⟨l, hl, hle.trans hclock⟩
  | executed he hst ho =>
      obtain ⟨hg, hr, htk⟩ := held_eq_some.mp ht
      rw [hst] at hg
      rw [ho] at hown
      rcases lease_executes h he hg hr htk hown with ⟨t, hheld, -, hl | ⟨c, call, τ, l, -, -, hτ, -, -, -, hl⟩⟩ |
        ⟨k, now, clock, worker, tokens, ids, issuedAt, waiting, -, -, -, -, -, hτ, hl⟩
      · obtain ⟨l, hl', hle⟩ := h.capped i token t hheld (own_of_held h he hheld hown)
        exact ⟨l, hl.trans hl', hle.trans hclock⟩
      · exact ⟨_, hl, (add_le_add_left hτ w.leaseS).trans hclock⟩
      · exact ⟨_, hl, (add_le_add_left hτ w.leaseS).trans hclock⟩
  | issue => exact h.capped i token t' ht hown
  | answer hst ho hc =>
      obtain ⟨l, hl, hle⟩ := h.capped i token t' (held_congr hst ▸ ht) (ho ▸ hown)
      exact ⟨l, hl, hle.trans hclock⟩

theorem Core.stamps_step {c : CallId} {call : Call} {stamps : List (TaskId × Time)} {τ : Time}
    (hc : s'.calls.get c = some call) (hst : call.status = .executing stamps) (hm : (i, τ) ∈ stamps) :
    τ ≤ s'.clock ∧ call.started ≤ τ + w.skew ∧
      ∃ t l, s'.store.db.tasks.get i = some t ∧ t.leaseUntil = some l ∧ l ≤ τ + w.leaseS := by
  have hclock := clock_rest (rest_step hs)
  rcases call_step hs hc with ⟨-, refs, waiter, -, -, rfl⟩ | ⟨call₀, hc₀, hmade, hw⟩
  · cases hst; cases hm
  rw [hmade.started]
  rw [hst] at hw
  cases hw with
  | same hsame =>
      obtain ⟨hle, hstart, t, l, ht, hl, hcap⟩ := h.stamps c call₀ stamps i τ hc₀ hsame.symm hm
      refine ⟨hle.trans hclock, hstart, t, l, ?_, hl, hcap⟩
      have hi : i ∈ call₀.locked := mem_locked hsame.symm hm
      cases rest_step hs with
      | same hst => rw [hst]; exact ht
      | advance => exact ht
      | executed he hstore =>
          rw [hstore]
          refine (locked_executes h he hc₀ hi fun hca => ?_).trans ht
          -- a call that commits executes no more
          subst hca
          obtain ⟨call₁, hc₁, hs₁⟩ := Option.bind_eq_some_iff.mp hs
          cases hc₀.symm.trans hc₁
          rw [← hsame] at hs₁
          obtain ⟨-, hs₁⟩ := Option.ite_none_right_eq_some.mp hs₁
          cases hs₁
          rw [show ({ s.modifyCall c _ with store := _ } : Sys).calls = _ from rfl] at hc
          simp only [Sys.modifyCall, Table.get_modify_self, hc₀, Option.map_some, Option.some.injEq] at hc
          rw [← hc] at hst
          cases hst
      | issue => exact ht
      | answer hst => rw [hst]; exact ht
  | @stamped stamps₀ j hst₀ hfree hheld =>
      obtain ⟨hstore, -⟩ := stamp_rest hs
      rw [hstore]
      rcases List.mem_append.mp hm with hm | hm
      · obtain ⟨hle, hstart, hrow⟩ := h.stamps c call₀ stamps₀ i τ hc₀ hst₀ hm
        exact ⟨hle.trans hclock, hstart, hrow⟩
      · rw [List.mem_singleton, Prod.mk.injEq] at hm
        obtain ⟨rfl, rfl⟩ := hm
        obtain ⟨⟨j, token⟩, hr, rfl, hj⟩ := hheld
        obtain ⟨t, ht⟩ := Option.isSome_iff_exists.mp hj
        obtain ⟨hstart, hsent⟩ := h.sent c call₀ hc₀
        obtain ⟨l, hl, hle⟩ := h.capped _ _ t ht (hsent _ hr)
        exact ⟨hclock, hstart, t, l, (held_eq_some.mp ht).1, hl, hle⟩

theorem Core.apart_step {c c' : CallId} {call call' : Call} (hc : s'.calls.get c = some call)
    (hc' : s'.calls.get c' = some call') (hi : i ∈ call.locked) (hi' : i ∈ call'.locked) : c = c' := by
  -- a locked row was locked before by the same call, or is free and locked now
  have hold : ∀ {c : CallId} {call : Call}, s'.calls.get c = some call → i ∈ call.locked →
      (∃ call₀, s.calls.get c = some call₀ ∧ i ∈ call₀.locked) ∨
        action = .stamp c i ∧ s.busy i = false := by
    intro c call hc hi
    rcases call_step hs hc with ⟨-, refs, waiter, -, -, rfl⟩ | ⟨call₀, hc₀, -, hw⟩
    · cases hi
    · unfold Call.locked at hi
      generalize hst : call.status = status at hi hw
      cases hw with
      | same hsame => exact Or.inl ⟨call₀, hc₀, by rw [hsame] at hi; exact hi⟩
      | @stamped stamps₀ j hst₀ hfree =>
          dsimp only at hi
          rw [List.map_append, List.mem_append] at hi
          rcases hi with hi | hi
          · exact Or.inl ⟨call₀, hc₀, by rw [Call.locked, hst₀]; exact hi⟩
          · rw [List.map_singleton, List.mem_singleton] at hi
            subst hi
            exact Or.inr ⟨rfl, hfree⟩
      | committed => cases hi
      | failed => cases hi
  have hbusy : ∀ {c : CallId} {call : Call}, s.calls.get c = some call → i ∈ call.locked →
      s.busy i = true := fun hc hi =>
    List.any_eq_true.mpr ⟨_, Table.mem_entries.mpr hc, by simpa using hi⟩
  rcases hold hc hi with ⟨call₀, h₀, hi₀⟩ | ⟨ha, hfree⟩ <;>
    rcases hold hc' hi' with ⟨call₁, h₁, hi₁⟩ | ⟨ha', hfree'⟩
  · exact h.apart c c' call₀ call₁ i h₀ h₁ hi₀ hi₁
  · rw [hbusy h₀ hi₀] at hfree'; cases hfree'
  · rw [hbusy h₁ hi₁] at hfree; cases hfree
  · rw [ha] at ha'
    cases ha'; rfl

theorem Core.step : Core w s' where
  store := (h.store_step hs).1
  own := (h.store_step hs).2
  claims _ _ _ hk hr := h.claims_step hs hk hr
  attempts _ _ ha := h.attempts_step hs ha
  sent _ _ hc := h.sent_step hs hc
  capped _ _ _ ht hown := h.capped_step hs ht hown
  stamps _ _ _ _ _ hc hst hm := h.stamps_step hs hc hst hm
  apart _ _ _ _ _ hc hc' hi hi' := h.apart_step hs hc hc' hi hi'

end

/-! ## What the worker may rely on -/

theorem Leased.step (h : Core w s) (hs : s.step w action = some s') (hown : token ∈ s.own)
    (hl : Leased s i token l) : Leased s' i token l := by
  intro t' ht'
  cases rest_step hs with
  | same hst => exact hl t' (held_congr hst ▸ ht')
  | advance => exact hl t' ht'
  | executed he hst =>
      obtain ⟨hg, hr, htk⟩ := held_eq_some.mp ht'
      rw [hst] at hg
      rcases lease_executes h he hg hr htk (own_executes he _ hown) with
        ⟨t, ht, -, hlt | ⟨c, call, τ, l₀, -, -, -, -, hl₀, hle, hlt⟩⟩ |
        ⟨k, now, clock, worker, tokens, ids, issuedAt, waiting, -, -, -, hn, -⟩
      · rw [hlt]; exact hl t ht
      · obtain ⟨l', hl', hle'⟩ := hl t ht
        rw [hl₀, Option.some.injEq] at hl'
        exact ⟨_, hlt, hle'.trans (hl' ▸ hle)⟩
      · exact absurd hown hn
  | issue => exact hl t' ht'
  | answer hst => exact hl t' (held_congr hst ▸ ht')

/-- The lease that a call or a claim of this time has written at least. -/
def Env.since (w : Env) (sent : Time) : Time := sent - w.skew + w.leaseS

/-- Claims and renewals have left what the worker concludes from their replies. -/
structure Bounded (w : Env) (s : Sys) : Prop where
  attempts : ∀ x a, s.objects.get x = some a → Leased s a.row a.token (w.since a.renewedAt)
  claims : ∀ k claim rows, s.claims.get k = some claim → claim.rows = some rows →
    ∀ r ∈ rows, Leased s r.1 r.2 (w.since claim.issuedAt)
  calls : ∀ c call beats, s.calls.get c = some call → call.status = .committed beats →
    ∀ r ∈ call.sent, Leased s r.1 r.2 (w.since call.started)
  sent : ∀ c call, s.calls.get c = some call → ∀ x ∈ call.attempts, x < s.objects.next ∧
    ∀ a, s.objects.get x = some a → (a.row, a.token) ∈ call.sent ∧ a.claimedAt ≤ call.started
  issued : (∀ k claim, s.claims.get k = some claim → claim.issuedAt ≤ s.monotonic w) ∧
    ∀ x a, s.objects.get x = some a → a.claimedAt ≤ s.monotonic w

theorem bounded_init : Bounded w Sys.init where
  attempts _ _ h := by cases h
  claims _ _ _ h := by cases h
  calls _ _ _ h := by cases h
  sent _ _ h := by cases h
  issued := ⟨(fun _ _ h => by cases h), fun _ _ h => by cases h⟩

/-- A committed heartbeat has stamped its rows after the call was made. -/
theorem leased_of_commit (h : Core w s) {c : CallId} {call : Call}
    (hs : s.step w (.commit c) = some s') (hc : s.calls.get c = some call) {r : TaskId × Token}
    (hr : r ∈ call.sent) : Leased s' r.1 r.2 (w.since call.started) := by
  intro t' ht'
  obtain ⟨hg', hrun', htok'⟩ := held_eq_some.mp ht'
  obtain ⟨call₁, hc₁, hs⟩ := Option.bind_eq_some_iff.mp hs
  cases hc.symm.trans hc₁
  split at hs
  · rename_i stamps hst
    obtain ⟨hguard, hs⟩ := Option.ite_none_right_eq_some.mp hs
    cases hs
    have hg' : (s.store.db.exec (.heartbeat (fun i => (stamps.lookup i).getD 0) w.leaseS
        call.sent)).tasks.get r.1 = some t' := hg'
    rcases Db.exec_lease hg' hrun' htok' with
      ⟨t, hg, hrun, htok, -⟩ | ⟨_, _, _, _, _, _, he, -⟩
    · have hlook := List.all_eq_true.mp hguard r hr
      rw [held_eq_some.mpr ⟨hg, hrun, htok⟩, Option.isNone_some, Bool.false_or] at hlook
      obtain ⟨τ, hτ⟩ := Option.isSome_iff_exists.mp hlook
      obtain ⟨-, hstart, -⟩ := h.stamps c call stamps r.1 τ hc hst (mem_of_lookup hτ)
      have he : some t' = _ := hg'.symm.trans (Db.heartbeat_held hg hrun htok hr)
      rw [Option.some.injEq] at he
      refine ⟨τ + w.leaseS, by rw [he, hτ]; rfl, ?_⟩
      simp only [Env.since]
      linarith only [hstart]
    · cases he
  · cases hs

section

variable (h : Core w s) (hb : Bounded w s) (hs : s.step w action = some s')
include h hb hs

theorem Bounded.attempts_step {x : Ref} {a : Attempt} (ha : s'.objects.get x = some a) :
    Leased s' a.row a.token (w.since a.renewedAt) := by
  rcases attempt_step hs ha with ⟨-, k, issuedAt, rows, row, -, hk, hr, rfl⟩ | ⟨b, hx, hc⟩
  · exact (hb.claims k _ rows hk rfl row hr).step h hs (h.claims k _ rows hk rfl row hr)
  · have hown := h.attempts x b hx
    have hl := (hb.attempts x b hx).step h hs hown
    obtain ⟨hrow, htok, -⟩ := hc.same
    rw [hrow, htok]
    cases hc with
    | quiet hq => rw [hq.renewedAt]; exact hl
    | start => exact hl
    | @reply c call beats b' a hc hst hw hh hq =>
        have hrenewed : a.renewedAt = b'.renewedAt := by
          rcases hq with hq | ⟨-, -, rfl⟩
          · exact hq.renewedAt
          · rfl
        rw [hrenewed]
        rcases hh with ⟨-, rfl⟩ | ⟨hx', rfl⟩
        · exact hl
        · cases hbeat : beats.lookup b.row with
          | none => exact hl
          | some flag =>
              obtain ⟨hsent, -⟩ := (hb.sent c call hc x hx').2 b hx
              have hcall := (hb.calls c call beats hc hst _ hsent).step h hs hown
              have he : (b.renewed call.started (s.monotonic w) (some flag)).renewedAt = call.started := by
                simp only [Attempt.renewed]
                split <;> rfl
              rw [he]
              exact hcall

theorem Bounded.claims_step {k : ClaimId} {claim : Claim} {rows : List (TaskId × Token)}
    (hk : s'.claims.get k = some claim) (hr : claim.rows = some rows) :
    ∀ r ∈ rows, Leased s' r.1 r.2 (w.since claim.issuedAt) := by
  have hold : ∀ {old : Claim}, s.claims.get k = some old → old.rows = some rows →
      ∀ r ∈ rows, Leased s' r.1 r.2 (w.since old.issuedAt) := fun hk hr r hm =>
    (hb.claims k _ rows hk hr r hm).step h hs (h.claims k _ rows hk hr r hm)
  cases rest_step hs with
  | same _ _ _ hcl => exact hold (hcl ▸ hk) hr
  | advance => exact hold hk hr
  | executed he hst ho _ hcl =>
      rcases hcl k claim hk with hk | ⟨now, clock, worker, tokens, ids, issuedAt, waiting, rfl, -, rfl, hown',
        hbound, rfl⟩
      · exact hold hk hr
      · cases hr
        intro r hm t' ht'
        obtain ⟨a, ha, rfl⟩ := List.mem_map.mp hm
        have hmem : tokens a.id ∈ Fencing.Sys.tokensOf (.claim now clock w.leaseS worker tokens ids) :=
          Fencing.Sys.mem_tokensOf (Db.mem_claimed ha)
        obtain ⟨hg, hrun, htok⟩ := held_eq_some.mp ht'
        rw [hst] at hg
        have hin := ho ▸ hown' ▸ List.mem_append_right s.own hmem
        rcases lease_executes h he hg hrun htok (ho ▸ hin) with ⟨t, ht, -⟩ |
          ⟨k, now', clock', worker', tokens', ids', issuedAt', waiting', ha', -, -, -, -, -, hl⟩
        · -- a new token was in no row
          obtain ⟨hg₀, -, htok₀⟩ := held_eq_some.mp ht
          exact absurd rfl ((List.nodup_append.mp (executes_fresh h he)).2.2 _
            (h.store.issued _ t _ hg₀ htok₀) _ hmem)
        · cases ha'
          refine ⟨_, hl, ?_⟩
          have := hbound a.id (Db.mem_claimed ha)
          simp only [Env.since]
          linarith only [this]
  | issue =>
      rcases Table.get_insert_cases hk with ⟨-, rfl⟩ | hk
      · cases hr
      · exact hold hk hr
  | answer _ _ _ hcl =>
      rw [hcl] at hk
      rcases Table.get_modify_cases hk with ⟨-, hold₀⟩ | ⟨rfl, old, hold₀, rfl⟩
      · exact hold hold₀ hr
      · have hkept := hold hold₀ hr
        exact hkept

theorem Bounded.calls_step {c : CallId} {call : Call} {beats : List (TaskId × Option Time)}
    (hc : s'.calls.get c = some call) (hst : call.status = .committed beats) :
    ∀ r ∈ call.sent, Leased s' r.1 r.2 (w.since call.started) := by
  rcases call_step hs hc with ⟨-, refs, waiter, -, -, rfl⟩ | ⟨call₀, hc₀, hmade, hw⟩
  · cases hst
  · rw [hmade.sent, hmade.started]
    intro r hr
    rw [hst] at hw
    cases hw with
    | same hsame =>
        exact (hb.calls c call₀ beats hc₀ hsame.symm r hr).step h hs ((h.sent c call₀ hc₀).2 r hr)
    | committed => exact leased_of_commit h hs hc₀ hr

omit h in
theorem Bounded.sent_step {c : CallId} {call : Call} (hc : s'.calls.get c = some call) :
    ∀ x ∈ call.attempts, x < s'.objects.next ∧
      ∀ a, s'.objects.get x = some a → (a.row, a.token) ∈ call.sent ∧ a.claimedAt ≤ call.started := by
  intro x hx
  have hnext := objects_next hs
  -- an attempt of the call was there before
  have hold : x < s.objects.next → ∀ a, s'.objects.get x = some a →
      ∃ b, s.objects.get x = some b ∧ a.row = b.row ∧ a.token = b.token ∧ a.claimedAt = b.claimedAt := by
    intro hlt a ha
    rcases attempt_step hs ha with ⟨hle, -⟩ | ⟨b, hb, hc⟩
    · exact absurd hlt (Nat.not_lt.mpr hle)
    · exact ⟨b, hb, hc.same⟩
  rcases call_step hs hc with ⟨-, refs, waiter, -, -, rfl⟩ | ⟨call₀, hc₀, hmade, -⟩
  · have hlive := (List.mem_filter.mp hx).2
    obtain ⟨b, hb', -⟩ := (Option.any_eq_true _ _).mp hlive
    refine ⟨(Table.lt_of_get hb').trans_le hnext, fun a ha => ?_⟩
    obtain ⟨b', hb₁, hr, ht, hcl⟩ := hold (Table.lt_of_get hb') a ha
    cases hb'.symm.trans hb₁
    rw [hr, ht, hcl]
    exact ⟨List.mem_filterMap.mpr ⟨x, hx, by rw [hb']; rfl⟩, hb.issued.2 x b hb'⟩
  · rw [hmade.attempts] at hx
    obtain ⟨hlt, hsent⟩ := hb.sent c call₀ hc₀ x hx
    refine ⟨hlt.trans_le hnext, fun a ha => ?_⟩
    obtain ⟨b, hb', hr, ht, hcl⟩ := hold hlt a ha
    rw [hr, ht, hcl, hmade.sent, hmade.started]
    exact hsent b hb'

omit h in
theorem Bounded.issued_step : (∀ k claim, s'.claims.get k = some claim →
      claim.issuedAt ≤ s'.monotonic w) ∧
    ∀ x a, s'.objects.get x = some a → a.claimedAt ≤ s'.monotonic w := by
  have hmono := monotonic_le (w := w) (clock_rest (rest_step hs))
  refine ⟨fun k claim hk => ?_, fun x a ha => ?_⟩
  · have hold : ∀ {old : Claim}, s.claims.get k = some old → old.issuedAt ≤ s'.monotonic w :=
      fun hk => (hb.issued.1 k _ hk).trans hmono
    cases rest_step hs with
    | same _ _ _ hcl => exact hold (hcl ▸ hk)
    | advance => exact hold hk
    | executed _ _ _ _ hcl =>
        rcases hcl k claim hk with hk | ⟨_, _, _, _, _, _, _, -, hk', -, -, -, rfl⟩
        · exact hold hk
        · exact (hb.issued.1 k _ hk').trans hmono
    | issue =>
        rcases Table.get_insert_cases hk with ⟨-, rfl⟩ | hk
        · exact le_rfl
        · exact hold hk
    | answer _ _ _ hcl =>
        rw [hcl] at hk
        rcases Table.get_modify_cases hk with ⟨-, hold₀⟩ | ⟨rfl, old, hold₀, rfl⟩
        · exact hold hold₀
        · have hkept := hold hold₀
          exact hkept
  · rcases attempt_step hs ha with ⟨-, k, issuedAt, rows, row, -, hk, -, rfl⟩ | ⟨b, hx, hc⟩
    · exact (hb.issued.1 k _ hk).trans hmono
    · rw [hc.same.2.2]
      exact (hb.issued.2 x b hx).trans hmono

end

theorem Bounded.step (h : Core w s) (hb : Bounded w s) (hs : s.step w action = some s') :
    Bounded w s' where
  attempts _ _ ha := hb.attempts_step h hs ha
  claims _ _ _ hk hr := hb.claims_step h hs hk hr
  calls _ _ _ hc hst := hb.calls_step h hs hc hst
  sent _ _ hc := hb.sent_step hs hc
  issued := hb.issued_step hs

end Lease

end Fronta
