import Fronta.Lease.System
import Fronta.Fencing.Lemmas.Tokens

/-!
# What a step does to the tables, to the calls and to an attempt
-/

namespace Fronta.Lease

open Sql
open Worker (Cause Ref)

variable {w : Env} {s s' : Sys} {action : Action} {x : Ref} {a a' : Attempt} {c : CallId} {call : Call}
  {refs : List Ref} {waiter : Waiter}

/-! ## Steps -/

/-- The steps with what each of them has checked. -/
inductive Steps (w : Env) (s : Sys) : Action → Sys → Prop
  | advance {t : Time} : s.clock ≤ t → Steps w s (.advance t) { s with clock := t }
  | statement {op : Op} : s.foreign op = true → s.respects op = true → s.store.fresh op →
      Steps w s (.statement op) { s with store := s.store.execute op }
  | claim : Steps w s .claim { s with claims := s.claims.insert ⟨s.monotonic w, none, true⟩ }
  | executeClaim {k : ClaimId} {now : Time} {clock : TaskId → Time} {worker : Name}
      {tokens : TaskId → Token} {ids : List TaskId} {issuedAt : Time} {waiting : Bool} {op : Op} :
      op = .claim now clock w.leaseS worker tokens ids →
      s.claims.get k = some ⟨issuedAt, none, waiting⟩ →
      (∀ i ∈ ids, issuedAt ≤ clock i + w.skew ∧ clock i ≤ s.clock) → s.respects op = true →
      s.store.fresh op →
      Steps w s (.executeClaim k now clock worker tokens ids)
        { s with
          store := s.store.execute op
          own := s.own ++ Fencing.Sys.tokensOf op
          claims := s.claims.modify k fun _ =>
            ⟨issuedAt, some ((s.store.db.claim now clock w.leaseS worker tokens ids).1.map
              fun a => (a.id, tokens a.id)), waiting⟩ }
  | dispatch {k : ClaimId} {issuedAt : Time} {rows : List (TaskId × Token)} :
      s.claims.get k = some ⟨issuedAt, some rows, true⟩ →
      Steps w s (.dispatch k) (rows.foldl (fun s row => s.startAttempt issuedAt row)
        { s with claims := s.claims.modify k fun c => { c with waiting := false } })
  | dropClaim {k : ClaimId} : Steps w s (.dropClaim k)
      { s with claims := s.claims.modify k fun c => { c with waiting := false } }
  | begin {x : Ref} {a : Attempt} : s.objects.get x = some a → a.phase = .created →
      Steps w s (.begin x) (s.begin w x a)
  | collect {due : List Ref} : s.loop = .idle → due.Perm (s.due w) →
      Steps w s (.collect due)
        { s with
          objects := s.objects.update fun x a =>
            if x ∈ due then some { a with renewRequested := false } else none
          loop := .sending due }
  | send {due : List Ref} : s.loop = .sending due → Steps w s .send (s.send w due)
  | stamp {c : CallId} {call : Call} {stamps : List (TaskId × Time)} {i : TaskId} :
      s.calls.get c = some call → call.status = .executing stamps → s.busy i = false →
      (∃ r ∈ call.sent, r.1 = i ∧ (s.held i r.2).isSome) →
      Steps w s (.stamp c i) (s.modifyCall c fun call =>
        { call with status := .executing (stamps ++ [(i, s.clock)]) })
  | commit {c : CallId} {call : Call} {stamps : List (TaskId × Time)} :
      s.calls.get c = some call → call.status = .executing stamps →
      (∀ r ∈ call.sent, s.held r.1 r.2 = none ∨ (stamps.lookup r.1).isSome) →
      Steps w s (.commit c)
        { s.modifyCall c fun call' => { call' with status := .committed (call.sent.filterMap fun r =>
            (s.held r.1 r.2).map fun t => (r.1, t.cancelRequestedAt)) } with
          store := s.store.execute
            (.heartbeat (fun i => (stamps.lookup i).getD 0) w.leaseS call.sent) }
  | fail {c : CallId} {call : Call} {stamps : List (TaskId × Time)} :
      s.calls.get c = some call → call.status = .executing stamps →
      Steps w s (.fail c) (s.modifyCall c fun call => { call with status := .failed })
  | reply {c : CallId} {call : Call} {beats : List (TaskId × Option Time)} :
      s.calls.get c = some call → call.status = .committed beats → call.waiting = true →
      Steps w s (.reply c)
        ({ s.modifyCall c fun call => { call with waiting := false } with
          objects := s.objects.update fun x a =>
            if x ∈ call.attempts then
              some (a.renewed call.started (s.monotonic w) (beats.lookup a.row))
            else none }.resume w true call.waiter)
  | giveUp {c : CallId} {call : Call} : s.calls.get c = some call → call.waiting = true →
      Steps w s (.giveUp c)
        ((s.modifyCall c fun call => { call with waiting := false }).resume w false call.waiter)
  | hint {i : TaskId} {x : Ref} : s.attempts.lookup i = some x →
      Steps w s (.hint i) (s.modify x fun a => { a with renewRequested := true })
  | miss {i : TaskId} : s.attempts.lookup i = none → Steps w s (.hint i) s
  | stored {x : Ref} {a : Attempt} {value : Jsonb} {op : Op} : op = .setProgress a.row a.token value →
      s.objects.get x = some a → s.respects op = true → s.store.fresh op →
      (s.held a.row a.token).isSome →
      Steps w s (.progress x value) { s with store := s.store.execute op }
  | refused {x : Ref} {a : Attempt} {value : Jsonb} {op : Op} : op = .setProgress a.row a.token value →
      s.objects.get x = some a → s.respects op = true → s.store.fresh op →
      s.held a.row a.token = none →
      Steps w s (.progress x value)
        ({ s with store := s.store.execute op }.modify x fun a => a.stop .lost)
  | stop {x : Ref} {cause : Cause} : cause = .timeout ∨ cause = .shutdown →
      Steps w s (.stop x cause) (s.modify x fun a => a.stop cause)
  | settle {x : Ref} {a : Attempt} : s.objects.get x = some a →
      a.phase = .running ∨ a.phase = .releasing →
      Steps w s (.settle x) (s.modify x fun a => { a with phase := .settled })
  | attemptDone {x : Ref} {a : Attempt} : s.objects.get x = some a → a.phase = .settled →
      Steps w s (.attemptDone x)
        { s.modify x fun a => { a with phase := .done } with attempts := s.attempts.erase a.row }

theorem execute_eq_some {op : Op} (h : s.execute op = some s') : s.respects op = true ∧
    s.store.fresh op ∧ s' = { s with store := s.store.execute op } := by
  obtain ⟨hr, h⟩ := Option.ite_none_right_eq_some.mp h
  obtain ⟨store, hst, rfl⟩ := Option.map_eq_some_iff.mp h
  obtain ⟨hf, hst⟩ := Option.ite_none_right_eq_some.mp hst
  cases hst
  exact ⟨hr, hf, rfl⟩

theorem steps_of_step (hs : s.step w action = some s') : Steps w s action s' := by
  cases action with
  | advance t =>
      obtain ⟨ht, hs⟩ := Option.ite_none_right_eq_some.mp hs
      cases hs; exact .advance ht
  | statement op =>
      obtain ⟨hf, hs⟩ := Option.ite_none_right_eq_some.mp hs
      obtain ⟨hr, hfresh, rfl⟩ := execute_eq_some hs
      exact .statement hf hr hfresh
  | claim => cases hs; exact .claim
  | executeClaim k now clock worker tokens ids =>
      simp only [Sys.step, Sys.executeClaim] at hs
      split at hs
      · rename_i issuedAt waiting hk
        obtain ⟨hb, hs⟩ := Option.ite_none_right_eq_some.mp hs
        obtain ⟨s₁, hs₁, rfl⟩ := Option.map_eq_some_iff.mp hs
        obtain ⟨hr, hfresh, rfl⟩ := execute_eq_some hs₁
        simp only [List.all_eq_true, Bool.and_eq_true, decide_eq_true_eq] at hb
        exact .executeClaim rfl hk hb hr hfresh
      · cases hs
  | dispatch k =>
      simp only [Sys.step] at hs
      split at hs
      · rename_i issuedAt rows hk
        cases hs; exact .dispatch hk
      · cases hs
  | dropClaim k => cases hs; exact .dropClaim
  | begin x =>
      obtain ⟨a, ha, hs⟩ := Option.bind_eq_some_iff.mp hs
      obtain ⟨hp, hs⟩ := Option.ite_none_right_eq_some.mp hs
      cases hs; exact .begin ha hp
  | collect due =>
      simp only [Sys.step] at hs
      split at hs
      · rename_i hl
        obtain ⟨hp, hs⟩ := Option.ite_none_right_eq_some.mp hs
        cases hs; exact .collect hl (List.isPerm_iff.mp hp)
      · cases hs
  | send =>
      simp only [Sys.step] at hs
      split at hs
      · rename_i due hl
        cases hs; exact .send hl
      · cases hs
  | stamp c i =>
      obtain ⟨call, hc, hs⟩ := Option.bind_eq_some_iff.mp hs
      split at hs
      · rename_i stamps hst
        obtain ⟨hg, hs⟩ := Option.ite_none_right_eq_some.mp hs
        simp only [Bool.and_eq_true, Bool.not_eq_true', List.any_eq_true, decide_eq_true_eq] at hg
        cases hs; exact .stamp hc hst hg.1 hg.2
      · cases hs
  | commit c =>
      obtain ⟨call, hc, hs⟩ := Option.bind_eq_some_iff.mp hs
      split at hs
      · rename_i stamps hst
        obtain ⟨hg, hs⟩ := Option.ite_none_right_eq_some.mp hs
        simp only [List.all_eq_true, Bool.or_eq_true, Option.isNone_iff_eq_none] at hg
        cases hs; exact .commit hc hst hg
      · cases hs
  | fail c =>
      obtain ⟨call, hc, hs⟩ := Option.bind_eq_some_iff.mp hs
      split at hs
      · rename_i stamps hst
        cases hs; exact .fail hc hst
      · cases hs
  | reply c =>
      obtain ⟨call, hc, hs⟩ := Option.bind_eq_some_iff.mp hs
      split at hs
      · rename_i beats hst
        obtain ⟨hw, hs⟩ := Option.ite_none_right_eq_some.mp hs
        cases hs; exact .reply hc hst hw
      · cases hs
  | giveUp c =>
      obtain ⟨call, hc, hs⟩ := Option.bind_eq_some_iff.mp hs
      obtain ⟨hw, hs⟩ := Option.ite_none_right_eq_some.mp hs
      cases hs; exact .giveUp hc hw
  | hint i =>
      cases hs
      cases hl : s.attempts.lookup i with
      | none => exact .miss hl
      | some x => exact .hint hl
  | progress x value =>
      obtain ⟨a, ha, hs⟩ := Option.bind_eq_some_iff.mp hs
      obtain ⟨s₁, hs₁, rfl⟩ := Option.map_eq_some_iff.mp hs
      obtain ⟨hr, hfresh, rfl⟩ := execute_eq_some hs₁
      split
      · rename_i hheld; exact .stored rfl ha hr hfresh hheld
      · rename_i hheld
        exact .refused rfl ha hr hfresh (Option.not_isSome_iff_eq_none.mp hheld)
  | stop x cause =>
      obtain ⟨hc, hs⟩ := Option.ite_none_right_eq_some.mp hs
      cases hs; exact .stop hc
  | settle x =>
      obtain ⟨a, ha, hs⟩ := Option.bind_eq_some_iff.mp hs
      obtain ⟨hp, hs⟩ := Option.ite_none_right_eq_some.mp hs
      cases hs; exact .settle ha hp
  | attemptDone x =>
      obtain ⟨a, ha, hs⟩ := Option.bind_eq_some_iff.mp hs
      obtain ⟨hp, hs⟩ := Option.ite_none_right_eq_some.mp hs
      cases hs; exact .attemptDone ha hp

/-! ## Attempts -/

/-- A change that renews nothing, starts nothing and is no cancellation. -/
structure Quiet (a a' : Attempt) : Prop where
  row : a'.row = a.row
  token : a'.token = a.token
  claimedAt : a'.claimedAt = a.claimedAt
  renewedAt : a'.renewedAt = a.renewedAt
  confirmed : a'.confirmed = a.confirmed
  started : a'.started = a.started
  cancel : a'.cause = some .cancel → a.cause = some .cancel

theorem Quiet.refl (a : Attempt) : Quiet a a := ⟨rfl, rfl, rfl, rfl, rfl, rfl, id⟩

theorem Quiet.trans {b : Attempt} (h : Quiet a b) (h' : Quiet b a') : Quiet a a' :=
  ⟨h'.row.trans h.row, h'.token.trans h.token, h'.claimedAt.trans h.claimedAt,
    h'.renewedAt.trans h.renewedAt, h'.confirmed.trans h.confirmed, h'.started.trans h.started,
    fun hc => h.cancel (h'.cancel hc)⟩

theorem quiet_stop {cause : Cause} (hc : cause ≠ .cancel) : Quiet a (a.stop cause) where
  row := rfl
  token := rfl
  claimedAt := rfl
  renewedAt := rfl
  confirmed := rfl
  started := rfl
  cancel h := by
    cases ha : a.cause with
    | none =>
        simp only [Attempt.stop, ha, Option.getD_none, Option.some.injEq] at h
        exact absurd h hc
    | some cause' => simpa [Attempt.stop, ha] using h

theorem quiet_phase (p : Phase) : Quiet a { a with phase := p } := ⟨rfl, rfl, rfl, rfl, rfl, rfl, id⟩

theorem quiet_request (r : Bool) : Quiet a { a with renewRequested := r } :=
  ⟨rfl, rfl, rfl, rfl, rfl, rfl, id⟩

/-- `_fresh_lease` starts the handler only where its call was answered and the cause is not LOST. -/
theorem refreshed_cases (now : Time) (isConfirmed : Bool) :
    Quiet a (a.refreshed now isConfirmed) ∨
      isConfirmed = true ∧ a.cause ≠ some .lost ∧ a.refreshed now isConfirmed = a.start now := by
  unfold Attempt.refreshed
  split
  · exact Or.inl (quiet_phase _)
  · rename_i hc
    split
    · rename_i hb; exact Or.inr ⟨hb, hc, rfl⟩
    · exact Or.inl (quiet_phase _)

theorem renewed_same (started now : Time) (beat : Option (Option Time)) :
    (a.renewed started now beat).row = a.row ∧ (a.renewed started now beat).token = a.token ∧
      (a.renewed started now beat).claimedAt = a.claimedAt ∧
      (a.renewed started now beat).started = a.started := by
  unfold Attempt.renewed
  split
  · exact ⟨rfl, rfl, rfl, rfl⟩
  · dsimp only
    split <;> exact ⟨rfl, rfl, rfl, rfl⟩

/-- An update that changes each attempt quietly or not at all. -/
theorem quiet_update {f : Ref → Attempt → Option Attempt}
    (hf : ∀ a b, f x a = some b → Quiet a b) (h : (s.objects.update f).get x = some a') :
    ∃ a, s.objects.get x = some a ∧ Quiet a a' := by
  obtain ⟨a, ha, ⟨-, rfl⟩ | hb⟩ := Table.get_update_cases h
  · exact ⟨a', ha, .refl _⟩
  · exact ⟨a, ha, hf _ _ hb⟩

theorem quiet_modify {f : Attempt → Attempt} (hf : ∀ a, Quiet a (f a)) {y : Ref}
    (h : (s.modify y f).objects.get x = some a') : ∃ a, s.objects.get x = some a ∧ Quiet a a' := by
  refine quiet_update (fun a b hb => ?_) h
  obtain ⟨-, hb⟩ := Option.ite_none_right_eq_some.mp hb
  exact Option.some.inj hb ▸ hf a

theorem quiet_sweep (h : (s.sweep w).objects.get x = some a') :
    ∃ a, s.objects.get x = some a ∧ Quiet a a' :=
  quiet_update (fun a b hb => by
    obtain ⟨-, hb⟩ := Option.ite_none_right_eq_some.mp hb
    exact Option.some.inj hb ▸ quiet_stop (by simp)) h

theorem quiet_renewAttempts (h : (s.renewAttempts w refs waiter).1.objects.get x = some a') :
    ∃ a, s.objects.get x = some a ∧ Quiet a a' := by
  have hu : ∀ a b : Attempt, (if x ∈ refs ∧ a.overdue w.leaseS (s.monotonic w) then
      some (a.stop .lost) else none) = some b → Quiet a b := fun a b hb => by
    obtain ⟨-, hb⟩ := Option.ite_none_right_eq_some.mp hb
    exact Option.some.inj hb ▸ quiet_stop (by simp)
  unfold Sys.renewAttempts at h
  dsimp only at h
  split at h <;> exact quiet_update hu h

theorem resume_cases {isConfirmed : Bool} (h : (s.resume w isConfirmed waiter).objects.get x = some a') :
    ∃ a, s.objects.get x = some a ∧ (Quiet a a' ∨ isConfirmed = true ∧ waiter = .attempt x ∧
      a.cause ≠ some .lost ∧ a' = a.start (s.monotonic w)) := by
  cases waiter with
  | loop rest =>
      obtain ⟨a, ha, hq⟩ := quiet_sweep h
      exact ⟨a, ha, Or.inl hq⟩
  | attempt y =>
      rcases Table.get_modify_cases h with ⟨-, ha⟩ | ⟨rfl, a, ha, rfl⟩
      · exact ⟨a', ha, Or.inl (.refl _)⟩
      · rcases refreshed_cases (s.monotonic w) isConfirmed with hq | ⟨hb, hc, he⟩
        · exact ⟨a, ha, Or.inl hq⟩
        · exact ⟨a, ha, Or.inr ⟨hb, rfl, hc, he⟩⟩

/-- What the reply to a call makes of an attempt, before whoever waited for the call goes on. -/
def Heard (w : Env) (s : Sys) (call : Call) (beats : List (TaskId × Option Time)) (x : Ref)
    (a b : Attempt) : Prop :=
  (x ∉ call.attempts ∧ b = a) ∨
    x ∈ call.attempts ∧ b = a.renewed call.started (s.monotonic w) (beats.lookup a.row)

/-- What a step makes of an attempt. -/
inductive Change (w : Env) (s : Sys) (x : Ref) (a : Attempt) : Action → Attempt → Prop
  | quiet {action : Action} {a' : Attempt} : Quiet a a' → Change w s x a action a'
  | start : a.phase = .created → s.monotonic w - a.claimedAt ≤ w.heartbeatS →
      Change w s x a (.begin x) (a.start (s.monotonic w))
  | reply {c : CallId} {call : Call} {beats : List (TaskId × Option Time)} {b a' : Attempt} :
      s.calls.get c = some call → call.status = .committed beats →
      call.waiting = true → Heard w s call beats x a b →
      (Quiet b a' ∨ call.waiter = .attempt x ∧ b.cause ≠ some .lost ∧ a' = b.start (s.monotonic w)) →
      Change w s x a (.reply c) a'

theorem Heard.same {call : Call} {beats : List (TaskId × Option Time)} {b : Attempt}
    (h : Heard w s call beats x a b) : b.row = a.row ∧ b.token = a.token ∧ b.claimedAt = a.claimedAt ∧
      b.started = a.started := by
  rcases h with ⟨-, rfl⟩ | ⟨-, rfl⟩
  · exact ⟨rfl, rfl, rfl, rfl⟩
  · exact renewed_same _ _ _

theorem Change.same (h : Change w s x a action a') :
    a'.row = a.row ∧ a'.token = a.token ∧ a'.claimedAt = a.claimedAt := by
  cases h with
  | quiet hq => exact ⟨hq.row, hq.token, hq.claimedAt⟩
  | start => exact ⟨rfl, rfl, rfl⟩
  | reply _ _ _ hh hq =>
      obtain ⟨hr, ht, hc, -⟩ := hh.same
      rcases hq with hq | ⟨-, -, rfl⟩
      · exact ⟨hq.row.trans hr, hq.token.trans ht, hq.claimedAt.trans hc⟩
      · exact ⟨hr, ht, hc⟩

/-- The row of a claim that gets its attempt, if the step dispatches one. -/
def Dispatched (s : Sys) (action : Action) (a : Attempt) : Prop :=
  ∃ k issuedAt rows row, action = .dispatch k ∧ s.claims.get k = some ⟨issuedAt, some rows, true⟩ ∧
    row ∈ rows ∧ a = { row := row.1, token := row.2, claimedAt := issuedAt, renewedAt := issuedAt }

theorem get_startAttempts {rows : List (TaskId × Token)} {issuedAt : Time}
    (h : (rows.foldl (fun s row => s.startAttempt issuedAt row) s).objects.get x = some a') :
    s.objects.get x = some a' ∨ s.objects.next ≤ x ∧ ∃ row ∈ rows,
      a' = { row := row.1, token := row.2, claimedAt := issuedAt, renewedAt := issuedAt } := by
  induction rows generalizing s with
  | nil => exact Or.inl h
  | cons row rows ih =>
      rcases ih h with h | ⟨hx, row', hr, he⟩
      · rcases Table.get_insert_cases h with ⟨rfl, rfl⟩ | h
        · exact Or.inr ⟨Nat.le_refl _, row, List.mem_cons_self, rfl⟩
        · exact Or.inl h
      · exact Or.inr ⟨(Nat.le_succ _).trans hx, row', List.mem_cons_of_mem _ hr, he⟩

theorem startAttempts_calls {rows : List (TaskId × Token)} {issuedAt : Time} :
    (rows.foldl (fun s row => s.startAttempt issuedAt row) s).calls = s.calls := by
  induction rows generalizing s with
  | nil => rfl
  | cons row rows ih => rw [List.foldl_cons, ih]; rfl

theorem attempt_step (hs : s.step w action = some s') (h : s'.objects.get x = some a') :
    (s.objects.next ≤ x ∧ Dispatched s action a') ∨
      ∃ a, s.objects.get x = some a ∧ Change w s x a action a' := by
  have hsame : ∀ {action}, s.objects.get x = some a' →
      (s.objects.next ≤ x ∧ Dispatched s action a') ∨
      ∃ a, s.objects.get x = some a ∧ Change w s x a action a' :=
    fun h => Or.inr ⟨a', h, .quiet (.refl _)⟩
  have hquiet : ∀ {action}, (∃ a, s.objects.get x = some a ∧ Quiet a a') →
      (s.objects.next ≤ x ∧ Dispatched s action a') ∨
      ∃ a, s.objects.get x = some a ∧ Change w s x a action a' :=
    fun ⟨a, ha, hq⟩ => Or.inr ⟨a, ha, .quiet hq⟩
  cases steps_of_step hs with
  | advance | statement | claim | executeClaim | dropClaim | stamp | commit | fail | miss | stored =>
      exact hsame h
  | @dispatch k issuedAt rows hk =>
      rcases get_startAttempts h with h | ⟨hx, row, hr, he⟩
      · exact hsame h
      · exact Or.inl ⟨hx, k, issuedAt, rows, row, rfl, hk, hr, he⟩
  | @begin y a ha hp =>
      unfold Sys.begin at h
      split at h
      · rename_i hfresh
        rcases Table.get_modify_cases h with ⟨-, h⟩ | ⟨rfl, b, hb, rfl⟩
        · exact hsame h
        · cases ha.symm.trans hb
          exact Or.inr ⟨a, ha, .start hp hfresh⟩
      · dsimp only at h
        split at h
        · obtain ⟨b, hb, hq⟩ := quiet_modify (fun a => quiet_phase _) h
          obtain ⟨b', hb', hq'⟩ := quiet_renewAttempts hb
          exact hquiet ⟨b', hb', hq'.trans hq⟩
        · obtain ⟨b, hb, hq | ⟨hf, -⟩⟩ := resume_cases h
          · obtain ⟨b', hb', hq'⟩ := quiet_renewAttempts hb
            exact hquiet ⟨b', hb', hq'.trans hq⟩
          · cases hf
  | collect =>
      refine hquiet (quiet_update (fun a b hb => ?_) h)
      obtain ⟨-, hb⟩ := Option.ite_none_right_eq_some.mp hb
      exact Option.some.inj hb ▸ quiet_request _
  | @send due hl =>
      cases due with
      | nil => exact hsame h
      | cons y due =>
          unfold Sys.send at h
          dsimp only at h
          split at h
          · exact hquiet (quiet_renewAttempts h)
          · obtain ⟨b, hb, hq | ⟨hf, -⟩⟩ := resume_cases h
            · obtain ⟨b', hb', hq'⟩ := quiet_renewAttempts hb
              exact hquiet ⟨b', hb', hq'.trans hq⟩
            · cases hf
  | @reply c call beats hc hst hw =>
      obtain ⟨b, hb, hq⟩ := resume_cases h
      obtain ⟨a, ha, ⟨hn, rfl⟩ | hr⟩ := Table.get_update_cases hb
      · refine Or.inr ⟨b, ha, .reply hc hst hw (Or.inl ⟨fun hx => ?_, rfl⟩) (hq.imp_right And.right)⟩
        rw [if_pos hx] at hn; cases hn
      · obtain ⟨hx, hr⟩ := Option.ite_none_right_eq_some.mp hr
        exact Or.inr ⟨a, ha, .reply hc hst hw (Or.inr ⟨hx, (Option.some.inj hr).symm⟩)
          (hq.imp_right And.right)⟩
  | giveUp =>
      obtain ⟨b, hb, hq | ⟨hf, -⟩⟩ := resume_cases h
      · exact hquiet ⟨b, hb, hq⟩
      · cases hf
  | hint => exact hquiet (quiet_modify (fun a => quiet_request _) h)
  | refused => exact hquiet (quiet_modify (fun a => quiet_stop (by simp)) h)
  | stop hc =>
      refine hquiet (quiet_modify (fun a => quiet_stop ?_) h)
      rcases hc with rfl | rfl <;> simp
  | settle => exact hquiet (quiet_modify (fun a => quiet_phase _) h)
  | attemptDone => exact hquiet (quiet_modify (fun a => quiet_phase _) h)

/-! ## Calls -/

/-- What a step makes of a call. -/
inductive Went (w : Env) (s : Sys) (c : CallId) (call : Call) : Action → Status → Prop
  | same {action : Action} {status : Status} : status = call.status → Went w s c call action status
  | stamped {stamps : List (TaskId × Time)} {i : TaskId} : call.status = .executing stamps →
      s.busy i = false → (∃ r ∈ call.sent, r.1 = i ∧ (s.held i r.2).isSome) →
      Went w s c call (.stamp c i) (.executing (stamps ++ [(i, s.clock)]))
  | committed {stamps : List (TaskId × Time)} : call.status = .executing stamps →
      Went w s c call (.commit c) (.committed (call.sent.filterMap fun r =>
        (s.held r.1 r.2).map fun t => (r.1, t.cancelRequestedAt)))
  | failed : Went w s c call (.fail c) .failed

/-- A step keeps what a call was made with. -/
structure Made (call call' : Call) : Prop where
  attempts : call'.attempts = call.attempts
  sent : call'.sent = call.sent
  started : call'.started = call.started
  waiter : call'.waiter = call.waiter

theorem Made.refl (call : Call) : Made call call := ⟨rfl, rfl, rfl, rfl⟩

@[simp] theorem resume_calls {isConfirmed : Bool} :
    (s.resume w isConfirmed waiter).calls = s.calls := by
  cases waiter <;> rfl

theorem get_renewAttempts_calls {call' : Call}
    (h : (s.renewAttempts w refs waiter).1.calls.get c = some call') :
    s.calls.get c = some call' ∨ s.live w refs ≠ [] ∧ s.calls.next ≤ c ∧
      call' = ⟨s.live w refs, s.renewals (s.live w refs), s.monotonic w, .executing [], waiter, true⟩ := by
  unfold Sys.renewAttempts at h
  dsimp only at h
  split at h
  · exact Or.inl h
  · rename_i he
    rcases Table.get_insert_cases h with ⟨rfl, rfl⟩ | h
    · exact Or.inr ⟨fun hn => he (by rw [hn]; rfl), Nat.le_refl _, rfl⟩
    · exact Or.inl h

/-- The list of attempts that an action hands to `_renew_attempts`, and who waits for the call. -/
inductive Renews (w : Env) (s : Sys) : Action → List Ref → Waiter → Prop
  | begin {x : Ref} {a : Attempt} : s.objects.get x = some a → a.phase = .created →
      w.heartbeatS < s.monotonic w - a.claimedAt → Renews w s (.begin x) [x] (.attempt x)
  | send {due : List Ref} : s.loop = .sending due → due ≠ [] →
      Renews w s .send (due.take 1000) (.loop (due.drop 1000))

theorem call_step {call' : Call} (hs : s.step w action = some s') (h : s'.calls.get c = some call') :
    (s.calls.next ≤ c ∧ ∃ refs waiter, Renews w s action refs waiter ∧ s.live w refs ≠ [] ∧
      call' = ⟨s.live w refs, s.renewals (s.live w refs), s.monotonic w, .executing [], waiter, true⟩) ∨
    ∃ call, s.calls.get c = some call ∧ Made call call' ∧ Went w s c call action call'.status := by
  have hsame : ∀ {action}, s.calls.get c = some call' →
      (s.calls.next ≤ c ∧ ∃ refs waiter, Renews w s action refs waiter ∧ s.live w refs ≠ [] ∧ call' =
        ⟨s.live w refs, s.renewals (s.live w refs), s.monotonic w, .executing [], waiter, true⟩) ∨
      ∃ call, s.calls.get c = some call ∧ Made call call' ∧ Went w s c call action call'.status :=
    fun h => Or.inr ⟨call', h, .refl _, .same rfl⟩
  have hrenew : ∀ {refs waiter}, (s.renewAttempts w refs waiter).1.calls.get c = some call' →
      Renews w s action refs waiter →
      (s.calls.next ≤ c ∧ ∃ refs waiter, Renews w s action refs waiter ∧ s.live w refs ≠ [] ∧ call' =
        ⟨s.live w refs, s.renewals (s.live w refs), s.monotonic w, .executing [], waiter, true⟩) ∨
      ∃ call, s.calls.get c = some call ∧ Made call call' ∧ Went w s c call action call'.status := by
    intro refs waiter h hr
    rcases get_renewAttempts_calls h with h | ⟨hn, hle, he⟩
    · exact hsame h
    · exact Or.inl ⟨hle, refs, waiter, hr, hn, he⟩
  cases steps_of_step hs with
  | begin ha hp =>
      unfold Sys.begin at h
      split at h
      · exact hsame h
      · rename_i hlate
        dsimp only at h
        refine hrenew ?_ (.begin ha hp (not_le.mp hlate))
        split at h
        · exact h
        · rw [resume_calls] at h; exact h
  | @send due hl =>
      cases due with
      | nil => exact hsame h
      | cons y due =>
          refine hrenew ?_ (.send hl (List.cons_ne_nil y due))
          unfold Sys.send at h
          dsimp only at h
          split at h
          · exact h
          · rw [resume_calls] at h; exact h
  | dispatch =>
      rw [startAttempts_calls] at h
      exact hsame h
  | @stamp c' call stamps i hc hst hfree hheld =>
      rcases Table.get_modify_cases h with ⟨-, h⟩ | ⟨rfl, call₀, hc₀, rfl⟩
      · exact hsame h
      · cases hc.symm.trans hc₀
        exact Or.inr ⟨call, hc, ⟨rfl, rfl, rfl, rfl⟩, .stamped hst hfree hheld⟩
  | @commit c' call stamps hc hst hguard =>
      rcases Table.get_modify_cases h with ⟨-, h⟩ | ⟨rfl, call₀, hc₀, rfl⟩
      · exact hsame h
      · cases hc.symm.trans hc₀
        exact Or.inr ⟨call, hc, ⟨rfl, rfl, rfl, rfl⟩, .committed hst⟩
  | fail =>
      rcases Table.get_modify_cases h with ⟨-, h⟩ | ⟨rfl, call₀, hc₀, rfl⟩
      · exact hsame h
      · exact Or.inr ⟨call₀, hc₀, ⟨rfl, rfl, rfl, rfl⟩, .failed⟩
  | reply =>
      rw [resume_calls] at h
      rcases Table.get_modify_cases h with ⟨-, h⟩ | ⟨rfl, call₀, hc₀, rfl⟩
      · exact hsame h
      · exact Or.inr ⟨call₀, hc₀, ⟨rfl, rfl, rfl, rfl⟩, .same rfl⟩
  | giveUp =>
      rw [resume_calls] at h
      rcases Table.get_modify_cases h with ⟨-, h⟩ | ⟨rfl, call₀, hc₀, rfl⟩
      · exact hsame h
      · exact Or.inr ⟨call₀, hc₀, ⟨rfl, rfl, rfl, rfl⟩, .same rfl⟩
  | _ => exact hsame h

theorem startAttempts_loop {rows : List (TaskId × Token)} {issuedAt : Time} :
    (rows.foldl (fun s row => s.startAttempt issuedAt row) s).loop = s.loop := by
  induction rows generalizing s with
  | nil => rfl
  | cons row rows ih => rw [List.foldl_cons, ih]; rfl

/-! ## Statements -/

/-- The statement that a step executes. -/
inductive Executes (w : Env) (s : Sys) : Action → Op → List Token → Prop
  | foreign {action : Action} {op : Op} : s.foreign op = true → s.respects op = true →
      s.store.fresh op → Executes w s action op s.own
  | claim {k : ClaimId} {now : Time} {clock : TaskId → Time} {worker : Name} {tokens : TaskId → Token}
      {ids : List TaskId} {issuedAt : Time} {waiting : Bool} :
      s.claims.get k = some ⟨issuedAt, none, waiting⟩ →
      (∀ i ∈ ids, issuedAt ≤ clock i + w.skew ∧ clock i ≤ s.clock) →
      s.respects (.claim now clock w.leaseS worker tokens ids) = true →
      s.store.fresh (.claim now clock w.leaseS worker tokens ids) →
      Executes w s (.executeClaim k now clock worker tokens ids)
        (.claim now clock w.leaseS worker tokens ids)
        (s.own ++ Fencing.Sys.tokensOf (.claim now clock w.leaseS worker tokens ids))
  | commit {c : CallId} {call : Call} {stamps : List (TaskId × Time)} : s.calls.get c = some call →
      call.status = .executing stamps →
      (∀ r ∈ call.sent, s.held r.1 r.2 = none ∨ (stamps.lookup r.1).isSome) →
      Executes w s (.commit c)
        (.heartbeat (fun i => (stamps.lookup i).getD 0) w.leaseS call.sent) s.own

theorem startAttempts_store {rows : List (TaskId × Token)} {issuedAt : Time} :
    (rows.foldl (fun s row => s.startAttempt issuedAt row) s).store = s.store ∧
      (rows.foldl (fun s row => s.startAttempt issuedAt row) s).own = s.own ∧
      (rows.foldl (fun s row => s.startAttempt issuedAt row) s).claims = s.claims ∧
      (rows.foldl (fun s row => s.startAttempt issuedAt row) s).clock = s.clock := by
  induction rows generalizing s with
  | nil => exact ⟨rfl, rfl, rfl, rfl⟩
  | cons row rows ih => rw [List.foldl_cons]; exact ih

theorem renewAttempts_rest (refs : List Ref) (waiter : Waiter) :
    (s.renewAttempts w refs waiter).1.store = s.store ∧
    (s.renewAttempts w refs waiter).1.own = s.own ∧
    (s.renewAttempts w refs waiter).1.claims = s.claims ∧
    (s.renewAttempts w refs waiter).1.clock = s.clock := by
  unfold Sys.renewAttempts
  dsimp only
  split <;> exact ⟨rfl, rfl, rfl, rfl⟩

theorem resume_rest {isConfirmed : Bool} : (s.resume w isConfirmed waiter).store = s.store ∧
    (s.resume w isConfirmed waiter).own = s.own ∧
    (s.resume w isConfirmed waiter).claims = s.claims ∧
    (s.resume w isConfirmed waiter).clock = s.clock := by
  cases waiter <;> exact ⟨rfl, rfl, rfl, rfl⟩

theorem begin_rest : (s.begin w x a).store = s.store ∧ (s.begin w x a).own = s.own ∧
    (s.begin w x a).claims = s.claims ∧ (s.begin w x a).clock = s.clock := by
  unfold Sys.begin
  dsimp only
  split
  · exact ⟨rfl, rfl, rfl, rfl⟩
  · have hr := @renewAttempts_rest w s [x] (.attempt x)
    split
    · exact hr
    · exact hr

theorem send_rest {due : List Ref} : (s.send w due).store = s.store ∧ (s.send w due).own = s.own ∧
    (s.send w due).claims = s.claims ∧ (s.send w due).clock = s.clock := by
  cases due with
  | nil => exact ⟨rfl, rfl, rfl, rfl⟩
  | cons y due =>
      unfold Sys.send
      dsimp only
      have hr := @renewAttempts_rest w s ((y :: due).take 1000) (.loop ((y :: due).drop 1000))
      split
      · exact hr
      · exact hr

/-- What a step does to everything but the calls and the attempts. -/
inductive Rest (w : Env) (s : Sys) : Action → Sys → Prop
  | same {action : Action} {s' : Sys} : s'.store = s.store → s'.own = s.own → s'.clock = s.clock →
      s'.claims = s.claims → Rest w s action s'
  | advance {t : Time} : s.clock ≤ t → Rest w s (.advance t) { s with clock := t }
  | executed {action : Action} {op : Op} {own : List Token} {s' : Sys} : Executes w s action op own →
      s'.store = s.store.execute op → s'.own = own → s'.clock = s.clock →
      (∀ k claim, s'.claims.get k = some claim → s.claims.get k = some claim ∨
        ∃ now clock worker tokens ids issuedAt waiting,
          action = .executeClaim k now clock worker tokens ids ∧
          s.claims.get k = some ⟨issuedAt, none, waiting⟩ ∧
          op = .claim now clock w.leaseS worker tokens ids ∧ own = s.own ++ Fencing.Sys.tokensOf op ∧
          (∀ i ∈ ids, issuedAt ≤ clock i + w.skew) ∧
          claim = ⟨issuedAt, some ((s.store.db.claim now clock w.leaseS worker tokens ids).1.map
            fun a => (a.id, tokens a.id)), waiting⟩) → Rest w s action s'
  | issue : Rest w s .claim { s with claims := s.claims.insert ⟨s.monotonic w, none, true⟩ }
  | answer {action : Action} {k : ClaimId} {s' : Sys} : s'.store = s.store → s'.own = s.own →
      s'.clock = s.clock → s'.claims = s.claims.modify k (fun c => { c with waiting := false }) →
      Rest w s action s'

theorem rest_step (hs : s.step w action = some s') : Rest w s action s' := by
  cases steps_of_step hs with
  | advance ht => exact .advance ht
  | statement hf hr hfresh =>
      exact .executed (.foreign hf hr hfresh) rfl rfl rfl fun k claim h => Or.inl h
  | claim => exact .issue
  | executeClaim he hk hb hr hfresh =>
      subst he
      refine .executed (.claim hk hb hr hfresh) rfl rfl rfl fun k' claim h => ?_
      rcases Table.get_modify_cases h with ⟨-, hold⟩ | ⟨rfl, -, -, rfl⟩
      · exact Or.inl hold
      · exact Or.inr ⟨_, _, _, _, _, _, _, rfl, hk, rfl, rfl, fun i hi => (hb i hi).1, rfl⟩
  | dispatch =>
      exact .answer startAttempts_store.1 startAttempts_store.2.1 startAttempts_store.2.2.2
        startAttempts_store.2.2.1
  | dropClaim => exact .answer rfl rfl rfl rfl
  | begin => exact .same begin_rest.1 begin_rest.2.1 begin_rest.2.2.2 begin_rest.2.2.1
  | send => exact .same send_rest.1 send_rest.2.1 send_rest.2.2.2 send_rest.2.2.1
  | commit hc hst hg =>
      exact .executed (.commit hc hst hg) rfl rfl rfl fun k claim h => Or.inl h
  | reply => exact .same resume_rest.1 resume_rest.2.1 resume_rest.2.2.2 resume_rest.2.2.1
  | giveUp => exact .same resume_rest.1 resume_rest.2.1 resume_rest.2.2.2 resume_rest.2.2.1
  | stored he _ hr hfresh =>
      exact .executed (.foreign (he ▸ rfl) hr hfresh) rfl rfl rfl fun k claim h => Or.inl h
  | refused he _ hr hfresh =>
      exact .executed (.foreign (he ▸ rfl) hr hfresh) rfl rfl rfl fun k claim h => Or.inl h
  | _ => exact .same rfl rfl rfl rfl

theorem startAttempts_next {rows : List (TaskId × Token)} {issuedAt : Time} :
    (rows.foldl (fun s row => s.startAttempt issuedAt row) s).objects.next =
      s.objects.next + rows.length := by
  induction rows generalizing s with
  | nil => rfl
  | cons row rows ih =>
      rw [List.foldl_cons, ih, List.length_cons, Nat.add_comm rows.length, ← Nat.add_assoc]
      rfl

theorem objects_next (hs : s.step w action = some s') : s.objects.next ≤ s'.objects.next := by
  have hrenew : ∀ {refs waiter}, (s.renewAttempts w refs waiter).1.objects.next = s.objects.next := by
    intro refs waiter
    unfold Sys.renewAttempts
    dsimp only
    split <;> rfl
  have hresume : ∀ {s : Sys} {b : Bool} {waiter : Waiter},
      (s.resume w b waiter).objects.next = s.objects.next := by
    intro s b waiter
    cases waiter <;> rfl
  cases steps_of_step hs with
  | dispatch =>
      rw [startAttempts_next]
      exact Nat.le_add_right _ _
  | begin =>
      unfold Sys.begin
      dsimp only
      split
      · exact le_rfl
      · split
        · exact hrenew.ge
        · rw [hresume]; exact hrenew.ge
  | @send due hl =>
      cases due with
      | nil => exact le_rfl
      | cons y due =>
          unfold Sys.send
          dsimp only
          split
          · exact hrenew.ge
          · rw [hresume]; exact hrenew.ge
  | reply => rw [hresume]; exact le_rfl
  | giveUp => rw [hresume]; exact le_rfl
  | _ => exact le_rfl

end Fronta.Lease
