import Fronta.Lease.Lemmas.Bound

/-!
# Cancellation

The flag of a row reaches an attempt only through the reply to a renewal, and a reply speaks of each
attempt under its own token. A row whose cancel was requested while it ran does not return to the queue.
-/

namespace Fronta

open Sql

/-- A transition of a running row whose cancel was requested leaves it running or ends the task. -/
theorem RowOp.apply_cancel_pending {op : RowOp} {t t' : Row} (hr : t.state = .running)
    (hc : t.cancelRequestedAt ≠ none) (ha : op.apply t = some t') :
    (t'.state = .running ∧ t'.token = t.token ∧ t'.cancelRequestedAt ≠ none) ∨
      t'.state.terminal = true := by
  cases op with
  | claim now clock leaseS worker token =>
      obtain ⟨hq, -⟩ := Option.ite_none_right_eq_some.mp ha
      rw [hr] at hq; cases hq
  | heartbeat clock leaseS token =>
      obtain ⟨-, ha⟩ := Option.ite_none_right_eq_some.mp ha
      cases ha; exact Or.inl ⟨hr, rfl, hc⟩
  | setProgress token progress =>
      obtain ⟨-, ha⟩ := Option.ite_none_right_eq_some.mp ha
      cases ha; exact Or.inl ⟨hr, rfl, hc⟩
  | complete now jitter c =>
      obtain ⟨-, ha⟩ := Option.ite_none_right_eq_some.mp ha
      cases ha
      refine Or.inr ?_
      cases hk : c.kind <;> simp [Row.outcome, hc, State.terminal]
  | requestCancel now =>
      obtain ⟨-, ha⟩ := Option.ite_none_right_eq_some.mp ha
      cases ha
      exact Or.inl ⟨by simp [hr], rfl, by simp⟩
  | reap now jitter =>
      obtain ⟨-, ha⟩ := Option.ite_none_right_eq_some.mp ha
      cases ha
      exact Or.inr (by simp [hc, State.terminal])
  | requeue now =>
      obtain ⟨hq, -⟩ := Option.ite_none_right_eq_some.mp ha
      rw [hr] at hq; simp at hq

theorem Db.exec_cancel_pending {db : Db} {op : Op} {i : TaskId} {t : Row}
    (h : db.tasks.get i = some t) (hr : t.state = .running) (hc : t.cancelRequestedAt ≠ none) :
    ∃ t', (db.exec op).tasks.get i = some t' ∧
      ((t'.state = .running ∧ t'.token = t.token ∧ t'.cancelRequestedAt ≠ none) ∨
        t'.state.terminal = true) := by
  cases ht' : (db.exec op).tasks.get i with
  | none =>
      obtain ⟨now, retentionS, batch, busy, -, hp⟩ := Db.exec_removed h ht'
      simp [Row.purgeable, hr, State.terminal] at hp
  | some t' =>
      refine ⟨t', rfl, ?_⟩
      cases Db.exec_origin ht' with
      | kept hk =>
          cases h.symm.trans hk
          exact Or.inl ⟨hr, rfl, hc⟩
      | moved hk _ ha =>
          cases h.symm.trans hk
          exact RowOp.apply_cancel_pending hr hc ha
      | inserted _ hi => exact absurd hi (Nat.ne_of_lt (Table.lt_of_get h))

/-- A `cancel` under the row's token is applied once the cancel was requested, and charges nothing. -/
theorem Db.complete_cancel {db db' : Db} {now : Time} {jitter : TaskId → ℚ} {cs : List Completion}
    {applied : List Applied} {c : Completion} {t : Row}
    (hok : db.complete now jitter cs = .ok (applied, db')) (hmem : c ∈ cs)
    (hk : c.kind = .cancel) (h : db.tasks.get c.id = some t) (hr : t.state = .running)
    (ht : t.token = some c.token) (hc : t.cancelRequestedAt ≠ none) :
    (∃ t', db'.tasks.get c.id = some t' ∧ t'.state = .cancelled ∧ t'.failures = t.failures) ∧
      ⟨c.id, t.type, .cancelled, t.attempt⟩ ∈ applied := by
  obtain ⟨alone, dbAlone, halone, hget, hfilter, -⟩ := Db.complete_alone hok hmem
  have hs : dbAlone = (db.applyOutcomes now jitter [c]).2 ∧
      alone = (db.applyOutcomes now jitter [c]).1 := by
    rw [Db.complete_singleton] at halone
    cases halone
    exact ⟨rfl, rfl⟩
  have hout : Db.outcomeOf [c] c.id t = some c := by simp [Db.outcomeOf, ht]
  have happly : ∃ t', t.complete now (jitter c.id) c = some t' ∧ t'.state = .cancelled ∧
      t'.failures = t.failures ∧ t'.type = t.type ∧ t'.attempt = t.attempt := by
    refine ⟨_, if_pos ⟨hr, ht, Or.inr hc⟩, ?_⟩
    simp [hk, Row.outcome]
  obtain ⟨t', happ, hstate, hfail, htype, hatt⟩ := happly
  constructor
  · refine ⟨t', ?_, hstate, hfail⟩
    rw [hget, hs.1, Db.applyOutcomes, Db.withEvents_tasks, Table.get_update, h, Option.map_some, hout,
      Option.bind_some, happ, Option.getD_some]
  · have hmem' : t'.applied c.id ∈ alone := by
      rw [hs.2]
      exact List.mem_map.mpr ⟨(c.id, t'), Table.mem_returning.mpr ⟨t, h, by rw [hout, Option.bind_some, happ]⟩,
        rfl⟩
    rw [← hfilter] at hmem'
    have := (List.mem_filter.mp hmem').1
    rwa [Row.applied, htype, hstate, hatt] at this

namespace Lease

open Runs
open Worker (Cause Ref)

variable {w : Env} {s s' : Sys} {action : Action} {actions : List Action} {i : TaskId} {token : Token}
  {x : Ref} {a a' : Attempt} {refs due rest : List Ref} {waiter : Waiter}

/-! ## One call, one attempt for each row -/

/-- Attempts of different rows. -/
structure Distinct (s : Sys) (refs : List Ref) : Prop where
  known : ∀ x ∈ refs, x < s.objects.next
  rows : refs.Pairwise fun x y => ∀ a b, s.objects.get x = some a → s.objects.get y = some b →
    a.row ≠ b.row

theorem Distinct.sublist {refs' : List Ref} (h : Distinct s refs) (hs : refs'.Sublist refs) :
    Distinct s refs' := ⟨fun x hx => h.known x (hs.subset hx), h.rows.sublist hs⟩

theorem Distinct.perm {refs' : List Ref} (h : Distinct s refs) (hp : refs'.Perm refs) :
    Distinct s refs' :=
  ⟨fun x hx => h.known x (hp.mem_iff.mp hx),
    hp.symm.pairwise h.rows fun hab a b ha hb he => hab b a hb ha he.symm⟩

theorem row_step (hs : s.step w action = some s') (hx : x < s.objects.next)
    (ha : s'.objects.get x = some a') :
    ∃ a, s.objects.get x = some a ∧ a'.row = a.row ∧ a'.token = a.token := by
  rcases attempt_step hs ha with ⟨hle, -⟩ | ⟨a, hx', hc⟩
  · exact absurd hx (Nat.not_lt.mpr hle)
  · exact ⟨a, hx', hc.same.1, hc.same.2.1⟩

theorem Distinct.step (h : Distinct s refs) (hs : s.step w action = some s') : Distinct s' refs where
  known x hx := (h.known x hx).trans_le (objects_next hs)
  rows := by
    refine h.rows.imp_of_mem fun {x y} hx hy hxy a b ha hb he => ?_
    obtain ⟨a₀, ha₀, hra, -⟩ := row_step hs (h.known x hx) ha
    obtain ⟨b₀, hb₀, hrb, -⟩ := row_step hs (h.known y hy) hb
    exact hxy a₀ b₀ ha₀ hb₀ (hra.symm.trans (he.trans hrb))

theorem Distinct.renewals (h : Distinct s refs) : ((s.renewals refs).map Prod.fst).Nodup := by
  rw [Sys.renewals, List.Nodup, List.pairwise_map]
  refine List.Pairwise.filterMap _ ?_ h.rows
  intro x y hxy r hr r' hr'
  obtain ⟨a, ha, rfl⟩ := Option.map_eq_some_iff.mp hr
  obtain ⟨b, hb, rfl⟩ := Option.map_eq_some_iff.mp hr'
  exact hxy a b ha hb

/-- The map knows each attempt by its row, and the lists of the renewal loop stem from it. -/
structure Keyed (s : Sys) : Prop where
  map : ∀ r x, s.attempts.lookup r = some x →
    x < s.objects.next ∧ ∀ a, s.objects.get x = some a → a.row = r
  loop : ∀ due, s.loop = .sending due → Distinct s due
  calls : ∀ c call, s.calls.get c = some call → (call.sent.map Prod.fst).Nodup ∧
    ∀ rest, call.waiter = .loop rest → Distinct s rest

theorem keyed_init : Keyed Sys.init :=
  ⟨(fun _ _ h => by cases h), (fun _ h => by cases h), fun _ _ h => by cases h⟩

theorem Keyed.mapped (h : Keyed s) : Distinct s s.mapped where
  known x hx := by
    obtain ⟨⟨r, y⟩, he, rfl⟩ := List.mem_map.mp hx
    exact (h.map r y (List.mem_dlookup_iff s.attempts.nodupKeys |>.mpr he)).1
  rows := by
    rw [Sys.mapped, List.pairwise_map]
    refine (List.nodupKeys_iff_pairwise.mp s.attempts.nodupKeys).imp_of_mem ?_
    rintro ⟨r, x⟩ ⟨r', y⟩ hx hy hne a b ha hb he
    have hr := (h.map r x (List.mem_dlookup_iff s.attempts.nodupKeys |>.mpr hx)).2 a ha
    have hr' := (h.map r' y (List.mem_dlookup_iff s.attempts.nodupKeys |>.mpr hy)).2 b hb
    exact hne (by rw [← hr, ← hr', he])

theorem lookup_startAttempts {rows : List (TaskId × Token)} {issuedAt : Time} {r : TaskId}
    (h : (rows.foldl (fun s row => s.startAttempt issuedAt row) s).attempts.lookup r = some x) :
    s.attempts.lookup r = some x ∨
      x < (rows.foldl (fun s row => s.startAttempt issuedAt row) s).objects.next ∧
      ∀ a, (rows.foldl (fun s row => s.startAttempt issuedAt row) s).objects.get x = some a →
        a.row = r := by
  induction rows generalizing s with
  | nil => exact Or.inl h
  | cons row rows ih =>
      rcases ih h with h | h
      · by_cases hr : r = row.1
        · subst hr
          have h : (s.attempts.insert row.1 s.objects.next).lookup row.1 = some x := h
          rw [AList.lookup_insert, Option.some.injEq] at h
          subst h
          have hlt : s.objects.next < (s.startAttempt issuedAt row).objects.next := Nat.lt_succ_self _
          refine Or.inr ⟨?_, fun a ha => ?_⟩
          · rw [List.foldl_cons, startAttempts_next]
            exact hlt.trans_le (Nat.le_add_right _ _)
          · rw [List.foldl_cons] at ha
            rcases get_startAttempts ha with ha | ⟨hle, -⟩
            · have hnew : (s.startAttempt issuedAt row).objects.get s.objects.next = some _ :=
                Table.get_insert_self
              cases hnew.symm.trans ha
              rfl
            · exact absurd hlt (Nat.not_lt.mpr hle)
        · have h : (s.attempts.insert row.1 s.objects.next).lookup r = some x := h
          rw [AList.lookup_insert_ne hr] at h
          exact Or.inl h
      · exact Or.inr h

theorem renewAttempts_book : (s.renewAttempts w refs waiter).1.attempts = s.attempts ∧
    (s.renewAttempts w refs waiter).1.loop = s.loop := by
  unfold Sys.renewAttempts
  dsimp only
  split <;> exact ⟨rfl, rfl⟩

@[simp] theorem resume_attempts {b : Bool} : (s.resume w b waiter).attempts = s.attempts := by
  cases waiter <;> rfl

theorem resume_loop {b : Bool} : (s.resume w b waiter).loop = s.loop ∨
    ∃ rest, waiter = .loop rest ∧ (s.resume w b waiter).loop = .sending rest := by
  cases waiter with
  | loop rest => exact Or.inr ⟨rest, rfl, rfl⟩
  | attempt => exact Or.inl rfl

theorem begin_book : (s.begin w x a).attempts = s.attempts ∧ (s.begin w x a).loop = s.loop := by
  unfold Sys.begin
  dsimp only
  split
  · exact ⟨rfl, rfl⟩
  · split <;> exact renewAttempts_book

theorem send_attempts : (s.send w due).attempts = s.attempts := by
  cases due with
  | nil => rfl
  | cons y due =>
      unfold Sys.send
      dsimp only
      split <;> exact renewAttempts_book.1

/-- A place in the map is an old one or the place of a new attempt. -/
theorem lookup_step {r : TaskId} (hs : s.step w action = some s') (h : s'.attempts.lookup r = some x) :
    s.attempts.lookup r = some x ∨
      x < s'.objects.next ∧ ∀ a, s'.objects.get x = some a → a.row = r := by
  cases steps_of_step hs with
  | dispatch => exact lookup_startAttempts h
  | begin => rw [begin_book.1] at h; exact Or.inl h
  | send => rw [send_attempts] at h; exact Or.inl h
  | reply => rw [resume_attempts] at h; exact Or.inl h
  | giveUp => rw [resume_attempts] at h; exact Or.inl h
  | @attemptDone y a =>
      by_cases hr : r = a.row
      · subst hr
        rw [AList.lookup_erase] at h; cases h
      · rw [AList.lookup_erase_ne hr] at h
        exact Or.inl h
  | _ => exact Or.inl h

/-- The list of the renewal loop is the old one, the attempts that are due, or what a call has left. -/
theorem loop_step (hs : s.step w action = some s') (h : s'.loop = .sending due) :
    s.loop = .sending due ∨ due.Perm (s.due w) ∨
      (∃ due₀, s.loop = .sending due₀ ∧ due = due₀.drop 1000) ∨
      ∃ c call, s.calls.get c = some call ∧ call.waiter = .loop due := by
  have hresume : ∀ {s₀ : Sys} {b : Bool} {c : CallId} {call : Call}, s.calls.get c = some call →
      s₀.loop = s.loop → (s₀.resume w b call.waiter).loop = .sending due →
      s.loop = .sending due ∨ due.Perm (s.due w) ∨
        (∃ due₀, s.loop = .sending due₀ ∧ due = due₀.drop 1000) ∨
        ∃ c call, s.calls.get c = some call ∧ call.waiter = .loop due := by
    intro s₀ b c call hc hl h
    rcases @resume_loop w s₀ call.waiter b with he | ⟨rest, hw, he⟩
    · exact Or.inl (by rw [← hl, ← he, h])
    · rw [he, Loop.sending.injEq] at h
      exact Or.inr (Or.inr (Or.inr ⟨c, call, hc, by rw [hw, h]⟩))
  cases steps_of_step hs with
  | dispatch =>
      rw [startAttempts_loop] at h
      exact Or.inl h
  | begin => rw [begin_book.2] at h; exact Or.inl h
  | collect hl hp => cases h; exact Or.inr (Or.inl hp)
  | @send due₀ hl =>
      refine Or.inr (Or.inr (Or.inl ⟨due₀, hl, ?_⟩))
      cases due₀ with
      | nil => cases h
      | cons y due₀ =>
          unfold Sys.send at h
          dsimp only at h
          split at h
          · cases h
          · cases h; rfl
  | reply hc =>
      refine hresume hc ?_ h
      rfl
  | giveUp hc =>
      refine hresume hc ?_ h
      rfl
  | _ => exact Or.inl h

theorem Keyed.step (h : Keyed s) (hs : s.step w action = some s') : Keyed s' where
  map r x hx := by
    rcases lookup_step hs hx with hx | hx
    · obtain ⟨hlt, hrow⟩ := h.map r x hx
      refine ⟨hlt.trans_le (objects_next hs), fun a ha => ?_⟩
      obtain ⟨b, hb, hr, -⟩ := row_step hs hlt ha
      exact hr.trans (hrow b hb)
    · exact hx
  loop due hl := by
    refine Distinct.step ?_ hs
    rcases loop_step hs hl with hl₀ | hp | ⟨due₀, hl₀, rfl⟩ | ⟨c, call, hc, hw⟩
    · exact h.loop due hl₀
    · exact (h.mapped.sublist List.filter_sublist).perm hp
    · exact (h.loop due₀ hl₀).sublist (List.drop_sublist _ _)
    · exact (h.calls c call hc).2 due hw
  calls c call hc := by
    rcases call_step hs hc with ⟨-, refs, waiter, hren, -, rfl⟩ | ⟨call₀, hc₀, hmade, -⟩
    · have hd : Distinct s refs ∧ ∀ rest, waiter = .loop rest → Distinct s rest := by
        cases hren with
        | begin hx =>
            refine ⟨⟨fun y hy => ?_, List.pairwise_singleton _ _⟩, fun _ h => by cases h⟩
            rw [List.mem_singleton.mp hy]
            exact Table.lt_of_get hx
        | send hl =>
            refine ⟨(h.loop _ hl).sublist (List.take_sublist _ _), fun rest hr => ?_⟩
            cases hr
            exact (h.loop _ hl).sublist (List.drop_sublist _ _)
      exact ⟨(hd.1.sublist List.filter_sublist).renewals, fun rest hr => (hd.2 rest hr).step hs⟩
    · rw [hmade.sent, hmade.waiter]
      obtain ⟨hn, hr⟩ := h.calls c call₀ hc₀
      exact ⟨hn, fun rest hw => (hr rest hw).step hs⟩

/-! ## What a cancelled attempt was told -/

/-- The row runs under the token and its cancel was requested. -/
def Flagged (i : TaskId) (token : Token) (s : Sys) : Prop :=
  ∃ t, s.held i token = some t ∧ t.cancelRequestedAt ≠ none

/-- While the row runs under the token its cancel stays requested. -/
def Told (s : Sys) (i : TaskId) (token : Token) : Prop :=
  ∀ t, s.held i token = some t → t.cancelRequestedAt ≠ none

theorem Flagged.told (h : Flagged i token s) : Told s i token := by
  obtain ⟨t, ht, hc⟩ := h
  intro t' ht'
  cases ht.symm.trans ht'
  exact hc

theorem Told.step (h : Core w s) (hs : s.step w action = some s') (hown : token ∈ s.own)
    (ht : Told s i token) : Told s' i token := by
  intro t' ht'
  cases rest_step hs with
  | same hst => exact ht t' (held_congr hst ▸ ht')
  | advance => exact ht t' ht'
  | executed he hst =>
      obtain ⟨hg, hr, htk⟩ := held_eq_some.mp ht'
      rw [hst] at hg
      rcases lease_executes h he hg hr htk (own_executes he _ hown) with ⟨t, hheld, hc, -⟩ |
        ⟨k, now, clock, worker, tokens, ids, issuedAt, waiting, -, -, -, hn, -⟩
      · exact hc (ht t hheld)
      · exact absurd hown hn
  | issue => exact ht t' ht'
  | answer hst => exact ht t' (held_congr hst ▸ ht')

/-- The row was flagged under the token at some time in the run, and still is if it still runs. -/
def Cancelled (w : Env) (actions : List Action) (s : Sys) (i : TaskId) (token : Token) : Prop :=
  Past (Sys.step w) (Flagged i token) Sys.init actions ∧ Told s i token

theorem Cancelled.step (h : Core w s) (hs : s.step w action = some s') (hown : token ∈ s.own)
    (hc : Cancelled w actions s i token) : Cancelled w (actions ++ [action]) s' i token :=
  ⟨hc.1.append _, hc.2.step h hs hown⟩

/-- Attempts stopped by a cancel and replies that will stop one. -/
structure Cancels (w : Env) (actions : List Action) (s : Sys) : Prop where
  attempts : ∀ x a, s.objects.get x = some a → a.cause = some .cancel →
    Cancelled w actions s a.row a.token
  calls : ∀ c call beats x a flag, s.calls.get c = some call → call.status = .committed beats →
    x ∈ call.attempts → s.objects.get x = some a → beats.lookup a.row = some (some flag) →
    Cancelled w actions s a.row a.token

theorem cancel_renewed {started now : Time} {beat : Option (Option Time)}
    (h : (a.renewed started now beat).cause = some .cancel) :
    a.cause = some .cancel ∨ ∃ flag, beat = some (some flag) := by
  unfold Attempt.renewed at h
  split at h
  · exact Or.inl ((quiet_stop (a := a) (by simp : Cause.lost ≠ .cancel)).cancel h)
  · rename_i flag
    cases flag with
    | none => exact Or.inl h
    | some flag => exact Or.inr ⟨flag, rfl⟩

theorem Cancels.step (h : Core w s) (hb : Bounded w s) (hk : Keyed s)
    (hrun : run (Sys.step w) Sys.init actions = some s) (hc : Cancels w actions s)
    (hs : s.step w action = some s') : Cancels w (actions ++ [action]) s' where
  attempts x a ha hcause := by
    rcases attempt_step hs ha with ⟨-, k, issuedAt, rows, row, -, -, -, rfl⟩ | ⟨b, hx, hch⟩
    · cases hcause
    have hown := h.attempts x b hx
    rw [hch.same.1, hch.same.2.1]
    refine Cancelled.step h hs hown ?_
    cases hch with
    | quiet hq => exact hc.attempts x b hx (hq.cancel hcause)
    | start => exact hc.attempts x b hx hcause
    | @reply c call beats b' a hcall hst hw hheard hq =>
        have hcause' : b'.cause = some .cancel := by
          rcases hq with hq | ⟨-, -, rfl⟩
          · exact hq.cancel hcause
          · exact hcause
        rcases hheard with ⟨-, rfl⟩ | ⟨hx', rfl⟩
        · exact hc.attempts x _ hx hcause'
        · rcases cancel_renewed hcause' with hcause' | ⟨flag, hbeat⟩
          · exact hc.attempts x b hx hcause'
          · exact hc.calls c call beats x b flag hcall hst hx' hx hbeat
  calls c call beats x a flag hcall hst hx ha hbeat := by
    rcases call_step hs hcall with ⟨-, refs, waiter, -, -, rfl⟩ | ⟨call₀, hc₀, hmade, hw⟩
    · cases hst
    rw [hmade.attempts] at hx
    obtain ⟨hlt, hsent⟩ := hb.sent c call₀ hc₀ x hx
    obtain ⟨b, hb', hr, ht⟩ := row_step hs hlt ha
    rw [hr, ht]
    rw [hr] at hbeat
    have hown := h.attempts x b hb'
    refine Cancelled.step h hs hown ?_
    rw [hst] at hw
    cases hw with
    | same hsame => exact hc.calls c call₀ beats x b flag hc₀ hsame.symm hx hb' hbeat
    | committed hst₀ =>
        -- the returned row is the one that was sent with the attempt's own token
        obtain ⟨r, hr', hf⟩ := List.mem_filterMap.mp (mem_of_lookup hbeat)
        obtain ⟨t, hheld, he⟩ := Option.map_eq_some_iff.mp hf
        rw [Prod.mk.injEq] at he
        have hmine := (hsent b hb').1
        have hsame : r = (b.row, b.token) :=
          List.inj_on_of_nodup_map (hk.calls c call₀ hc₀).1 hr' hmine he.1
        rw [hsame] at hheld
        have hflag : Flagged b.row b.token s := ⟨t, hheld, by rw [he.2]; simp⟩
        exact ⟨Past.now hrun hflag, hflag.told⟩

end Lease

end Fronta
