import Fronta.Lease.Lemmas.Cancel
import Fronta.Lease.Lemmas.Deadlines
import Fronta.Renewals.System

/-!
# What a step makes of an attempt, of a call and of the loop
-/

namespace Fronta.Renewals

open Lease Sql
open Worker (Cause Ref)

variable {w : Lease.Env} {s s' : Lease.Sys} {action : Action} {x : Ref} {a a' : Attempt} {c : CallId} {call : Call}
  {refs : List Ref} {waiter : Waiter}

/-! ## Attempts -/

/-- A change that renews nothing, starts nothing and forgets no request. -/
structure Fades (a a' : Attempt) : Prop where
  claimedAt : a'.claimedAt = a.claimedAt
  renewedAt : a'.renewedAt = a.renewedAt
  running : a'.phase = .running → a.phase = .running
  cause : a'.cause = none → a.cause = none
  requested : a.renewRequested = true → a'.renewRequested = true

theorem Fades.refl (a : Attempt) : Fades a a := ⟨rfl, rfl, id, id, id⟩

theorem Fades.trans {b : Attempt} (h : Fades a b) (h' : Fades b a') : Fades a a' :=
  ⟨h'.claimedAt.trans h.claimedAt, h'.renewedAt.trans h.renewedAt, fun hp => h.running (h'.running hp),
    fun hc => h.cause (h'.cause hc), fun hr => h'.requested (h.requested hr)⟩

theorem fades_stop (cause : Cause) : Fades a (a.stop cause) :=
  ⟨rfl, rfl, id, (fun hc => by cases hc), id⟩

theorem fades_phase {p : Phase} (hp : p ≠ .running) : Fades a { a with phase := p } :=
  ⟨rfl, rfl, fun h => absurd h hp, id, id⟩

theorem fades_request : Fades a { a with renewRequested := true } := ⟨rfl, rfl, id, id, fun _ => rfl⟩

theorem refreshed_turn (now : Time) (isConfirmed : Bool) :
    Fades a (a.refreshed now isConfirmed) ∨ isConfirmed = true ∧ a.refreshed now isConfirmed = a.start now := by
  unfold Attempt.refreshed
  split_ifs with hl hc
  · exact Or.inl (fades_phase (by simp))
  · exact Or.inr ⟨hc, rfl⟩
  · exact Or.inl (fades_phase (by simp))

/-- An update that lets each attempt fade or leaves it. -/
theorem fades_update {f : Ref → Attempt → Option Attempt} (hf : ∀ a b, f x a = some b → Fades a b)
    (h : (s.objects.update f).get x = some a') : ∃ a, s.objects.get x = some a ∧ Fades a a' := by
  obtain ⟨a, ha, ⟨-, rfl⟩ | hb⟩ := Table.get_update_cases h
  · exact ⟨a', ha, .refl _⟩
  · exact ⟨a, ha, hf _ _ hb⟩

theorem fades_modify {f : Attempt → Attempt} (hf : ∀ a, Fades a (f a)) {y : Ref}
    (h : (s.modify y f).objects.get x = some a') : ∃ a, s.objects.get x = some a ∧ Fades a a' := by
  refine fades_update (fun a b hb => ?_) h
  obtain ⟨-, hb⟩ := Option.ite_none_right_eq_some.mp hb
  exact Option.some.inj hb ▸ hf a

/-- An update that stops some attempts as lost. -/
theorem lose_cases {p : Ref → Attempt → Prop} [∀ x a, Decidable (p x a)]
    (h : (s.objects.update fun x a => if p x a then some (a.stop .lost) else none).get x = some a') :
    ∃ a, s.objects.get x = some a ∧ (a' = a ∨ p x a ∧ a' = a.stop .lost) := by
  obtain ⟨a, ha, ⟨-, rfl⟩ | hb⟩ := Table.get_update_cases h
  · exact ⟨a', ha, Or.inl rfl⟩
  · obtain ⟨hp, hb⟩ := Option.ite_none_right_eq_some.mp hb
    exact ⟨a, ha, Or.inr ⟨hp, (Option.some.inj hb).symm⟩⟩

theorem renewAttempts_cases (h : (s.renewAttempts w refs waiter).1.objects.get x = some a') :
    ∃ a, s.objects.get x = some a ∧
      (a' = a ∨ (x ∈ refs ∧ a.overdue w.leaseS (s.monotonic w) = true) ∧ a' = a.stop .lost) := by
  unfold Lease.Sys.renewAttempts at h
  dsimp only at h
  split at h <;> exact lose_cases h

theorem fades_lost {p : Prop} (h : a' = a ∨ p ∧ a' = a.stop .lost) : Fades a a' := by
  rcases h with rfl | ⟨-, rfl⟩
  · exact .refl _
  · exact fades_stop _

theorem fades_renewAttempts (h : (s.renewAttempts w refs waiter).1.objects.get x = some a') :
    ∃ a, s.objects.get x = some a ∧ Fades a a' := by
  obtain ⟨a, ha, hl⟩ := renewAttempts_cases h
  exact ⟨a, ha, fades_lost hl⟩

theorem resume_turn {isConfirmed : Bool} (h : (s.resume w isConfirmed waiter).objects.get x = some a') :
    ∃ a, s.objects.get x = some a ∧
      (Fades a a' ∨ isConfirmed = true ∧ waiter = .attempt x ∧ a' = a.start (s.monotonic w)) := by
  cases waiter with
  | loop rest =>
      obtain ⟨a, ha, hl⟩ := lose_cases h
      exact ⟨a, ha, Or.inl (fades_lost hl)⟩
  | attempt y =>
      rcases Table.get_modify_cases h with ⟨-, ha⟩ | ⟨rfl, a, ha, rfl⟩
      · exact ⟨a', ha, Or.inl (.refl _)⟩
      · rcases refreshed_turn (s.monotonic w) isConfirmed with hf | ⟨hc, he⟩
        · exact ⟨a, ha, Or.inl hf⟩
        · exact ⟨a, ha, Or.inr ⟨hc, rfl, he⟩⟩

/-- What a step that collects nothing makes of an attempt. -/
inductive Turn (w : Lease.Env) (s : Lease.Sys) (x : Ref) (a : Attempt) : Action → Attempt → Prop
  | fades {action : Action} {a' : Attempt} (hf : Fades a a')
      (hn : ∀ c call, action = .reply c → s.calls.get c = some call → x ∉ call.attempts) : Turn w s x a action a'
  | start (hp : a.phase = .created) (hd : s.monotonic w - a.claimedAt ≤ w.heartbeatS) :
      Turn w s x a (.begin x) (a.start (s.monotonic w))
  | reply {c : CallId} {call : Call} {beat : Option (Option Time)} {a' : Attempt} (hc : s.calls.get c = some call)
      (hw : call.waiting = true) (hx : x ∈ call.attempts)
      (hf : Fades (a.renewed call.started (s.monotonic w) beat) a' ∨ call.waiter = .attempt x ∧
        a' = (a.renewed call.started (s.monotonic w) beat).start (s.monotonic w)) :
      Turn w s x a (.reply c) a'

/-- An attempt is new, or a step has made something of it. -/
def Turned (w : Lease.Env) (s : Lease.Sys) (action : Action) (x : Ref) (a' : Attempt) : Prop :=
  (s.objects.next ≤ x ∧ a'.phase = .created ∧ a'.claimedAt = a'.renewedAt) ∨
    ∃ a, s.objects.get x = some a ∧ Turn w s x a action a'

theorem turned_step (hr : Refreshing w s) (hs : s.step w action = some s') (hcol : ∀ due, action ≠ .collect due)
    (h : s'.objects.get x = some a') : Turned w s action x a' := by
  have hfade : ∀ {action}, (∀ c, action ≠ .reply c) → (∃ a, s.objects.get x = some a ∧ Fades a a') →
      Turned w s action x a' := fun hn ⟨a, ha, hf⟩ => Or.inr ⟨a, ha, .fades hf fun c _ he => absurd he (hn c)⟩
  have hsame : ∀ {action}, (∀ c, action ≠ .reply c) → s.objects.get x = some a' → Turned w s action x a' :=
    fun hn h => hfade hn ⟨a', h, .refl _⟩
  cases steps_of_step hs with
  | advance | statement | claim | executeClaim | dropClaim | stamp | commit | fail | miss | stored =>
      exact hsame (by simp) h
  | dispatch hk =>
      rcases get_startAttempts h with h | ⟨hx, row, hr, he⟩
      · exact hsame (by simp) h
      · exact Or.inl ⟨hx, by rw [he], by rw [he]⟩
  | @begin y a ha hp =>
      unfold Lease.Sys.begin at h
      split at h
      · rename_i hfresh
        rcases Table.get_modify_cases h with ⟨-, h⟩ | ⟨rfl, b, hb, rfl⟩
        · exact hsame (by simp) h
        · cases ha.symm.trans hb
          exact Or.inr ⟨a, ha, .start hp hfresh⟩
      · dsimp only at h
        split at h
        · obtain ⟨b, hb, hf⟩ := fades_modify (fun a => fades_phase (by simp)) h
          obtain ⟨b', hb', hf'⟩ := fades_renewAttempts hb
          exact hfade (by simp) ⟨b', hb', hf'.trans hf⟩
        · obtain ⟨b, hb, hf | ⟨hn, -⟩⟩ := resume_turn h
          · obtain ⟨b', hb', hf'⟩ := fades_renewAttempts hb
            exact hfade (by simp) ⟨b', hb', hf'.trans hf⟩
          · cases hn
  | collect => exact absurd rfl (hcol _)
  | @send due hl =>
      cases due with
      | nil => exact hsame (by simp) h
      | cons y due =>
          unfold Lease.Sys.send at h
          dsimp only at h
          split at h
          · exact hfade (by simp) (fades_renewAttempts h)
          · obtain ⟨b, hb, hf | ⟨hn, -⟩⟩ := resume_turn h
            · obtain ⟨b', hb', hf'⟩ := fades_renewAttempts hb
              exact hfade (by simp) ⟨b', hb', hf'.trans hf⟩
            · cases hn
  | @reply c call beats hc hst hw =>
      obtain ⟨b, hb, hf⟩ := resume_turn h
      obtain ⟨a, ha, ⟨hn, rfl⟩ | he⟩ := Table.get_update_cases hb
      · have hx : x ∉ call.attempts := fun hx => by rw [if_pos hx] at hn; cases hn
        rcases hf with hf | ⟨-, hwaiter, -⟩
        · refine Or.inr ⟨b, ha, .fades hf fun c' call' he hc' => ?_⟩
          cases he
          cases hc.symm.trans hc'
          exact hx
        · exact absurd (hr.waiting c call x hc hwaiter).1 hx
      · obtain ⟨hx, he⟩ := Option.ite_none_right_eq_some.mp he
        cases he
        exact Or.inr ⟨a, ha, .reply hc hw hx (hf.imp_right And.right)⟩
  | giveUp =>
      obtain ⟨b, hb, hf | ⟨hn, -⟩⟩ := resume_turn h
      · exact hfade (by simp) ⟨b, hb, hf⟩
      · cases hn
  | hint => exact hfade (by simp) (fades_modify (fun a => fades_request) h)
  | refused => exact hfade (by simp) (fades_modify (fun a => fades_stop _) h)
  | stop => exact hfade (by simp) (fades_modify (fun a => fades_stop _) h)
  | settle => exact hfade (by simp) (fades_modify (fun a => fades_phase (by simp)) h)
  | attemptDone => exact hfade (by simp) (fades_modify (fun a => fades_phase (by simp)) h)

theorem mem_mapped : x ∈ s.mapped ↔ ∃ r, s.attempts.lookup r = some x := by
  constructor
  · intro h
    obtain ⟨⟨r, y⟩, hy, rfl⟩ := List.mem_map.mp h
    exact ⟨r, (List.mem_dlookup_iff s.attempts.nodupKeys).mpr hy⟩
  · rintro ⟨r, h⟩
    exact List.mem_map_of_mem (f := Sigma.snd) ((List.mem_dlookup_iff s.attempts.nodupKeys).mp h)

theorem lookup_dispatched {rows : List (TaskId × Token)} {issuedAt : Time} {r : TaskId}
    (h : (rows.foldl (fun s row => s.startAttempt issuedAt row) s).attempts.lookup r = some x) :
    s.attempts.lookup r = some x ∨ s.objects.next ≤ x := by
  induction rows generalizing s with
  | nil => exact Or.inl h
  | cons row rows ih =>
      rcases ih h with h | h
      · have h : (s.attempts.insert row.1 s.objects.next).lookup r = some x := h
        by_cases hr : r = row.1
        · rw [hr, AList.lookup_insert, Option.some.injEq] at h
          exact Or.inr h.le
        · rw [AList.lookup_insert_ne hr] at h
          exact Or.inl h
      · exact Or.inr ((Nat.le_succ _).trans h)

/-- What the map has got is a new attempt. -/
theorem mapped_step (hs : s.step w action = some s') (hx : x ∈ s'.mapped) : x ∈ s.mapped ∨ s.objects.next ≤ x := by
  obtain ⟨r, hx⟩ := mem_mapped.mp hx
  have hold : s.attempts.lookup r = some x → x ∈ s.mapped ∨ s.objects.next ≤ x :=
    fun h => Or.inl (mem_mapped.mpr ⟨r, h⟩)
  cases steps_of_step hs with
  | dispatch => exact (lookup_dispatched hx).imp_left fun h => mem_mapped.mpr ⟨r, h⟩
  | begin => exact hold (by rwa [begin_book.1] at hx)
  | send => exact hold (by rwa [send_attempts] at hx)
  | reply => exact hold (by rwa [resume_attempts] at hx)
  | giveUp => exact hold (by rwa [resume_attempts] at hx)
  | @attemptDone y a =>
      by_cases hr : r = a.row
      · rw [hr, AList.lookup_erase] at hx
        cases hx
      · rw [AList.lookup_erase_ne hr] at hx
        exact hold hx
  | _ => exact hold hx

/-! ## The loop and its call -/

/-- The loop waits for this call, with the rest of its list. -/
def Awaits (s : Lease.Sys) (c : CallId) (rest : List Ref) : Prop :=
  (s.calls.get c).map (fun call => (call.waiting, call.waiter)) = some (true, .loop rest)

variable {rest due : List Ref}

theorem awaits_of_get (hc : s.calls.get c = some call) (hw : call.waiting = true) (hl : call.waiter = .loop rest) :
    Awaits s c rest := by rw [Awaits, hc, Option.map_some, hw, hl]

theorem awaits_cases (h : Awaits s c rest) :
    ∃ call, s.calls.get c = some call ∧ call.waiting = true ∧ call.waiter = .loop rest := by
  obtain ⟨call, hc, he⟩ := Option.map_eq_some_iff.mp h
  obtain ⟨hw, hl⟩ := Prod.mk.inj he
  exact ⟨call, hc, hw, hl⟩

/-- A change of a call that lets it wait. -/
theorem awaits_modifyCall {f : Call → Call} {d : CallId} (hf : ∀ call, (f call).waiting = call.waiting ∧
    (f call).waiter = call.waiter) : Awaits (s.modifyCall d f) c rest ↔ Awaits s c rest := by
  unfold Awaits Lease.Sys.modifyCall
  rw [Table.get_modify, Option.map_map]
  suffices h : ((fun call : Call => (call.waiting, call.waiter)) ∘ fun a => if c = d then f a else a) =
      fun call : Call => (call.waiting, call.waiter) by rw [h]
  funext call
  by_cases hc : c = d <;> simp [hc, hf]

/-- The end of a call. -/
theorem awaits_ended {d : CallId} : Awaits (s.modifyCall d fun call => { call with waiting := false }) c rest ↔
    Awaits s c rest ∧ c ≠ d := by
  unfold Awaits Lease.Sys.modifyCall
  rw [Table.get_modify]
  cases s.calls.get c with
  | none => simp
  | some call => by_cases hc : c = d <;> simp [hc]

theorem awaits_congr (h : s'.calls = s.calls) : Awaits s' c rest ↔ Awaits s c rest := by rw [Awaits, Awaits, h]

theorem awaits_renewAttempts (h : Awaits (s.renewAttempts w refs waiter).1 c rest) :
    Awaits s c rest ∨ c = s.calls.next ∧ waiter = .loop rest := by
  unfold Lease.Sys.renewAttempts at h
  dsimp only at h
  split at h
  · exact Or.inl h
  · obtain ⟨call, hc, hw, hl⟩ := awaits_cases h
    rcases Table.get_insert_cases hc with ⟨rfl, rfl⟩ | hc
    · exact Or.inr ⟨rfl, hl⟩
    · exact Or.inl (awaits_of_get hc hw hl)

theorem Awaits.renewAttempts (h : Awaits s c rest) : Awaits (s.renewAttempts w refs waiter).1 c rest := by
  obtain ⟨call, hc, hw, hl⟩ := awaits_cases h
  unfold Lease.Sys.renewAttempts
  dsimp only
  split
  · exact awaits_of_get hc hw hl
  · exact awaits_of_get (Table.get_insert_of_get hc) hw hl

/-- A waiting call is a new one or has waited before. -/
theorem waiting_step (hs : s.step w action = some s') (hc : s'.calls.get c = some call) (hw : call.waiting = true) :
    call.started = s.monotonic w ∨ ∃ call₀, s.calls.get c = some call₀ ∧ call₀.waiting = true ∧
      call₀.started = call.started := by
  have hold : s.calls.get c = some call → call.started = s.monotonic w ∨ ∃ call₀, s.calls.get c = some call₀ ∧
      call₀.waiting = true ∧ call₀.started = call.started := fun h => Or.inr ⟨call, h, hw, rfl⟩
  have hrenew : ∀ {refs waiter}, (s.renewAttempts w refs waiter).1.calls.get c = some call →
      call.started = s.monotonic w ∨ ∃ call₀, s.calls.get c = some call₀ ∧ call₀.waiting = true ∧
        call₀.started = call.started := by
    intro refs waiter h
    rcases get_renewAttempts_calls h with h | ⟨-, -, rfl⟩
    · exact hold h
    · exact Or.inl rfl
  cases steps_of_step hs with
  | dispatch =>
      rw [startAttempts_calls] at hc
      exact hold hc
  | begin =>
      unfold Lease.Sys.begin at hc
      split at hc
      · exact hold hc
      · dsimp only at hc
        split at hc
        · exact hrenew hc
        · rw [resume_calls] at hc
          exact hrenew hc
  | @send due =>
      cases due with
      | nil => exact hold hc
      | cons y due =>
          unfold Lease.Sys.send at hc
          dsimp only at hc
          split at hc
          · exact hrenew hc
          · rw [resume_calls] at hc
            exact hrenew hc
  | stamp | commit | fail =>
      rcases Table.get_modify_cases hc with ⟨-, hc⟩ | ⟨rfl, call₀, hc₀, rfl⟩
      · exact hold hc
      · exact Or.inr ⟨call₀, hc₀, hw, rfl⟩
  | reply | giveUp =>
      rw [resume_calls] at hc
      rcases Table.get_modify_cases hc with ⟨-, hc⟩ | ⟨rfl, call₀, hc₀, rfl⟩
      · exact hold hc
      · cases hw
  | _ => exact hold hc

/-- What a step makes of the loop. -/
inductive Flow (w : Lease.Env) (s : Lease.Sys) : Action → Lease.Sys → Prop
  | same {action : Action} {s' : Lease.Sys} (hl : s'.loop = s.loop)
      (hw : ∀ c rest, Awaits s' c rest ↔ Awaits s c rest) : Flow w s action s'
  | collect {due : List Ref} {s' : Lease.Sys} (hl : s.loop = .idle) (hp : due.Perm (s.due w))
      (hl' : s'.loop = .sending due) (hw : ∀ c rest, Awaits s' c rest ↔ Awaits s c rest) : Flow w s (.collect due) s'
  | sleep {s' : Lease.Sys} (hl : s.loop = .sending []) (hl' : s'.loop = .idle)
      (hw : ∀ c rest, Awaits s' c rest ↔ Awaits s c rest) : Flow w s .send s'
  | send {due : List Ref} {s' : Lease.Sys} {call : Call} (hl : s.loop = .sending due) (hl' : s'.loop = .waiting)
      (hc : s'.calls.get s.calls.next = some call) (ha : call.attempts = s.live w (due.take 1000))
      (hst : call.started = s.monotonic w) (haw : Awaits s' s.calls.next (due.drop 1000))
      (hw : ∀ c rest, Awaits s' c rest → Awaits s c rest ∨ c = s.calls.next ∧ rest = due.drop 1000) :
      Flow w s .send s'
  | skip {due : List Ref} {s' : Lease.Sys} (hl : s.loop = .sending due) (hlive : s.live w (due.take 1000) = [])
      (hl' : s'.loop = .sending (due.drop 1000)) (hw : ∀ c rest, Awaits s' c rest ↔ Awaits s c rest) : Flow w s .send s'
  | answer {action : Action} {d : CallId} {rest : List Ref} {s' : Lease.Sys} (hd : Awaits s d rest)
      (hact : action = .reply d ∨ action = .giveUp d) (hl' : s'.loop = .sending rest)
      (hw : ∀ c rest, Awaits s' c rest ↔ Awaits s c rest ∧ c ≠ d) : Flow w s action s'

/-- The loop goes on after its call, and goes on waiting after another one. -/
theorem flow_resume {d : CallId} {b : Bool} {s₀ : Lease.Sys} (hc : s.calls.get d = some call)
    (hw : call.waiting = true) (hl : s₀.loop = s.loop)
    (h₀ : ∀ c rest, Awaits s₀ c rest ↔ Awaits s c rest ∧ c ≠ d) (hact : action = .reply d ∨ action = .giveUp d) :
    Flow w s action (s₀.resume w b call.waiter) := by
  cases hwaiter : call.waiter with
  | loop rest => exact .answer (awaits_of_get hc hw hwaiter) hact rfl h₀
  | attempt x =>
      refine .same hl fun c rest => (h₀ c rest).trans ⟨And.left, fun h => ⟨h, ?_⟩⟩
      rintro rfl
      obtain ⟨call', hc', -, hl'⟩ := awaits_cases h
      cases hc.symm.trans hc'
      rw [hwaiter] at hl'
      cases hl'

theorem flow_step (hs : s.step w action = some s') : Flow w s action s' := by
  cases steps_of_step hs with
  | dispatch => exact .same startAttempts_loop fun c rest => awaits_congr startAttempts_calls
  | @begin x a =>
      refine .same begin_book.2 fun c rest => ?_
      unfold Lease.Sys.begin
      split
      · exact Iff.rfl
      · dsimp only
        have hrenew : Awaits (s.renewAttempts w [x] (.attempt x)).1 c rest ↔ Awaits s c rest :=
          ⟨fun h => (awaits_renewAttempts h).resolve_right fun hn => (by cases hn.2), fun h => h.renewAttempts⟩
        split
        · exact hrenew
        · exact (awaits_congr resume_calls).trans hrenew
  | collect hl hp => exact .collect hl hp rfl fun _ _ => Iff.rfl
  | @send due hl =>
      cases due with
      | nil => exact .sleep hl rfl fun _ _ => Iff.rfl
      | cons y due =>
          have hsent := @renewAttempts_sent w s ((y :: due).take 1000) (.loop ((y :: due).drop 1000))
          unfold Lease.Sys.send
          dsimp only
          split
          · next hlive =>
              rw [hsent] at hlive
              have hne : s.live w ((y :: due).take 1000) ≠ [] := by simpa using hlive
              have hget : (s.renewAttempts w ((y :: due).take 1000) (.loop ((y :: due).drop 1000))).1.calls.get
                  s.calls.next = some ⟨s.live w ((y :: due).take 1000), s.renewals (s.live w ((y :: due).take 1000)),
                    s.monotonic w, .executing [], .loop ((y :: due).drop 1000), true⟩ := by
                unfold Lease.Sys.renewAttempts
                dsimp only
                rw [if_neg (by simpa using hne)]
                exact Table.get_insert_self
              exact .send hl rfl hget rfl rfl (awaits_of_get hget rfl rfl) fun c rest h =>
                (awaits_renewAttempts h).imp_right fun ⟨hc, hr⟩ => ⟨hc, (Waiter.loop.inj hr).symm⟩
          · next hlive =>
              rw [hsent] at hlive
              have hnil : s.live w ((y :: due).take 1000) = [] := by simpa using hlive
              refine .skip hl hnil rfl fun c rest => (awaits_congr resume_calls).trans ?_
              unfold Lease.Sys.renewAttempts
              dsimp only
              rw [if_pos (by rw [hnil]; rfl)]
              exact Iff.rfl
  | stamp => exact .same rfl fun c rest => awaits_modifyCall fun _ => ⟨rfl, rfl⟩
  | commit => exact .same rfl fun c rest => awaits_modifyCall fun _ => ⟨rfl, rfl⟩
  | fail => exact .same rfl fun c rest => awaits_modifyCall fun _ => ⟨rfl, rfl⟩
  | @reply d call beats hc hst hw => exact flow_resume hc hw rfl (fun c rest => awaits_ended) (Or.inl rfl)
  | @giveUp d call hc hw => exact flow_resume hc hw rfl (fun c rest => awaits_ended) (Or.inr rfl)
  | _ => exact .same rfl fun _ _ => Iff.rfl

theorem collect_step (hs : s.step w (.collect due) = some s') : s.loop = .idle ∧ due.Perm (s.due w) ∧
    s' = { s with
      objects := s.objects.update fun x a =>
        if x ∈ due then some { a with renewRequested := false } else none
      loop := .sending due } := by
  cases steps_of_step hs with
  | collect hl hp => exact ⟨hl, hp, rfl⟩

/-- The loop waits for one call at a time. -/
structure Lone (s : Lease.Sys) : Prop where
  waiting : ∀ c rest, Awaits s c rest → s.loop = .waiting
  unique : ∀ c c' rest rest', Awaits s c rest → Awaits s c' rest' → c = c'

theorem lone_init : Lone .init := ⟨(fun _ _ h => by cases h), fun _ _ _ _ h => by cases h⟩

theorem Lone.step (h : Lone s) (hs : s.step w action = some s') : Lone s' := by
  have hnone : s.loop ≠ .waiting → ∀ c rest, ¬ Awaits s c rest := fun hl c rest ha => hl (h.waiting c rest ha)
  cases flow_step hs with
  | same hl hw =>
      exact ⟨fun c rest ha => hl.trans (h.waiting c rest ((hw c rest).mp ha)),
        fun c c' rest rest' ha ha' => h.unique c c' rest rest' ((hw c rest).mp ha) ((hw c' rest').mp ha')⟩
  | collect hl hp hl' hw =>
      have hno : ∀ c rest, ¬ Awaits s' c rest := fun c rest ha => hnone (by simp [hl]) c rest ((hw c rest).mp ha)
      exact ⟨fun c rest ha => absurd ha (hno c rest), fun c _ rest _ ha => absurd ha (hno c rest)⟩
  | sleep hl hl' hw =>
      have hno : ∀ c rest, ¬ Awaits s' c rest := fun c rest ha => hnone (by simp [hl]) c rest ((hw c rest).mp ha)
      exact ⟨fun c rest ha => absurd ha (hno c rest), fun c _ rest _ ha => absurd ha (hno c rest)⟩
  | send hl hl' hc ha hst haw hw =>
      have hnew : ∀ c rest, Awaits s' c rest → c = s.calls.next := fun c rest ha =>
        ((hw c rest ha).resolve_left (hnone (by simp [hl]) c rest)).1
      exact ⟨fun _ _ _ => hl', fun c c' rest rest' ha ha' => (hnew c rest ha).trans (hnew c' rest' ha').symm⟩
  | skip hl hlive hl' hw =>
      have hno : ∀ c rest, ¬ Awaits s' c rest := fun c rest ha => hnone (by simp [hl]) c rest ((hw c rest).mp ha)
      exact ⟨fun c rest ha => absurd ha (hno c rest), fun c _ rest _ ha => absurd ha (hno c rest)⟩
  | answer hd hact hl' hw =>
      have hno : ∀ c rest, ¬ Awaits s' c rest := fun c rest ha =>
        ((hw c rest).mp ha).2 (h.unique c _ rest _ ((hw c rest).mp ha).1 hd)
      exact ⟨fun c rest ha => absurd ha (hno c rest), fun c _ rest _ ha => absurd ha (hno c rest)⟩

end Fronta.Renewals
