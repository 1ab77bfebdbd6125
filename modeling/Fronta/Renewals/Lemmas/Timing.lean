import Fronta.Renewals.Lemmas.Hints

/-!
# Leases that last

In a punctual run every healthy attempt is renewed before its deadline, so only the database can tell it that its
lease is lost.
-/

namespace Fronta.Renewals

open Lease Runs Sql
open Worker (Cause Ref)

/-! ## Losses -/

section Losses

variable {w : Lease.Env} {s s' : Lease.Sys} {action : Action} {x : Ref} {a a' : Attempt} {waiter : Waiter}

/-- The database refuses the attempt: a reply without its row, or a progress write that finds the token gone. -/
def Refused (s : Lease.Sys) (x : Ref) (a : Attempt) : Action → Prop
  | .reply c => ∃ call beats, s.calls.get c = some call ∧ call.status = .committed beats ∧ x ∈ call.attempts ∧
      beats.lookup a.row = none
  | .progress y _ => y = x ∧ s.held a.row a.token = none
  | _ => False

theorem resume_lost {b : Bool} (h : (s.resume w b waiter).objects.get x = some a') :
    ∃ a, s.objects.get x = some a ∧ (a'.cause = a.cause ∨ (∃ rest, waiter = .loop rest) ∧ x ∈ s.mapped ∧
      a'.overdue w.leaseS (s.monotonic w) = true) := by
  cases waiter with
  | loop rest =>
      obtain ⟨a, ha, rfl | ⟨⟨hx, ho⟩, rfl⟩⟩ := lose_cases h
      · exact ⟨a', ha, Or.inl rfl⟩
      · exact ⟨a, ha, Or.inr ⟨⟨rest, rfl⟩, hx, ho⟩⟩
  | attempt y =>
      rcases Table.get_modify_cases h with ⟨-, ha⟩ | ⟨rfl, a, ha, rfl⟩
      · exact ⟨a', ha, Or.inl rfl⟩
      · refine ⟨a, ha, Or.inl ?_⟩
        unfold Attempt.refreshed
        split_ifs <;> rfl

/-- A healthy attempt is lost past its deadline, or because the database refuses it. -/
theorem lost_step (hs : s.step w action = some s') (ha : s.objects.get x = some a)
    (ha' : s'.objects.get x = some a') (hc : a.cause = none) (hl : a'.cause = some .lost) :
    (x ∈ s.checks w action ∧ a'.overdue w.leaseS (s.monotonic w) = true) ∨ Refused s x a action := by
  have hsame : ∀ {p : Prop} {b : Attempt}, s.objects.get x = some b → a'.cause = b.cause → p := by
    intro p b hb he
    cases ha.symm.trans hb
    rw [hc, hl] at he
    cases he
  cases steps_of_step hs with
  | advance | statement | claim | executeClaim | dropClaim | stamp | commit | fail | miss | stored =>
      exact hsame ha' rfl
  | dispatch =>
      rcases get_startAttempts ha' with h | ⟨-, row, -, rfl⟩
      · exact hsame h rfl
      · cases hl
  | @begin y b hb hp =>
      unfold Lease.Sys.begin at ha'
      split at ha'
      · rcases Table.get_modify_cases ha' with ⟨-, h⟩ | ⟨rfl, b', hb', rfl⟩
        · exact hsame h rfl
        · exact hsame hb' rfl
      · rename_i hlate
        have hrenew : ∀ {b' : Attempt}, (s.renewAttempts w [y] (.attempt y)).1.objects.get x = some b' →
            a'.cause = b'.cause → a'.renewedAt = b'.renewedAt →
            (x ∈ s.checks w (.begin y) ∧ a'.overdue w.leaseS (s.monotonic w) = true) ∨ Refused s x a (.begin y) := by
          intro b' hb' he hr
          obtain ⟨b₀, hb₀, rfl | ⟨⟨hx, ho⟩, rfl⟩⟩ := renewAttempts_cases hb'
          · exact hsame hb₀ he
          · refine Or.inl ⟨?_, by rwa [Attempt.overdue, hr]⟩
            rw [Lease.Sys.checks, hb, Option.any_some, if_pos (decide_eq_true (not_le.mp hlate))]
            exact hx
        dsimp only at ha'
        split at ha'
        · rcases Table.get_modify_cases ha' with ⟨-, h⟩ | ⟨rfl, b', hb', rfl⟩
          · exact hrenew h rfl rfl
          · exact hrenew hb' rfl rfl
        · rcases Table.get_modify_cases ha' with ⟨-, h⟩ | ⟨rfl, b', hb', rfl⟩
          · exact hrenew h rfl rfl
          · refine hrenew hb' ?_ ?_ <;> unfold Attempt.refreshed <;> split_ifs <;> rfl
  | collect =>
      obtain ⟨b, hb, ⟨-, rfl⟩ | he⟩ := Table.get_update_cases ha'
      · exact hsame hb rfl
      · obtain ⟨-, he⟩ := Option.ite_none_right_eq_some.mp he
        cases he
        exact hsame hb rfl
  | @send due hloop =>
      cases due with
      | nil => exact hsame ha' rfl
      | cons y due =>
          have hchecks : ∀ {z}, (z ∈ (y :: due).take 1000 ∨
              (s.live w ((y :: due).take 1000)).isEmpty = true ∧ z ∈ s.mapped) → z ∈ s.checks w .send := by
            intro z hz
            rw [Lease.Sys.checks, hloop]
            dsimp only
            split_ifs with he
            · exact List.mem_append.mpr (hz.imp_right And.right)
            · exact hz.resolve_right fun h => he h.1
          have hrenew : ∀ {b : Attempt}, (s.renewAttempts w ((y :: due).take 1000)
              (.loop ((y :: due).drop 1000))).1.objects.get x = some b → a'.cause = b.cause →
              a'.renewedAt = b.renewedAt →
              (x ∈ s.checks w .send ∧ a'.overdue w.leaseS (s.monotonic w) = true) ∨ Refused s x a .send := by
            intro b hb he hr
            obtain ⟨b₀, hb₀, rfl | ⟨⟨hx, ho⟩, rfl⟩⟩ := renewAttempts_cases hb
            · exact hsame hb₀ he
            · exact Or.inl ⟨hchecks (Or.inl hx), by rwa [Attempt.overdue, hr]⟩
          simp only [Lease.Sys.send, renewAttempts_sent] at ha'
          split at ha'
          · exact hrenew ha' rfl rfl
          · rename_i hlive
            obtain ⟨b, hb, rfl | ⟨⟨hx, ho⟩, rfl⟩⟩ := lose_cases ha'
            · exact hrenew hb rfl rfl
            · rw [renewAttempts_mapped] at hx
              rw [renewAttempts_monotonic] at ho
              exact Or.inl ⟨hchecks (Or.inr ⟨by simpa using hlive, hx⟩), ho⟩
  | @reply d call beats hcall hst hw =>
      obtain ⟨b, hb, he | ⟨⟨rest, hr⟩, hx, ho⟩⟩ := resume_lost ha'
      · obtain ⟨b₀, hb₀, ⟨-, rfl⟩ | hf⟩ := Table.get_update_cases hb
        · exact hsame hb₀ he
        · obtain ⟨hx, hf⟩ := Option.ite_none_right_eq_some.mp hf
          cases ha.symm.trans hb₀
          rw [← Option.some.inj hf] at he
          cases hbeat : beats.lookup a.row with
          | none => exact Or.inr ⟨call, beats, hcall, hst, hx, hbeat⟩
          | some flag =>
              rw [hbeat, hl] at he
              cases flag <;> simp [Attempt.renewed, Attempt.stop, hc] at he
      · refine Or.inl ⟨?_, ho⟩
        rw [Lease.Sys.checks, hcall, Option.map_some, hr]
        exact hx
  | @giveUp d call hcall hw =>
      obtain ⟨b, hb, he | ⟨⟨rest, hr⟩, hx, ho⟩⟩ := resume_lost ha'
      · exact hsame hb he
      · refine Or.inl ⟨?_, ho⟩
        rw [Lease.Sys.checks, hcall, Option.map_some, hr]
        exact hx
  | hint =>
      rcases Table.get_modify_cases ha' with ⟨-, h⟩ | ⟨rfl, b, hb, rfl⟩
      · exact hsame h rfl
      · exact hsame hb rfl
  | @refused y b value op he hb hresp hfresh hheld =>
      rcases Table.get_modify_cases ha' with ⟨-, h⟩ | ⟨rfl, b', hb', rfl⟩
      · exact hsame h rfl
      · cases ha.symm.trans hb
        exact Or.inr ⟨rfl, hheld⟩
  | @stop y cause hcause =>
      rcases Table.get_modify_cases ha' with ⟨-, h⟩ | ⟨rfl, b, hb, rfl⟩
      · exact hsame h rfl
      · cases ha.symm.trans hb
        rw [Attempt.stop, hc] at hl
        cases hl
        rcases hcause with h | h <;> cases h
  | settle =>
      rcases Table.get_modify_cases ha' with ⟨-, h⟩ | ⟨rfl, b, hb, rfl⟩
      · exact hsame h rfl
      · exact hsame hb rfl
  | attemptDone =>
      rcases Table.get_modify_cases ha' with ⟨-, h⟩ | ⟨rfl, b, hb, rfl⟩
      · exact hsame h rfl
      · exact hsame hb rfl

end Losses

/-! ## Ages -/

/-- The age of a lease whose attempt starts, or that a call has renewed. -/
def Env.youth (w : Env) (lag : ℚ) : ℚ := max w.heartbeatS (w.renewTimeoutS + lag)

/-- The time from one pass to the next. -/
def Env.gap (w : Env) : ℚ := max (w.heartbeatS / 2) w.renewTimeoutS

/-- The settings under which a pass comes in time. -/
structure Env.Slack (w : Env) (lag : ℚ) : Prop where
  nonneg : 0 ≤ lag
  lt : lag < w.heartbeatS / 2
  floor : 1 / 10 ≤ w.leaseS - w.heartbeatS

variable {w : Env} {lag : ℚ}

theorem Env.renewTimeoutS_pos : 0 < w.renewTimeoutS := lt_min w.statementTimeoutS_pos (lt_max_of_lt_left (by norm_num))

theorem Env.Slack.renewTimeoutS_le (h : w.Slack lag) : w.renewTimeoutS ≤ (w.leaseS - w.heartbeatS) / 2 := by
  have hfloor := h.floor
  exact (min_le_right _ _).trans (max_le (by linarith only [hfloor]) le_rfl)

theorem Env.gap_pos : 0 < w.gap := lt_max_of_lt_right w.renewTimeoutS_pos

theorem Env.heartbeatS_le_youth : w.heartbeatS ≤ w.youth lag := le_max_left _ _

theorem Env.renewTimeoutS_le_youth : w.renewTimeoutS + lag ≤ w.youth lag := le_max_right _ _

/-- A pass that comes in time comes before the deadline. -/
theorem Env.Slack.youth_gap_lt (h : w.Slack lag) : w.youth lag + w.gap + lag < w.leaseS := by
  obtain ⟨hl, hlt, -⟩ := id h
  have hr := h.renewTimeoutS_le
  have hle := w.heartbeat_le
  have hpos := w.heartbeat_pos
  rcases max_cases w.heartbeatS (w.renewTimeoutS + lag) with ⟨hy, -⟩ | ⟨hy, -⟩ <;>
    rcases max_cases (w.heartbeatS / 2) w.renewTimeoutS with ⟨hg, -⟩ | ⟨hg, -⟩ <;>
    rw [Env.youth, Env.gap, hy, hg] <;> linarith only [hl, hlt, hr, hle, hpos]

/-! ## Prompt passes -/

/-- A lease is young where a pass begins, or this pass renews it. -/
def Fresh (w : Env) (lag : ℚ) (s : Sys) (x : Ref) (a : Attempt) : Prop :=
  s.started ≤ a.renewedAt + w.youth lag ∨ (∃ due, s.lease.loop = .sending due ∧ x ∈ due) ∨
    ∃ c call rest, Awaits s.lease c rest ∧ s.lease.calls.get c = some call ∧ x ∈ call.attempts

/-- An attempt that runs and that nobody has stopped. -/
structure Healthy (s : Sys) (x : Ref) (a : Attempt) : Prop where
  get : s.lease.objects.get x = some a
  running : a.phase = .running
  cause : a.cause = none

structure Prompt (w : Env) (lag : ℚ) (s : Sys) : Prop where
  began : s.started ≤ s.now w
  now_le : s.now w ≤ s.started + w.gap + lag
  claimed : ∀ x a, s.lease.objects.get x = some a → a.claimedAt ≤ a.renewedAt
  calls : ∀ c call, s.lease.calls.get c = some call → call.waiting = true →
    s.now w ≤ call.started + w.renewTimeoutS + lag
  short : ∀ due, s.lease.loop = .sending due → due.length ≤ 1000 ∧ (due ≠ [] → s.now w = s.started)
  rest : ∀ c rest, Awaits s.lease c rest → rest = []
  fresh : ∀ x a, Healthy s x a → x ∈ s.lease.mapped → Fresh w lag s x a
  due : ∀ due x a, s.lease.loop = .sending due → x ∈ due → Healthy s x a →
    s.started ≤ a.renewedAt + (w.youth lag + w.gap + lag)

open Sys

variable {s s' : Sys} {action : Action} {x : Ref} {a a' : Attempt}

theorem prompt_init (h : w.Slack lag) : Prompt w lag (init w) where
  began := by simp [Sys.init, now, Lease.Sys.monotonic, Lease.Sys.init]
  now_le := by
    have hg := w.gap_pos
    have hl := h.nonneg
    simp only [Sys.init, now, Lease.Sys.monotonic, Lease.Sys.init]
    linarith only [hg, hl]
  claimed _ _ h := by cases h
  calls _ _ h := by cases h
  short _ h := by cases h
  rest _ _ h := by cases h
  fresh _ _ h := by cases h.get
  due _ _ _ h := by cases h

theorem punctual_advance {t : Time} (h : s.punctual w lag (.advance t) = true) :
    t + w.skew ≤ s.started + w.gap + lag ∧
      (∀ due, s.lease.loop = .sending due → due ≠ [] → t = s.lease.clock) ∧
      ∀ c call, s.lease.calls.get c = some call → call.waiting = true →
        t + w.skew ≤ call.started + w.renewTimeoutS + lag := by
  simp only [punctual, Bool.and_eq_true, decide_eq_true_eq, List.all_eq_true, Bool.or_eq_true,
    Bool.not_eq_true'] at h
  obtain ⟨⟨hpass, hsend⟩, hcalls⟩ := h
  refine ⟨hpass, fun due hl hne => ?_, fun c call hc hw => ?_⟩
  · obtain ⟨y, rest, rfl⟩ := List.exists_cons_of_ne_nil hne
    rw [hl] at hsend
    exact of_decide_eq_true hsend
  · exact (hcalls (c, call) (Table.mem_entries.mpr hc)).resolve_left (by simp [hw])

/-- Only `advance` moves the clock. -/
theorem now_step (hs : s.step w action = some s') : s'.now w = s.now w ∨
    ∃ t, action = .advance t ∧ s.lease.clock ≤ t ∧ s'.now w = t + w.skew := by
  have hkeep : s'.lease.clock = s.lease.clock → s'.now w = s.now w := fun h => by
    rw [now, now, Lease.Sys.monotonic, Lease.Sys.monotonic, h]
  have hlease := step_lease hs
  generalize hl : s'.lease = lease at hlease hkeep
  cases rest_step hlease with
  | same _ _ hc => exact Or.inl (hkeep hc)
  | @advance t hle => exact Or.inr ⟨t, rfl, hle, by rw [now, hl]; rfl⟩
  | executed _ _ _ hc => exact Or.inl (hkeep hc)
  | issue => exact Or.inl (hkeep rfl)
  | answer _ _ hc => exact Or.inl (hkeep hc)

theorem started_step (hs : s.step w action = some s') (hcol : ∀ due, action ≠ .collect due) :
    s'.started = s.started := by
  obtain ⟨lease, -, rfl⟩ := Option.map_eq_some_iff.mp hs
  cases action with
  | collect due => exact absurd rfl (hcol due)
  | _ => rfl

/-- A healthy attempt whose pass is on is sent. -/
theorem Prompt.live (h : Prompt w lag s) (hslack : w.Slack lag) {due : List Ref} (hl : s.lease.loop = .sending due)
    (hx : x ∈ due) (ha : Healthy s x a) : x ∈ s.lease.live w.toEnv (due.take 1000) := by
  obtain ⟨hlen, hnow⟩ := h.short due hl
  rw [List.take_of_length_le hlen]
  have hdue := h.due due x a hl hx ha
  have hlt := hslack.youth_gap_lt
  have hno : a.overdue w.leaseS (s.lease.monotonic w.toEnv) = false := by
    rw [Attempt.overdue, decide_eq_false_iff_not, not_le, ← Sys.now, hnow (List.ne_nil_of_mem hx)]
    linarith only [hdue, hlt]
  refine List.mem_filter.mpr ⟨hx, ?_⟩
  rw [ha.get, Option.any_some, hno, Attempt.settled, ha.running, ha.cause]
  rfl

/-- What a step leaves healthy is old, has started in time, or was renewed in time. -/
theorem Prompt.turned (h : Prompt w lag s) (hr : Refreshing w.toEnv s.lease) (hs : s.step w action = some s')
    (hcol : ∀ due, action ≠ .collect due) (ha' : Healthy s' x a') :
    s'.started ≤ a'.renewedAt + w.youth lag ∨ ∃ a, Healthy s x a ∧ a'.renewedAt = a.renewedAt ∧
      ∀ c call, action = .reply c → s.lease.calls.get c = some call → x ∉ call.attempts := by
  have hbegan := h.began
  rw [started_step hs hcol]
  rcases turned_step hr (step_lease hs) hcol ha'.get with ⟨-, hp, -⟩ | ⟨a, ha, hturn⟩
  · rw [ha'.running] at hp
    cases hp
  obtain ⟨hget, hrun, hcause⟩ := ha'
  cases hturn with
  | fades hf hn => exact Or.inr ⟨a, ⟨ha, hf.running hrun, hf.cause hcause⟩, hf.renewedAt, hn⟩
  | start hp hd =>
      have hc := h.claimed x a ha
      have hy : w.heartbeatS ≤ w.youth lag := w.heartbeatS_le_youth
      have hd : s.now w - a.claimedAt ≤ w.heartbeatS := hd
      refine Or.inl ?_
      rw [Attempt.start]
      linarith only [hbegan, hc, hy, hd]
  | @reply c call beat a' hc hw hx hf =>
      refine Or.inl ?_
      have hnow := h.calls c call hc hw
      have hy : w.renewTimeoutS + lag ≤ w.youth lag := w.renewTimeoutS_le_youth
      suffices he : a'.renewedAt = call.started by linarith only [hbegan, hnow, hy, he]
      have hrenewed : ∀ b : Attempt, b.cause = none → b.renewedAt = (a.renewed call.started (s.lease.monotonic w.toEnv)
          beat).renewedAt → (b.cause = none → (a.renewed call.started (s.lease.monotonic w.toEnv) beat).cause = none) →
          b.renewedAt = call.started := by
        intro b hb he hn
        rw [he]
        have hn := hn hb
        unfold Attempt.renewed at hn ⊢
        split
        · cases hn
        · dsimp only
          split <;> rfl
      rcases hf with hf | ⟨-, rfl⟩
      · exact hrenewed a' hcause hf.renewedAt hf.cause
      · exact hrenewed _ hcause rfl id

theorem Prompt.fresh_step (h : Prompt w lag s) (hslack : w.Slack lag) (hlone : Lone s.lease)
    (hr : Refreshing w.toEnv s.lease) (hpunctual : s.punctual w lag action = true) (hs : s.step w action = some s')
    (ha' : Healthy s' x a') (hx' : x ∈ s'.lease.mapped) : Fresh w lag s' x a' := by
  have hlease := step_lease hs
  by_cases hcol : ∃ due, action = .collect due
  · obtain ⟨due, rfl⟩ := hcol
    obtain ⟨hl, hp, he⟩ := collect_step hlease
    by_cases hmem : x ∈ due
    · exact Or.inr (Or.inl ⟨due, by rw [he], hmem⟩)
    obtain ⟨hget, hrun, hcause⟩ := ha'
    rw [he] at hget hx'
    obtain ⟨a, ha, ⟨-, rfl⟩ | hf⟩ := Table.get_update_cases hget
    · refine Or.inl ?_
      have hnot : ¬ (x ∈ s.lease.due w.toEnv) := fun hx => hmem (hp.mem_iff.mpr hx)
      have hage : ¬ (w.heartbeatS / 2 ≤ s.now w - a'.renewedAt) := by
        intro hage
        refine hnot (List.mem_filter.mpr ⟨hx', ?_⟩)
        rw [ha, Option.any_some, Attempt.settled, hrun, hcause]
        simpa [Sys.now] using Or.inr hage
      have hy : w.heartbeatS ≤ w.youth lag := w.heartbeatS_le_youth
      have hpos := w.heartbeat_pos
      have hstarted : s'.started = s.now w := by
        obtain ⟨lease, -, rfl⟩ := Option.map_eq_some_iff.mp hs
        rfl
      rw [hstarted]
      linarith only [hage, hy, hpos]
    · rw [if_neg hmem] at hf
      cases hf
  have hcol : ∀ due, action ≠ .collect due := fun due he => hcol ⟨due, he⟩
  rcases h.turned hr hs hcol ha' with hyoung | ⟨a, ha, hrenewed, hn⟩
  · exact Or.inl hyoung
  have hx : x ∈ s.lease.mapped :=
    (mapped_step hlease hx').resolve_right fun hle => absurd (Table.lt_of_get ha.get) (Nat.not_lt.mpr hle)
  rcases h.fresh x a ha hx with hyoung | ⟨due, hl, hdue⟩ | ⟨c, call, rest, haw, hc, hxc⟩
  · exact Or.inl (by rwa [started_step hs hcol, hrenewed])
  · have hlive := h.live hslack hl hdue ha
    cases flow_step hlease with
    | same hl' => exact Or.inr (Or.inl ⟨due, hl'.trans hl, hdue⟩)
    | collect => exact absurd rfl (hcol _)
    | sleep hl' =>
        rw [hl] at hl'
        cases hl'
        cases hdue
    | @send due' _ call hl' _ hc hatt _ haw =>
        cases hl.symm.trans hl'
        exact Or.inr (Or.inr ⟨_, call, _, haw, hc, hatt ▸ hlive⟩)
    | skip hl' hnil =>
        cases hl.symm.trans hl'
        rw [hnil] at hlive
        cases hlive
    | answer hd => rw [hlone.waiting _ _ hd] at hl; cases hl
  · have hl := hlone.waiting _ _ haw
    cases flow_step hlease with
    | same _ hw =>
        have haw' := (hw c rest).mpr haw
        obtain ⟨call', hc', -⟩ := awaits_cases haw'
        rcases call_step hlease hc' with ⟨hle, -⟩ | ⟨call₀, hc₀, hmade, -⟩
        · exact absurd (Table.lt_of_get hc) (Nat.not_lt.mpr hle)
        · cases hc.symm.trans hc₀
          exact Or.inr (Or.inr ⟨c, call', rest, haw', hc', hmade.attempts ▸ hxc⟩)
    | collect => exact absurd rfl (hcol _)
    | sleep hl' => rw [hl] at hl'; cases hl'
    | send hl' => rw [hl] at hl'; cases hl'
    | skip hl' => rw [hl] at hl'; cases hl'
    | answer hd hact =>
        obtain rfl := hlone.unique _ _ _ _ haw hd
        rcases hact with rfl | rfl
        · exact absurd hxc (hn c call rfl hc)
        · obtain ⟨call', hc', -, hw'⟩ := awaits_cases haw
          simp [punctual, hc', hw'] at hpunctual

theorem Prompt.due_step (h : Prompt w lag s) (hslack : w.Slack lag) (hlone : Lone s.lease)
    (hr : Refreshing w.toEnv s.lease) (hs : s.step w action = some s') {due : List Ref}
    (hl' : s'.lease.loop = .sending due) (hx : x ∈ due) (ha' : Healthy s' x a') :
    s'.started ≤ a'.renewedAt + (w.youth lag + w.gap + lag) := by
  have hlease := step_lease hs
  have hg := w.gap_pos
  have hlag := hslack.nonneg
  by_cases hcol : ∃ due, action = .collect due
  · obtain ⟨due', rfl⟩ := hcol
    obtain ⟨hl, hp, he⟩ := collect_step hlease
    rw [he, Loop.sending.injEq] at hl'
    subst hl'
    obtain ⟨hget, hrun, hcause⟩ := ha'
    rw [he] at hget
    have hmapped : x ∈ s.lease.mapped := (List.mem_filter.mp (hp.mem_iff.mp hx)).1
    have hfresh : ∀ a, Healthy s x a → s.started ≤ a.renewedAt + w.youth lag := by
      intro a ha
      rcases h.fresh x a ha hmapped with hyoung | ⟨due, hl', -⟩ | ⟨c, call, rest, haw, -⟩
      · exact hyoung
      · rw [hl] at hl'; cases hl'
      · rw [hlone.waiting _ _ haw] at hl; cases hl
    have hnow := h.now_le
    have hstarted : s'.started = s.now w := by
      obtain ⟨lease, -, rfl⟩ := Option.map_eq_some_iff.mp hs
      rfl
    rw [hstarted]
    obtain ⟨a, ha, ⟨-, rfl⟩ | hf⟩ := Table.get_update_cases hget
    · have hyoung := hfresh a' ⟨ha, hrun, hcause⟩
      linarith only [hyoung, hnow]
    · rw [if_pos hx, Option.some.injEq] at hf
      subst hf
      have hyoung := hfresh a ⟨ha, hrun, hcause⟩
      dsimp only
      linarith only [hyoung, hnow]
  have hcol : ∀ due, action ≠ .collect due := fun due he => hcol ⟨due, he⟩
  rcases h.turned hr hs hcol ha' with hyoung | ⟨a, ha, hrenewed, -⟩
  · linarith only [hyoung, hg, hlag]
  · rw [started_step hs hcol, hrenewed]
    cases flow_step hlease with
    | same hl => exact h.due due x a (hl.symm.trans hl') hx ha
    | collect => exact absurd rfl (hcol _)
    | sleep _ hl => rw [hl] at hl'; cases hl'
    | send _ hl => rw [hl] at hl'; cases hl'
    | skip hl hlive hl'' =>
        rw [hl'', Loop.sending.injEq, List.drop_of_length_le (h.short _ hl).1] at hl'
        rw [← hl'] at hx
        cases hx
    | answer hd _ hl'' =>
        rw [hl'', Loop.sending.injEq, h.rest _ _ hd] at hl'
        rw [← hl'] at hx
        cases hx

theorem renewed_claimed {started now : Time} {beat : Option (Option Time)} (h : a.claimedAt ≤ a.renewedAt)
    (hs : a.claimedAt ≤ started) : (a.renewed started now beat).claimedAt ≤ (a.renewed started now beat).renewedAt := by
  unfold Attempt.renewed
  split
  · exact h
  · dsimp only
    split <;> exact hs

theorem Prompt.claimed_step (h : Prompt w lag s) (hr : Refreshing w.toEnv s.lease) (hb : Bounded w.toEnv s.lease)
    (hs : s.step w action = some s') (ha' : s'.lease.objects.get x = some a') : a'.claimedAt ≤ a'.renewedAt := by
  have hlease := step_lease hs
  by_cases hcol : ∃ due, action = .collect due
  · obtain ⟨due, rfl⟩ := hcol
    rw [(collect_step hlease).2.2] at ha'
    obtain ⟨a, ha, ⟨-, rfl⟩ | hf⟩ := Table.get_update_cases ha'
    · exact h.claimed x a' ha
    · obtain ⟨-, hf⟩ := Option.ite_none_right_eq_some.mp hf
      cases hf
      exact h.claimed x a ha
  rcases turned_step hr hlease (fun due he => hcol ⟨due, he⟩) ha' with ⟨-, -, he⟩ | ⟨a, ha, hturn⟩
  · exact he.le
  · have hle := h.claimed x a ha
    cases hturn with
    | fades hf => rwa [hf.claimedAt, hf.renewedAt]
    | start => exact hle
    | reply hc hw hx hf =>
        have hsent := ((hb.sent _ _ hc x hx).2 a ha).2
        rcases hf with hf | ⟨-, rfl⟩
        · rw [hf.claimedAt, hf.renewedAt]
          exact renewed_claimed hle hsent
        · exact renewed_claimed hle hsent

theorem Prompt.calls_step (h : Prompt w lag s) (hslack : w.Slack lag) (hpunctual : s.punctual w lag action = true)
    (hs : s.step w action = some s') {c : CallId} {call : Call} (hc : s'.lease.calls.get c = some call)
    (hw : call.waiting = true) : s'.now w ≤ call.started + w.renewTimeoutS + lag := by
  have hlease := step_lease hs
  rcases now_step hs with hn | ⟨t, rfl, -, hn⟩
  · rw [hn]
    rcases waiting_step hlease hc hw with he | ⟨call₀, hc₀, hw₀, he⟩
    · have hpos := w.renewTimeoutS_pos
      have hlag := hslack.nonneg
      have he : call.started = s.now w := he
      linarith only [he, hpos, hlag]
    · exact he ▸ h.calls c call₀ hc₀ hw₀
  · rw [hn]
    generalize s'.lease = lease at hlease hc
    cases steps_of_step hlease with
    | advance => exact (punctual_advance hpunctual).2.2 c call hc hw

theorem Prompt.short_step (h : Prompt w lag s) (hpunctual : s.punctual w lag action = true)
    (hs : s.step w action = some s') {due : List Ref} (hl' : s'.lease.loop = .sending due) :
    due.length ≤ 1000 ∧ (due ≠ [] → s'.now w = s'.started) := by
  have hlease := step_lease hs
  by_cases hcol : ∃ due, action = .collect due
  · obtain ⟨due', rfl⟩ := hcol
    rw [(collect_step hlease).2.2, Loop.sending.injEq] at hl'
    subst hl'
    refine ⟨of_decide_eq_true hpunctual, fun _ => ?_⟩
    rcases now_step hs with hn | ⟨t, he, -⟩
    · rw [hn]
      obtain ⟨lease, -, rfl⟩ := Option.map_eq_some_iff.mp hs
      rfl
    · cases he
  have hcol : ∀ due, action ≠ .collect due := fun due he => hcol ⟨due, he⟩
  cases flow_step hlease with
  | same hl =>
      have hl := hl.symm.trans hl'
      obtain ⟨hlen, hnow⟩ := h.short due hl
      refine ⟨hlen, fun hne => ?_⟩
      rw [started_step hs hcol, ← hnow hne]
      rcases now_step hs with hn | ⟨t, rfl, -, hn⟩
      · exact hn
      · rw [hn, (punctual_advance hpunctual).2.1 due hl hne]
        rfl
  | collect => exact absurd rfl (hcol _)
  | sleep _ hl => rw [hl] at hl'; cases hl'
  | send _ hl => rw [hl] at hl'; cases hl'
  | skip hl _ hl'' =>
      rw [hl'', Loop.sending.injEq, List.drop_of_length_le (h.short _ hl).1] at hl'
      subst hl'
      exact ⟨Nat.zero_le _, fun hne => absurd rfl hne⟩
  | answer hd _ hl'' =>
      rw [hl'', Loop.sending.injEq, h.rest _ _ hd] at hl'
      subst hl'
      exact ⟨Nat.zero_le _, fun hne => absurd rfl hne⟩

theorem Prompt.rest_step (h : Prompt w lag s) (hs : s.step w action = some s') {c : CallId} {rest : List Ref}
    (haw : Awaits s'.lease c rest) : rest = [] := by
  cases flow_step (step_lease hs) with
  | same _ hw | collect _ _ _ hw | sleep _ _ hw | skip _ _ _ hw => exact h.rest c rest ((hw c rest).mp haw)
  | send hl _ _ _ _ _ hw =>
      rcases hw c rest haw with haw | ⟨-, rfl⟩
      · exact h.rest c rest haw
      · exact List.drop_of_length_le (h.short _ hl).1
  | answer _ _ _ hw => exact h.rest c rest ((hw c rest).mp haw).1

theorem Prompt.step (h : Prompt w lag s) (hslack : w.Slack lag) (hlone : Lone s.lease)
    (hr : Refreshing w.toEnv s.lease) (hb : Bounded w.toEnv s.lease) (hpunctual : s.punctual w lag action = true)
    (hs : s.step w action = some s') : Prompt w lag s' := by
  have hg := w.gap_pos
  have hlag := hslack.nonneg
  have hstarted : s'.started = s.started ∨ s'.started = s'.now w := by
    by_cases hcol : ∃ due, action = .collect due
    · obtain ⟨due, rfl⟩ := hcol
      rcases now_step hs with hn | ⟨t, he, -⟩
      · rw [hn]
        obtain ⟨lease, -, rfl⟩ := Option.map_eq_some_iff.mp hs
        exact Or.inr rfl
      · cases he
    · exact Or.inl (started_step hs fun due he => hcol ⟨due, he⟩)
  refine ⟨?_, ?_, fun x a ha => h.claimed_step hr hb hs ha, fun c call hc hw => h.calls_step hslack hpunctual hs hc hw,
    fun due hl => h.short_step hpunctual hs hl, fun c rest haw => h.rest_step hs haw,
    fun x a ha hx => h.fresh_step hslack hlone hr hpunctual hs ha hx,
    fun due x a hl hx ha => h.due_step hslack hlone hr hs hl hx ha⟩
  · rcases hstarted with he | he
    · rw [he]
      rcases now_step hs with hn | ⟨t, -, hle, hn⟩
      · exact hn ▸ h.began
      · have hbegan : s.started ≤ s.lease.clock + w.skew := h.began
        rw [hn]
        linarith only [hbegan, hle]
    · exact he.le
  · rcases hstarted with he | he
    · rw [he]
      rcases now_step hs with hn | ⟨t, rfl, -, hn⟩
      · exact hn ▸ h.now_le
      · exact hn ▸ (punctual_advance hpunctual).1
    · rw [he]
      linarith only [hg, hlag]

/-- An attempt that a pass finds young is before its deadline until the reply to its call. -/
theorem Prompt.not_overdue (h : Prompt w lag s) (hslack : w.Slack lag) (hage : s.started ≤ a'.renewedAt + w.youth lag) :
    a'.overdue w.leaseS (s.lease.monotonic w.toEnv) = false := by
  have hnow : s.lease.monotonic w.toEnv ≤ s.started + w.gap + lag := h.now_le
  have hlt := hslack.youth_gap_lt
  rw [Attempt.overdue, decide_eq_false_iff_not, not_le]
  linarith only [hnow, hlt, hage]

theorem Prompt.not_overdue_send (h : Prompt w lag s) (hslack : w.Slack lag) (hlone : Lone s.lease)
    (hr : Refreshing w.toEnv s.lease) (hs : s.step w .send = some s') (ha : Healthy s x a)
    (ha' : s'.lease.objects.get x = some a') (hx : x ∈ s.lease.checks w.toEnv .send) :
    a'.overdue w.leaseS (s.lease.monotonic w.toEnv) = false := by
  have hrenewed : a'.renewedAt = a.renewedAt := by
    rcases turned_step hr (step_lease hs) (by simp) ha' with ⟨hle, -⟩ | ⟨b, hb, hturn⟩
    · exact absurd (Table.lt_of_get ha.get) (Nat.not_lt.mpr hle)
    · cases ha.get.symm.trans hb
      cases hturn with
      | fades hf => exact hf.renewedAt
  rw [Lease.Sys.checks] at hx
  cases hl : s.lease.loop with
  | idle => rw [hl] at hx; cases hx
  | waiting => rw [hl] at hx; cases hx
  | sending due =>
      rw [hl] at hx
      cases due with
      | nil => cases hx
      | cons y due =>
          have hdue : x ∈ y :: due → a'.overdue w.leaseS (s.lease.monotonic w.toEnv) = false := by
            intro hmem
            have hle := h.due _ x a hl hmem ha
            have hlt := hslack.youth_gap_lt
            have hnow : s.lease.monotonic w.toEnv = s.started := (h.short _ hl).2 (List.cons_ne_nil _ _)
            rw [Attempt.overdue, decide_eq_false_iff_not, not_le, hrenewed, hnow]
            linarith only [hle, hlt]
          have hmapped : x ∈ s.lease.mapped → a'.overdue w.leaseS (s.lease.monotonic w.toEnv) = false := by
            intro hmem
            rcases h.fresh x a ha hmem with hyoung | ⟨due', hl', hmem'⟩ | ⟨c, call, rest, haw, -⟩
            · exact h.not_overdue hslack (hrenewed ▸ hyoung)
            · rw [hl, Loop.sending.injEq] at hl'
              exact hdue (hl' ▸ hmem')
            · rw [hlone.waiting _ _ haw] at hl; cases hl
          dsimp only at hx
          split_ifs at hx with hlive
          · exact (List.mem_append.mp hx).elim (fun hm => hdue (List.mem_of_mem_take hm)) hmapped
          · exact hdue (List.mem_of_mem_take hx)

theorem Prompt.not_overdue_reply (h : Prompt w lag s) (hslack : w.Slack lag) (hlone : Lone s.lease) {c : CallId}
    (hs : s.step w (.reply c) = some s') (ha : Healthy s x a) (ha' : s'.lease.objects.get x = some a')
    (hx : x ∈ s.lease.checks w.toEnv (.reply c)) (hnot : ¬ Refused s.lease x a (.reply c)) :
    a'.overdue w.leaseS (s.lease.monotonic w.toEnv) = false := by
  have hlease := step_lease hs
  generalize s'.lease = lease at hlease ha'
  cases steps_of_step hlease with
  | @reply c call beats hc hst hw =>
      rw [Lease.Sys.checks, hc, Option.map_some] at hx
      cases hwaiter : call.waiter with
      | attempt y => rw [hwaiter] at hx; cases hx
      | loop rest =>
          rw [hwaiter] at hx
          obtain ⟨b, hb, hturn⟩ := resume_turn ha'
          have hrenewed : a'.renewedAt = b.renewedAt := by
            rcases hturn with hf | ⟨-, -, rfl⟩
            · exact hf.renewedAt
            · rfl
          refine h.not_overdue hslack ?_
          rw [hrenewed]
          have hbegan := h.began
          obtain ⟨a₀, ha₀, ⟨hn, rfl⟩ | hf⟩ := Table.get_update_cases hb
          · cases ha.get.symm.trans ha₀
            have hmem : x ∉ call.attempts := fun hx => by rw [if_pos hx] at hn; cases hn
            rcases h.fresh x a ha hx with hyoung | ⟨due, hl, -⟩ | ⟨c', call', rest', haw, hc', hxc⟩
            · exact hyoung
            · rw [hlone.waiting _ _ (awaits_of_get hc hw hwaiter)] at hl; cases hl
            · obtain rfl := hlone.unique _ _ _ _ haw (awaits_of_get hc hw hwaiter)
              cases hc.symm.trans hc'
              exact absurd hxc hmem
          · obtain ⟨hmem, hf⟩ := Option.ite_none_right_eq_some.mp hf
            cases ha.get.symm.trans ha₀
            have hnow := h.calls c call hc hw
            have hy : w.renewTimeoutS + lag ≤ w.youth lag := w.renewTimeoutS_le_youth
            suffices he : b.renewedAt = call.started by linarith only [hbegan, hnow, hy, he]
            rw [← Option.some.inj hf]
            cases hbeat : beats.lookup a.row with
            | none => exact absurd ⟨call, beats, hc, hst, hmem, hbeat⟩ hnot
            | some flag => cases flag <;> rfl

/-- In a punctual run only the database tells a healthy attempt that its lease is lost. -/
theorem Prompt.refused_of_lost (h : Prompt w lag s) (hslack : w.Slack lag) (hlone : Lone s.lease)
    (hr : Refreshing w.toEnv s.lease) (hpunctual : s.punctual w lag action = true) (hs : s.step w action = some s')
    (ha : Healthy s x a) (ha' : s'.lease.objects.get x = some a') (hl : a'.cause = some .lost) :
    Refused s.lease x a action := by
  by_contra hnot
  obtain ⟨hx, ho⟩ := (lost_step (step_lease hs) ha.get ha' ha.cause hl).resolve_right hnot
  suffices hno : a'.overdue w.leaseS (s.lease.monotonic w.toEnv) = false by
    rw [hno] at ho
    cases ho
  cases action with
  | begin y =>
      have hlease := step_lease hs
      generalize s'.lease = lease at hlease
      cases steps_of_step hlease with
      | @begin _ b hb hp =>
          rw [Lease.Sys.checks] at hx
          split_ifs at hx with hlate
          · cases List.mem_singleton.mp hx
            cases ha.get.symm.trans hb
            rw [ha.running] at hp
            cases hp
          · cases hx
  | send => exact h.not_overdue_send hslack hlone hr hs ha ha' hx
  | reply c => exact h.not_overdue_reply hslack hlone hs ha ha' hx hnot
  | giveUp c =>
      rw [Lease.Sys.checks] at hx
      cases hc : s.lease.calls.get c with
      | none => rw [hc] at hx; cases hx
      | some call =>
          rw [hc, Option.map_some] at hx
          cases hwaiter : call.waiter with
          | attempt y => rw [hwaiter] at hx; cases hx
          | loop rest => simp [punctual, hc, hwaiter] at hpunctual
  | _ => cases hx

end Fronta.Renewals
