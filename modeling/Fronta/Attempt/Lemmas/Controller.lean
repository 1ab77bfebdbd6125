import Fronta.Attempt.Lemmas.Errors

/-!
# Steps of the controller

A step that submits is the last one of the controller, so an attempt submits at most once. What is seen of an
attempt has its verdict before that, and the stages in between keep to it.
-/

namespace Fronta.Attempt

open Unicode Codec Runs
open Worker (Cause)

variable {w : Env} {s s' : Sys} {h h' : History} {cause : Option Cause} {e : End} {action : Action} {v : Verdict}
  {outcome : Option Outcome} {stopped : Bool}

/-! ## Outcomes -/

theorem finishStopped_ok {timeout : Decimal} : ∃ outcome, finishStopped cause timeout = .ok outcome ∧
    outcome.map Outcome.kind = stopKind cause := by
  cases cause with
  | none => exact ⟨none, rfl, rfl⟩
  | some c =>
      cases c with
      | timeout =>
          obtain ⟨text, htext⟩ := Dict.encode_ok.mpr timedOut_storable
          exact ⟨some ⟨.fail, some text⟩, bind_ok.mpr ⟨text, htext, rfl⟩, rfl⟩
      | cancel => exact ⟨some ⟨.cancel, none⟩, rfl, rfl⟩
      | shutdown => exact ⟨some ⟨.release, none⟩, rfl, rfl⟩
      | lost => exact ⟨none, rfl, rfl⟩

theorem submits_ok {x : Except Raised Text} {kind : CompletionKind} (h : ∃ text, x = .ok text) :
    ∃ outcome, (do return some (Outcome.mk kind (some (← x)))) = Except.ok outcome ∧
      outcome.map Outcome.kind = some kind := by
  obtain ⟨text, rfl⟩ := h
  exact ⟨some ⟨kind, some text⟩, rfl, rfl⟩

theorem finishCompleted_ok {settings : Settings} {str : Value → Except Raised Text}
    (h : cause = some .lost ∨ storable str e = true) :
    ∃ outcome, finishCompleted str settings cause e = .ok outcome ∧
      outcome.map Outcome.kind = if cause = some .lost then none else some (endKind e) := by
  unfold finishCompleted
  split_ifs with hl
  · exact ⟨none, rfl, rfl⟩
  · have hs : storable str e = true := h.resolve_left hl
    cases e with
    | result text => exact ⟨some ⟨.succeed, some text⟩, rfl, rfl⟩
    | cancelled => exact submits_ok (Dict.encode_ok.mpr selfCancelled_storable)
    | raised exc cls =>
        cases cls with
        | process metadata =>
            refine submits_ok (metadataJson_ok.mpr ?_)
            rcases (Bool.or_eq_true _ _).mp hs with hs | hs
            · cases he : encode metadata.value with
              | ok text => exact Or.inl (Dict.encode_ok.mp ⟨text, he⟩)
              | error failure => simp [he, Except.isOk, Except.toBool] at hs
            · split at hs
              · exact Or.inr ⟨_, by assumption, of_decide_eq_true hs⟩
              · cases hs
        | final =>
            simp only [storable, Bool.and_eq_true, decide_eq_true_eq] at hs
            exact submits_ok (errorJson_ok.mpr hs)
        | other =>
            simp only [storable, Bool.and_eq_true, decide_eq_true_eq] at hs
            exact submits_ok (errorJson_ok.mpr hs)

/-! ## What a step does -/

/-- A reply leaves the attempt as it is or stops it. -/
theorem renewed_cases (s : Sys) (reply : Reply) :
    s.renewed reply = s ∨ ∃ cause, s.renewed reply = s.stop cause := by
  cases reply with
  | overdue => exact Or.inr ⟨.lost, rfl⟩
  | failed => exact Or.inl rfl
  | rejected => exact Or.inr ⟨.lost, rfl⟩
  | confirmed cancelRequested =>
      cases cancelRequested with
      | false => exact Or.inl rfl
      | true => exact Or.inr ⟨.cancel, rfl⟩

@[simp] theorem stage_renewed (reply : Reply) : (s.renewed reply).stage = s.stage := by
  rcases renewed_cases s reply with he | ⟨cause, he⟩
  · rw [he]
  · rw [he, Sys.stop]

@[simp] theorem runner_renewed (reply : Reply) : (s.renewed reply).runner = s.runner := by
  rcases renewed_cases s reply with he | ⟨cause, he⟩
  · rw [he]
  · rw [he, Sys.stop]

@[simp] theorem submitted_renewed (reply : Reply) : (s.renewed reply).submitted = s.submitted := by
  rcases renewed_cases s reply with he | ⟨cause, he⟩
  · rw [he]
  · rw [he, Sys.stop]

theorem runnerDone_iff : s.runnerDone = true ↔ ∃ e, s.runner = .ended e := by
  unfold Sys.runnerDone
  split
  · exact iff_of_true rfl ⟨_, by assumption⟩
  · exact iff_of_false nofun fun ⟨e, he⟩ => by simp_all

theorem finish_cases : s.finish w stopped = s ∨ ∃ outcome, s.finish w stopped = s.submit outcome := by
  unfold Sys.finish
  split_ifs
  · split
    · exact Or.inr ⟨_, rfl⟩
    · exact Or.inr ⟨_, rfl⟩
  · split
    · split
      · exact Or.inr ⟨_, rfl⟩
      · exact Or.inr ⟨_, rfl⟩
    · exact Or.inl rfl

theorem conclude_cases : s.conclude w stopped = { s with stage := .verifying stopped } ∨
    s.conclude w stopped = s.finish w stopped := by
  unfold Sys.conclude
  split_ifs
  · exact Or.inl rfl
  · exact Or.inr rfl

@[simp] theorem cause_finish : (s.finish w stopped).cause = s.cause := by
  rcases @finish_cases w s stopped with he | ⟨outcome, he⟩
  · rw [he]
  · rw [he, Sys.submit]

@[simp] theorem cause_conclude : (s.conclude w stopped).cause = s.cause := by
  rcases @conclude_cases w s stopped with he | he
  · rw [he]
  · rw [he, cause_finish]

/-! ## At most one submission -/

structure Inv (s : Sys) : Prop where
  absent : s.stage = .created ∨ s.stage = .refreshing → s.runner = .absent
  judged : s.stage = .verifying false → s.runnerDone = true
  unsubmitted : s.stage ≠ .done → s.submitted = []
  once : s.submitted.length ≤ 1

theorem Inv.init : Inv .init where
  absent _ := rfl
  judged hs := by cases hs
  unsubmitted _ := rfl
  once := Nat.zero_le _

/-- The controller goes on to another place. -/
theorem Inv.go (hi : Inv s) (hs : s.stage ≠ .done) {cause : Option Cause} {stopEvent fatal : Bool} {stage : Stage}
    {runner : Runner} (ha : stage = .created ∨ stage = .refreshing → runner = .absent)
    (hj : stage ≠ .verifying false ∨ s.runnerDone = true ∧ runner = s.runner) :
    Inv { s with cause := cause, stopEvent := stopEvent, stage := stage, runner := runner, fatal := fatal } where
  absent := ha
  judged hs := by
    obtain ⟨hd, rfl⟩ := hj.resolve_left fun hn => hn hs
    exact hd
  unsubmitted _ := hi.unsubmitted hs
  once := hi.once

theorem Inv.submit (hi : Inv s) (hs : s.stage ≠ .done) : Inv (s.submit outcome) where
  absent h := by simp [Sys.submit] at h
  judged h := by cases h
  unsubmitted h := absurd rfl h
  once := by
    simp only [Sys.submit, hi.unsubmitted hs, List.nil_append]
    cases outcome <;> simp

theorem Inv.stop (hi : Inv s) (c : Cause) : Inv (s.stop c) :=
  ⟨hi.absent, hi.judged, hi.unsubmitted, hi.once⟩

theorem Inv.start (hi : Inv s) (hs : s.stage ≠ .done) : Inv s.start :=
  hi.go hs (by simp) (Or.inl nofun)

theorem Inv.renewed (hi : Inv s) (reply : Reply) : Inv (s.renewed reply) := by
  rcases renewed_cases s reply with he | ⟨cause, he⟩
  · rwa [he]
  · rw [he]
    exact hi.stop cause

theorem Inv.refreshed (hi : Inv s) (reply : Reply) (hs : s.stage ≠ .done) : Inv (s.refreshed reply) := by
  have hr := hi.renewed reply
  have hd : (s.renewed reply).stage ≠ .done := by rwa [stage_renewed]
  simp only [Sys.refreshed]
  split_ifs
  · exact hr.submit hd
  · exact hr.submit hd
  · exact hr.start hd

theorem Inv.finish (hi : Inv s) (hs : s.stage ≠ .done) : Inv (s.finish w stopped) := by
  rcases @finish_cases w s stopped with he | ⟨outcome, he⟩
  · rwa [he]
  · rw [he]
    exact hi.submit hs

theorem Inv.conclude (hi : Inv s) (hs : s.stage ≠ .done) (hj : stopped = true ∨ s.runnerDone = true) :
    Inv (s.conclude w stopped) := by
  rcases @conclude_cases w s stopped with he | he
  · rw [he]
    refine hi.go hs (by simp) ?_
    rcases hj with rfl | hd
    · exact Or.inl nofun
    · exact Or.inr ⟨hd, rfl⟩
  · rw [he]
    exact hi.finish hs

theorem Inv.step (hi : Inv s) (hs : s.step w action = some s') : Inv s' := by
  cases action with
  | stop c =>
      cases hs
      exact hi.stop c
  | ends e =>
      simp only [Sys.step] at hs
      split at hs
      · rename_i hr
        cases hs
        refine ⟨fun hc => ?_, fun _ => rfl, hi.unsubmitted, hi.once⟩
        cases hr.symm.trans (hi.absent hc)
      · cases hs
  | dispatch late =>
      obtain ⟨hc, hs⟩ := Option.ite_none_right_eq_some.mp hs
      have hd : s.stage ≠ .done := by rw [hc]; nofun
      cases late with
      | true =>
          cases hs
          exact hi.go hd (fun _ => hi.absent (Or.inl hc)) (Or.inl nofun)
      | false =>
          cases hs
          exact hi.start hd
  | renewal reply =>
      obtain ⟨hc, hs⟩ := Option.ite_none_right_eq_some.mp hs
      cases hs
      exact hi.refreshed reply (by rw [hc]; nofun)
  | wake timedOut =>
      obtain ⟨⟨hc, -⟩, hs⟩ := Option.ite_none_right_eq_some.mp hs
      have hd : s.stage ≠ .done := by rw [hc]; nofun
      split_ifs at hs with hr
      · cases hs
        exact hi.conclude hd (Or.inr hr)
      · cases hs
        exact hi.go hd (by simp) (Or.inl nofun)
  | stopExecution failed =>
      obtain ⟨hc, hs⟩ := Option.ite_none_right_eq_some.mp hs
      cases hs
      exact hi.go (by rw [hc]; nofun) (by simp) (Or.inl nofun)
  | graceOver =>
      obtain ⟨hc, hs⟩ := Option.ite_none_right_eq_some.mp hs
      have hd : s.stage ≠ .done := by rw [hc]; nofun
      split_ifs at hs
      · cases hs
        exact hi.conclude hd (Or.inl rfl)
      · cases hs
        exact hi.go hd (by simp) (Or.inl nofun)
  | kill verified =>
      obtain ⟨hc, hs⟩ := Option.ite_none_right_eq_some.mp hs
      cases hs
      exact hi.go (by rw [hc]; nofun) (by simp) (Or.inl nofun)
  | killOver =>
      obtain ⟨hc, hs⟩ := Option.ite_none_right_eq_some.mp hs
      have hd : s.stage ≠ .done := by rw [hc]; nofun
      split_ifs at hs
      · cases hs
        exact hi.conclude hd (Or.inl rfl)
      · cases hs
        exact hi.go hd (by simp) (Or.inl nofun)
      · cases hs
        have hf : Inv { s with fatal := true } := ⟨hi.absent, hi.judged, hi.unsubmitted, hi.once⟩
        exact hf.conclude hd (Or.inl rfl)
  | abortOver =>
      obtain ⟨hc, hs⟩ := Option.ite_none_right_eq_some.mp hs
      cases hs
      exact hi.conclude (by rw [hc]; nofun) (Or.inl rfl)
  | verify verified =>
      simp only [Sys.step] at hs
      split at hs
      · rename_i hc
        cases verified with
        | true =>
            cases hs
            exact hi.finish (by rw [hc]; nofun)
        | false =>
            cases hs
            exact hi
      · cases hs

/-! ## The controller comes to its end -/

/-- The controller can end the attempt with steps of its own. -/
def CanEnd (w : Env) (s : Sys) : Prop :=
  ∃ more s', (∀ action ∈ more, action.own = true) ∧ run (Sys.step w) s more = some s' ∧ s'.stage = .done

theorem CanEnd.done (hs : s.stage = .done) : CanEnd w s := ⟨[], s, nofun, rfl, hs⟩

theorem CanEnd.cons (ho : action.own = true) (hs : s.step w action = some s') (h : CanEnd w s') : CanEnd w s := by
  obtain ⟨more, t, hmore, hr, ht⟩ := h
  exact ⟨action :: more, t, List.forall_mem_cons.mpr ⟨ho, hmore⟩, run_cons.mpr ⟨s', hs, hr⟩, ht⟩

theorem stage_finish (h : stopped = true ∨ s.runnerDone = true) : (s.finish w stopped).stage = .done := by
  unfold Sys.finish
  split_ifs with hst
  · split <;> rfl
  · obtain ⟨e, he⟩ := runnerDone_iff.mp (h.resolve_left hst)
    simp only [he]
    split <;> rfl

theorem CanEnd.verifying (hs : s.stage = .verifying stopped) (h : stopped = true ∨ s.runnerDone = true) :
    CanEnd w s := by
  have hv : s.step w (.verify true) = some (s.finish w stopped) := by simp [Sys.step, hs]
  exact .cons rfl hv (.done (stage_finish h))

theorem CanEnd.conclude (h : stopped = true ∨ s.runnerDone = true) : CanEnd w (s.conclude w stopped) := by
  rcases @conclude_cases w s stopped with he | he
  · rw [he]
    exact .verifying rfl h
  · rw [he]
    exact .done (stage_finish h)

theorem CanEnd.aborting (hs : s.stage = .aborting) : CanEnd w s :=
  @CanEnd.cons w s _ .abortOver rfl (if_pos hs) (.conclude (Or.inl rfl))

theorem CanEnd.killed (hs : s.stage = .killed) : CanEnd w s := by
  refine @CanEnd.cons w s _ .killOver rfl (if_pos hs) ?_
  split_ifs
  · exact .conclude (Or.inl rfl)
  · exact .aborting rfl
  · exact .conclude (Or.inl rfl)

theorem CanEnd.killing (hs : s.stage = .killing) : CanEnd w s :=
  @CanEnd.cons w s _ (.kill true) rfl (if_pos hs) (.killed rfl)

theorem CanEnd.grace (hs : s.stage = .grace) : CanEnd w s := by
  refine @CanEnd.cons w s _ .graceOver rfl (if_pos hs) ?_
  split_ifs
  · exact .conclude (Or.inl rfl)
  · exact .killing rfl

theorem CanEnd.stopping (hs : s.stage = .stopping) : CanEnd w s :=
  @CanEnd.cons w s _ (.stopExecution false) rfl (if_pos hs) (.grace rfl)

/-- The timer wakes the controller where nothing else does. -/
theorem CanEnd.waiting (hs : s.stage = .waiting) : CanEnd w s := by
  have hw : s.stage = .waiting ∧ (s.runnerDone = true ∨ s.stopEvent = true ∨ true = true) :=
    ⟨hs, Or.inr (Or.inr rfl)⟩
  by_cases hr : s.runnerDone = true
  · exact @CanEnd.cons w s _ (.wake true) rfl ((if_pos hw).trans (if_pos hr)) (.conclude (Or.inr hr))
  · exact @CanEnd.cons w s _ (.wake true) rfl ((if_pos hw).trans (if_neg hr)) (.stopping rfl)

theorem CanEnd.refreshing (hs : s.stage = .refreshing) : CanEnd w s := by
  refine @CanEnd.cons w s _ (.renewal .failed) rfl (if_pos hs) (.done ?_)
  simp only [Sys.refreshed]
  split_ifs with hl ha
  · rfl
  · rfl
  · exact absurd rfl ha

theorem step_history : h.step w action = some h' ↔ ∃ s, h.sys.step w action = some s ∧ h' = h.next action s := by
  simp only [History.step, Option.map_eq_some_iff, @eq_comm _ h']

/-- The first stop request is the recorded cause, and what a verdict rests on has been asked for. -/
structure Seen (h : History) : Prop where
  cause : h.sys.cause = h.asked.head?
  asked : ∀ v, h.verdict = some v → v.asked <+: h.asked
  stopped : ∀ v, h.verdict = some v → v.ground = .stopped → v.asked ≠ []

theorem Seen.init : Seen .init where
  cause := rfl
  asked _ hv := by cases hv
  stopped _ hv := by cases hv

theorem Seen.cause_stop (hh : Seen h) (c : Cause) : (h.sys.stop c).cause = (h.asked ++ [c]).head? := by
  simp only [Sys.stop, hh.cause]
  cases h.asked <;> rfl

theorem Seen.cause_renewed (hh : Seen h) (reply : Reply) :
    (h.sys.renewed reply).cause = (h.asked ++ h.asks (.renewal reply)).head? := by
  cases reply with
  | overdue => exact hh.cause_stop .lost
  | failed => simpa [History.asks, Sys.renewed] using hh.cause
  | rejected => exact hh.cause_stop .lost
  | confirmed cancelRequested =>
      cases cancelRequested with
      | false => simpa [History.asks, Sys.renewed] using hh.cause
      | true => exact hh.cause_stop .cancel

/-- The cause after a step is the first of what was asked for up to it. -/
theorem Seen.cause_step (hh : Seen h) (hs : h.sys.step w action = some s') :
    s'.cause = (h.asked ++ h.asks action).head? := by
  have hc := hh.cause
  cases action with
  | stop c =>
      cases hs
      exact hh.cause_stop c
  | ends e =>
      simp only [Sys.step] at hs
      split at hs <;> cases hs
      simpa [History.asks] using hc
  | dispatch late =>
      obtain ⟨-, hs⟩ := Option.ite_none_right_eq_some.mp hs
      cases late <;> cases hs <;> simpa [History.asks, Sys.start] using hc
  | renewal reply =>
      obtain ⟨-, hs⟩ := Option.ite_none_right_eq_some.mp hs
      cases hs
      rw [← hh.cause_renewed, Sys.refreshed]
      split_ifs <;> rfl
  | wake timedOut =>
      obtain ⟨-, hs⟩ := Option.ite_none_right_eq_some.mp hs
      by_cases hr : h.sys.runnerDone = true
      · rw [if_pos hr] at hs
        cases hs
        simpa [History.asks, hr] using hc
      · rw [if_neg hr] at hs
        cases hs
        cases ha : h.asked <;> simp [History.asks, hr, ha, hc]
  | stopExecution failed =>
      obtain ⟨-, hs⟩ := Option.ite_none_right_eq_some.mp hs
      cases hs
      simpa [History.asks] using hc
  | graceOver =>
      obtain ⟨-, hs⟩ := Option.ite_none_right_eq_some.mp hs
      split_ifs at hs <;> cases hs <;> simpa [History.asks] using hc
  | kill verified =>
      obtain ⟨-, hs⟩ := Option.ite_none_right_eq_some.mp hs
      cases hs
      simpa [History.asks] using hc
  | killOver =>
      obtain ⟨-, hs⟩ := Option.ite_none_right_eq_some.mp hs
      split_ifs at hs <;> cases hs <;> simpa [History.asks] using hc
  | abortOver =>
      obtain ⟨-, hs⟩ := Option.ite_none_right_eq_some.mp hs
      cases hs
      simpa [History.asks] using hc
  | verify verified =>
      simp only [Sys.step] at hs
      split at hs
      · cases verified <;> cases hs <;> simpa [History.asks] using hc
      · cases hs

/-- A verdict that is there stays, and a new one is what the action gives. -/
theorem verdict_next (hv : (h.next action s').verdict = some v) :
    h.verdict = some v ∨ h.verdict = none ∧ h.ground action = some v.ground ∧
      v.asked = h.asked ++ h.asks action := by
  simp only [History.next, Option.or_eq_some_iff, Option.map_eq_some_iff] at hv
  rcases hv with hv | ⟨hn, ground, hg, rfl⟩
  · exact Or.inl hv
  · exact Or.inr ⟨hn, hg, rfl⟩

theorem Seen.step (hh : Seen h) (hs : h.step w action = some h') : Seen h' := by
  obtain ⟨s, hstep, rfl⟩ := step_history.mp hs
  refine ⟨hh.cause_step hstep, fun v hv => ?_, fun v hv hg => ?_⟩
  · rcases verdict_next hv with hv | ⟨-, -, ha⟩
    · exact (hh.asked v hv).trans (List.prefix_append _ _)
    · exact ha ▸ List.prefix_rfl
  · rcases verdict_next hv with hv | ⟨-, hground, ha⟩
    · exact hh.stopped v hv hg
    · -- Only a wake gives this ground, and the timer asks where nothing else did.
      rw [hg] at hground
      rw [ha]
      cases action with
      | wake timedOut =>
          have hr : ¬h.sys.runnerDone = true := by
            rw [runnerDone_iff]
            rintro ⟨e, he⟩
            simp [History.ground, he] at hground
          cases hasked : h.asked <;> simp [History.asks, hr, hasked]
      | renewal reply => cases reply <;> simp [History.ground] at hground
      | _ => simp [History.ground] at hground

/-- Where there is a stop to act on, the recorded cause is the one that it was acted on for. -/
theorem Seen.cause_stopped (hh : Seen h) (hv : h.verdict = some v) (hg : v.ground = .stopped) :
    h.sys.cause = v.asked.head? := by
  obtain ⟨more, hm⟩ := hh.asked v hv
  rw [hh.cause, ← hm]
  cases ha : v.asked with
  | nil => exact absurd ha (hh.stopped v hv hg)
  | cons c cs => rfl

/-! ## The verdict -/

/-- How far the decision is. -/
inductive Phase
  | early
  | stopped
  | ended
  | settled

def Stage.phase : Stage → Phase
  | .created | .refreshing | .waiting => .early
  | .verifying false => .ended
  | .done => .settled
  | _ => .stopped

/-- The controller keeps to the verdict. -/
structure Sound (h : History) : Prop where
  early : h.sys.stage.phase = .early → h.verdict = none
  stopped : h.sys.stage.phase = .stopped → ∃ asked, h.verdict = some ⟨asked, .stopped⟩
  ended : h.sys.stage.phase = .ended → ∃ asked e, h.verdict = some ⟨asked, .ended e⟩ ∧ h.sys.runner = .ended e
  settled : h.sys.stage = .done → ∃ v, h.verdict = some v ∧
    h.sys.submitted.map Outcome.kind = (v.kind h.closing).toList
  renewal : ∀ v reply, h.verdict = some v → v.ground = .renewal reply →
    h.sys.stage = .done ∧ h.sys.runner = .absent

theorem Sound.init : Sound .init where
  early _ := rfl
  stopped hp := by cases hp
  ended hp := by cases hp
  settled hs := by cases hs
  renewal _ _ hv := by cases hv

theorem verdict_quiet (hg : h.ground action = none) : (h.next action s').verdict = h.verdict := by
  simp [History.next, hg]

/-- Something happens beside the controller. -/
theorem Sound.aside (hd : Sound h) (hg : h.ground action = none) (hs : s'.stage = h.sys.stage)
    (hsub : s'.submitted = h.sys.submitted) (hr : s'.runner = h.sys.runner ∨ h.sys.runner = .running) :
    Sound (h.next action s') := by
  have hv : (h.next action s').verdict = h.verdict := verdict_quiet hg
  refine ⟨fun hp => ?_, fun hp => ?_, fun hp => ?_, fun hdone => ?_, fun v reply hve hrej => ?_⟩
  · exact hv.trans (hd.early (hs ▸ hp))
  · rw [hv]
    exact hd.stopped (hs ▸ hp)
  · obtain ⟨asked, e, hve, he⟩ := hd.ended (hs ▸ hp)
    refine ⟨asked, e, hv.trans hve, ?_⟩
    rcases hr with hr | hr
    · exact hr.trans he
    · cases hr.symm.trans he
  · have hdone : h.sys.stage = .done := hs.symm.trans hdone
    obtain ⟨v, hve, hk⟩ := hd.settled hdone
    refine ⟨v, hv.trans hve, ?_⟩
    simp only [History.next, hdone, if_true, hsub]
    exact hk
  · obtain ⟨hdone, ha⟩ := hd.renewal v reply (hv ▸ hve) hrej
    refine ⟨hs.trans hdone, ?_⟩
    rcases hr with hr | hr
    · exact hr.trans ha
    · cases hr.symm.trans ha

/-- The controller goes on, with no more to decide. -/
theorem Sound.go (hd : Sound h) (hg : h.ground action = none) (hs : h.sys.stage ≠ .done)
    (hp : s'.stage.phase = h.sys.stage.phase) (hr : ∀ e, h.sys.runner = .ended e → s'.runner = .ended e) :
    Sound (h.next action s') := by
  have hv : (h.next action s').verdict = h.verdict := verdict_quiet hg
  have hsettled : h.sys.stage.phase ≠ .settled := by
    unfold Stage.phase
    split <;> simp_all
  refine ⟨fun he => ?_, fun he => ?_, fun he => ?_, fun hdone => ?_, fun v reply hve hrej => ?_⟩
  · exact hv.trans (hd.early (hp ▸ he))
  · rw [hv]
    exact hd.stopped (hp ▸ he)
  · obtain ⟨asked, e, hve, he⟩ := hd.ended (hp ▸ he)
    exact ⟨asked, e, hv.trans hve, hr e he⟩
  · have hdone : s'.stage = .done := hdone
    exact absurd (hp.symm.trans (congrArg Stage.phase hdone)) hsettled
  · exact absurd (hd.renewal v reply (hv ▸ hve) hrej).1 hs

/-- The outcome is submitted as the verdict asks for. -/
theorem Sound.submit (hs : h.sys.stage ≠ .done) (hu : s'.submitted = [])
    (hv : (h.next action (s'.submit outcome)).verdict = some v)
    (ho : outcome.map Outcome.kind = v.kind (h.asked ++ h.asks action))
    (hr : ∀ reply, v.ground = .renewal reply → s'.runner = .absent) :
    Sound (h.next action (s'.submit outcome)) := by
  refine ⟨fun hp => ?_, fun hp => ?_, fun hp => ?_, fun _ => ⟨v, hv, ?_⟩, fun v' reply hv' hrej => ⟨rfl, ?_⟩⟩
  · cases hp
  · cases hp
  · cases hp
  · simp only [History.next, Sys.submit, hs, if_false, ← ho, hu, List.nil_append]
    cases outcome <;> rfl
  · cases hv.symm.trans hv'
    exact hr reply hrej

theorem Sound.finish_stopped (hd : Sound h) (hi : Inv h.sys) (hh : Seen h) (hg : h.ground action = none)
    (hp : h.sys.stage.phase = .stopped) {fatal : Bool} :
    Sound (h.next action (Sys.finish w { h.sys with fatal := fatal } true)) := by
  have hs : h.sys.stage ≠ .done := fun hs => by rw [hs] at hp; cases hp
  obtain ⟨asked, hv⟩ := hd.stopped hp
  obtain ⟨outcome, ho, hk⟩ := @finishStopped_ok h.sys.cause w.timeout
  simp only [Sys.finish, if_true, ho]
  refine Sound.submit hs (hi.unsubmitted hs) ((verdict_quiet hg).trans hv) ?_ nofun
  rw [hk, hh.cause_stopped hv rfl]
  rfl

theorem Sound.finish_ended (hi : Inv h.sys) (hh : Seen h) (hs : h.sys.stage ≠ .done)
    (hr : h.sys.runner = .ended e) (ha : h.asks action = []) {asked : List Cause}
    (hv : h.verdict.or ((h.ground action).map (Verdict.mk (h.asked ++ h.asks action))) = some ⟨asked, .ended e⟩)
    (hb : h.sys.cause = some .lost ∨ storable w.str e = true) :
    Sound (h.next action (h.sys.finish w false)) := by
  obtain ⟨outcome, ho, hk⟩ := @finishCompleted_ok _ _ w.settings _ hb
  simp only [Sys.finish, Bool.false_eq_true, if_false, hr, ho]
  refine Sound.submit hs (hi.unsubmitted hs) hv ?_ nofun
  rw [hk, hh.cause, ha, List.append_nil]
  rfl

theorem Sound.conclude_stopped (hd : Sound h) (hi : Inv h.sys) (hh : Seen h) (hg : h.ground action = none)
    (hp : h.sys.stage.phase = .stopped) {fatal : Bool} :
    Sound (h.next action (Sys.conclude w { h.sys with fatal := fatal } true)) := by
  unfold Sys.conclude
  split_ifs
  · exact hd.go hg (fun hs => by rw [hs] at hp; cases hp) (by rw [hp]; rfl) fun _ he => he
  · exact hd.finish_stopped hi hh hg hp

theorem kind_lost {asked closing : List Cause} (hl : asked.head? = some .lost) (reply : Reply) :
    (Verdict.mk asked (.renewal reply)).kind closing = none := by
  cases reply <;> simp [Verdict.kind, hl]

theorem kind_unanswered {asked closing : List Cause} {reply : Reply} (hl : asked.head? ≠ some .lost)
    (ha : (!reply.answered) = true) :
    (Verdict.mk asked (.renewal reply)).kind closing = some .release := by
  cases reply <;> simp [Reply.answered] at ha <;> simp [Verdict.kind, hl]

theorem ground_renewal {reply : Reply} (hr : ∀ c, reply = .confirmed c → h.asked.head? = some .lost) :
    h.ground (.renewal reply) = some (.renewal reply) := by
  cases reply with
  | confirmed c => exact if_pos (hr c rfl)
  | _ => rfl

theorem Sound.refreshed (hd : Sound h) (hi : Inv h.sys) (hh : Seen h) (reply : Reply)
    (hs : h.sys.stage = .refreshing)
    (ho : reply = .rejected → h.sys.cause = none ∨ h.sys.cause = some .lost) :
    Sound (h.next (.renewal reply) (h.sys.refreshed reply)) := by
  have hnd : h.sys.stage ≠ .done := by rw [hs]; nofun
  have habsent : h.sys.runner = .absent := hi.absent (Or.inr hs)
  have hu : (h.sys.renewed reply).submitted = [] := (submitted_renewed reply).trans (hi.unsubmitted hnd)
  have hr : (h.sys.renewed reply).runner = .absent := (runner_renewed reply).trans habsent
  have hc := hh.cause_renewed reply
  have hv : ∀ s, (h.next (.renewal reply) s).verdict =
      (h.ground (.renewal reply)).map (Verdict.mk (h.asked ++ h.asks (.renewal reply))) := by
    simp [History.next, hd.early (by rw [hs]; rfl)]
  simp only [Sys.refreshed]
  split_ifs with hl ha
  · rw [hc] at hl
    have hg : h.ground (.renewal reply) = some (.renewal reply) := ground_renewal (by
      rintro c rfl
      cases hasked : h.asked <;> cases c <;> simp_all [History.asks])
    exact Sound.submit hnd hu (by rw [hv, hg]; rfl) (kind_lost hl reply).symm fun _ _ => hr
  · rw [hc] at hl
    have hg : h.ground (.renewal reply) = some (.renewal reply) := ground_renewal (by
      rintro c rfl
      cases ha)
    exact Sound.submit hnd hu (by rw [hv, hg]; rfl) (kind_unanswered hl ha).symm fun _ _ => hr
  · -- A rejection finds no other cause, so the answer has the row.
    have hg : h.ground (.renewal reply) = none := by
      cases reply with
      | overdue => cases ha rfl
      | failed => cases ha rfl
      | rejected => rcases ho rfl with hn | hn <;> simp [Sys.renewed, Sys.stop, hn] at hl
      | confirmed c =>
          refine if_neg fun hlost => hl ?_
          rw [hc, List.head?_append, hlost]
          rfl
    exact hd.go hg hnd (by rw [hs]; rfl) fun e he => by cases habsent.symm.trans he

theorem Sound.wake (hd : Sound h) (hi : Inv h.sys) (hh : Seen h) {timedOut : Bool}
    (ho : h.sys.orderly w (.wake timedOut) = true) (hs : h.sys.step w (.wake timedOut) = some s') :
    Sound (h.next (.wake timedOut) s') := by
  obtain ⟨⟨hw, -⟩, hs⟩ := Option.ite_none_right_eq_some.mp hs
  have hnd : h.sys.stage ≠ .done := by rw [hw]; nofun
  have hnone : h.verdict = none := hd.early (by rw [hw]; rfl)
  by_cases hr : h.sys.runnerDone = true
  · rw [if_pos hr] at hs
    cases hs
    obtain ⟨e, he⟩ := runnerDone_iff.mp hr
    have hv : h.verdict.or ((h.ground (.wake timedOut)).map (Verdict.mk (h.asked ++ h.asks (.wake timedOut)))) =
        some ⟨h.asked ++ h.asks (.wake timedOut), .ended e⟩ := by
      simp [hnone, History.ground, he]
    unfold Sys.conclude
    split_ifs with hp
    · refine ⟨nofun, nofun, fun _ => ⟨_, e, hv, he⟩, nofun, fun v reply hv' hg => ?_⟩
      cases hv.symm.trans hv'
      cases hg
    · refine Sound.finish_ended hi hh hnd he (by simp [History.asks, hr]) hv ?_
      simpa [Sys.orderly, he, Sys.ending, hw, hp] using ho
  · rw [if_neg hr] at hs
    cases hs
    have hg : h.ground (.wake timedOut) = some .stopped := by
      simp only [History.ground]
      split
      · exact absurd (runnerDone_iff.mpr ⟨_, by assumption⟩) hr
      · rfl
    refine ⟨nofun, fun _ => ⟨h.asked ++ h.asks (.wake timedOut), ?_⟩, nofun, nofun, fun v reply hv hrej => ?_⟩
    · simp [History.next, hnone, hg]
    · simp only [History.next, hnone, hg, Option.none_or, Option.map_some, Option.some.injEq] at hv
      cases hv
      cases hrej

theorem Sound.step (hd : Sound h) (hi : Inv h.sys) (hh : Seen h) (ho : h.sys.orderly w action = true)
    (hs : h.sys.step w action = some s') : Sound (h.next action s') := by
  cases action with
  | stop c =>
      cases hs
      exact hd.aside rfl rfl rfl (Or.inl rfl)
  | ends e =>
      simp only [Sys.step] at hs
      split at hs
      · rename_i hr
        cases hs
        exact hd.aside rfl rfl rfl (Or.inr hr)
      · cases hs
  | dispatch late =>
      obtain ⟨hc, hs⟩ := Option.ite_none_right_eq_some.mp hs
      have hnd : h.sys.stage ≠ .done := by rw [hc]; nofun
      have habsent := hi.absent (Or.inl hc)
      cases late with
      | true =>
          cases hs
          exact hd.go rfl hnd (by rw [hc]; rfl) fun _ he => he
      | false =>
          cases hs
          exact hd.go rfl hnd (by rw [hc]; rfl) fun e he => by cases habsent.symm.trans he
  | renewal reply =>
      obtain ⟨hc, hs⟩ := Option.ite_none_right_eq_some.mp hs
      cases hs
      refine hd.refreshed hi hh reply hc fun hr => ?_
      subst hr
      simpa [Sys.orderly] using ho
  | wake timedOut => exact hd.wake hi hh ho hs
  | stopExecution failed =>
      obtain ⟨hc, hs⟩ := Option.ite_none_right_eq_some.mp hs
      cases hs
      exact hd.go rfl (by rw [hc]; nofun) (by rw [hc]; rfl) fun _ he => he
  | graceOver =>
      obtain ⟨hc, hs⟩ := Option.ite_none_right_eq_some.mp hs
      split_ifs at hs
      · cases hs
        exact hd.conclude_stopped hi hh rfl (by rw [hc]; rfl)
      · cases hs
        exact hd.go rfl (by rw [hc]; nofun) (by rw [hc]; rfl) fun _ he => he
  | kill verified =>
      obtain ⟨hc, hs⟩ := Option.ite_none_right_eq_some.mp hs
      cases hs
      exact hd.go rfl (by rw [hc]; nofun) (by rw [hc]; rfl) fun _ he => he
  | killOver =>
      obtain ⟨hc, hs⟩ := Option.ite_none_right_eq_some.mp hs
      split_ifs at hs
      · cases hs
        exact hd.conclude_stopped hi hh rfl (by rw [hc]; rfl)
      · cases hs
        exact hd.go rfl (by rw [hc]; nofun) (by rw [hc]; rfl) fun _ he => he
      · cases hs
        exact hd.conclude_stopped hi hh rfl (by rw [hc]; rfl)
  | abortOver =>
      obtain ⟨hc, hs⟩ := Option.ite_none_right_eq_some.mp hs
      cases hs
      exact hd.conclude_stopped hi hh rfl (by rw [hc]; rfl)
  | verify verified =>
      simp only [Sys.step] at hs
      split at hs
      · rename_i stopped hc
        have hnd : h.sys.stage ≠ .done := by rw [hc]; nofun
        cases verified with
        | false =>
            cases hs
            exact hd.go rfl hnd rfl fun _ he => he
        | true =>
            cases hs
            cases stopped with
            | true => exact hd.finish_stopped hi hh rfl (by rw [hc]; rfl)
            | false =>
                obtain ⟨asked, e, hv, he⟩ := hd.ended (by rw [hc]; rfl)
                refine Sound.finish_ended hi hh hnd he rfl (by rw [hv]; rfl) ?_
                simpa [Sys.orderly, he, Sys.ending, hc] using ho
      · cases hs

end Fronta.Attempt
