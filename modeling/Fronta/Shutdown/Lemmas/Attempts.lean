import Fronta.Shutdown.Lemmas.Tokens

/-!
# Attempts and claims from one step to the next

An `Attempt` object keeps its row and its token, and its first cause comes from a stop. New objects are the rows
of a claim that is dispatched before the request.
-/

namespace Fronta

open Sql
open Worker (Ref)

namespace Worker

/-- What the reply about its row tells an attempt, by the row. -/
theorem Attempt.renewed_cases {a b : Attempt} {row : Option Row} (h : a.renewed row = some b) :
    (b = a.stop .lost ∧ (row.any fun t => t.state = .running && t.token = some a.token) = false) ∨
      b = a.stop .cancel ∧ ∃ t, row = some t ∧ t.cancelRequestedAt ≠ none := by
  unfold renewed at h
  split at h
  · rename_i hf
    cases h
    refine Or.inl ⟨rfl, ?_⟩
    cases row <;> simp_all [Option.filter]
  · rename_i t hf
    obtain ⟨hn, h⟩ := Option.ite_none_left_eq_some.mp h
    cases h
    exact Or.inr ⟨rfl, t, (Option.filter_eq_some_iff.mp hf).1, hn⟩

/-- An object after a step, which may end its controller or give it a first cause. -/
structure Attempt.Next (a : Attempt) (ends : Prop) (stops : Cause → Prop) (b : Attempt) : Prop where
  row : b.row = a.row
  token : b.token = a.token
  running : b.phase = .running → a.phase = .running
  runs : a.phase = .running → b.phase = .running ∨ ends
  cause : b.cause = a.cause ∨ ∃ cause, a.cause = none ∧ b.cause = some cause ∧ stops cause

namespace Attempt.Next

variable {a b : Attempt} {ends ends' : Prop} {stops stops' : Cause → Prop} {cause : Cause}

theorem refl : a.Next ends stops a := ⟨rfl, rfl, id, Or.inl, Or.inl rfl⟩

theorem stop (h : stops cause) : a.Next ends stops (a.stop cause) where
  row := rfl
  token := rfl
  running := id
  runs := Or.inl
  cause := by
    cases hc : a.cause with
    | none => exact Or.inr ⟨cause, rfl, by simp [Attempt.stop, hc], h⟩
    | some first => exact Or.inl (by simp [Attempt.stop, hc])

theorem mono (h : a.Next ends stops b) (he : ends → ends') (hs : ∀ cause, stops cause → stops' cause) :
    a.Next ends' stops' b :=
  ⟨h.row, h.token, h.running, fun hr => (h.runs hr).imp id he,
    h.cause.imp id fun ⟨cause, hn, hb, hc⟩ => ⟨cause, hn, hb, hs cause hc⟩⟩

end Attempt.Next

namespace Sys

variable {s s' : Sys} {action : Action} {x : Ref} {a b : Attempt} {c : TaskId × Token}
  {rows : List (TaskId × Token)}

/-- The cause that an action gives an attempt which has none. -/
def Stops (s : Sys) (x : Ref) (a : Attempt) (cause : Cause) : Action → Prop
  | .expire y => y = x ∧ cause = .lost
  | .stop y cause' => y = x ∧ cause' = cause
  | .renew _ _ due => x ∈ due ∧ a.renewed (s.db.tasks.get a.row) = some (a.stop cause)
  | _ => False

/-- What an action makes of an `Attempt` object. -/
abbrev Next (s : Sys) (action : Action) (x : Ref) (a b : Attempt) : Prop :=
  a.Next (action = .finish x) (s.Stops x a · action) b

/-- One object of `modify`. -/
theorem next_modify {y : Ref} {f : Attempt → Attempt} (hx : s.objects.get x = some a)
    (hf : x = y → s.Next action x a (f a)) :
    ∃ b, (s.modify y f).objects.get x = some b ∧ s.Next action x a b := by
  rw [modify, Table.get_modify, hx]
  by_cases hy : x = y
  · exact ⟨f a, by simp [hy], hf hy⟩
  · exact ⟨a, by simp [hy], .refl⟩

theorem object_step (h : s.step action = some s') (hx : s.objects.get x = some a) :
    ∃ b, s'.objects.get x = some b ∧ s.Next action x a b := by
  cases moves_of_step h with
  | statement | requestShutdown | claim | execute | claimFailed | discard => exact ⟨a, hx, .refl⟩
  | dispatch => exact ⟨a, (dispatch_overwrites s _).1 x a hx, .refl⟩
  | expire | stop => exact next_modify hx fun hy => .stop ⟨hy.symm, rfl⟩
  | @renew clock leaseS due =>
      simp only [Table.get_update, hx, Option.map_some, Option.some.injEq, exists_eq_left']
      cases hr : (if x ∈ due then a.renewed (s.db.tasks.get a.row) else none) with
      | none => exact .refl
      | some b =>
          obtain ⟨hd, hr⟩ := Option.ite_none_right_eq_some.mp hr
          rcases Attempt.renewed_cases hr with ⟨rfl, -⟩ | ⟨rfl, -⟩
          · exact .stop ⟨hd, hr⟩
          · exact .stop ⟨hd, hr⟩
  | finish =>
      refine next_modify hx fun he => ?_
      subst he
      exact ⟨rfl, rfl, (fun hr => by cases hr), fun _ => Or.inr rfl, Or.inl rfl⟩
  | attemptDone hy hp =>
      refine next_modify hx fun he => ?_
      subst he
      cases hx.symm.trans hy
      exact ⟨rfl, rfl, (fun hr => by cases hr), fun hr => by simp [hp] at hr, Or.inl rfl⟩

/-! ## Dispatched rows -/

theorem dispatch_origin (hx : (rows.foldl startAttempt s).objects.get x = some b) :
    s.objects.get x = some b ∨ b.cause = none ∧ (b.row, b.token) ∈ rows := by
  induction rows generalizing s with
  | nil => exact Or.inl hx
  | cons row rows ih =>
      rcases ih hx with hx | ⟨hc, hm⟩
      · rcases Table.get_insert_cases hx with ⟨-, rfl⟩ | hx
        · exact Or.inr ⟨rfl, List.mem_cons_self⟩
        · exact Or.inl hx
      · exact Or.inr ⟨hc, List.mem_cons_of_mem _ hm⟩

theorem dispatch_starts (hc : c ∈ rows) : ∃ x a, (rows.foldl startAttempt s).objects.get x = some a ∧
    a.phase = .running ∧ (a.row, a.token) = c := by
  induction rows generalizing s with
  | nil => cases hc
  | cons row rows ih =>
      rcases List.mem_cons.mp hc with rfl | hc
      · exact ⟨_, _, (dispatch_overwrites _ rows).1 _ _ Table.get_insert_self, rfl, rfl⟩
      · exact ih hc

/-- Where an object comes from. -/
theorem object_origin (h : s.step action = some s') (hx : s'.objects.get x = some b) :
    (∃ a, s.objects.get x = some a ∧ s.Next action x a b) ∨
      action = .dispatch ∧ s'.call = none ∧ b.cause = none ∧ (b.row, b.token) ∈ s.claimed := by
  cases hx₀ : s.objects.get x with
  | some a =>
      obtain ⟨b', hb', hn⟩ := object_step h hx₀
      cases hx.symm.trans hb'
      exact Or.inl ⟨a, rfl, hn⟩
  | none =>
      refine Or.inr ?_
      have hold : s.objects.get x ≠ some b := by rw [hx₀]; simp
      have hmodify : ∀ y f, (s.modify y f).objects.get x ≠ some b := by
        intro y f
        rw [modify, Table.get_modify, hx₀]
        simp
      cases moves_of_step h with
      | @dispatch rows hcall =>
          rcases dispatch_origin hx with hx | ⟨hc, hm⟩
          · exact absurd hx hold
          · exact ⟨rfl, rfl, hc, by rwa [claimed, hcall]⟩
      | renew =>
          rw [Table.get_update, hx₀] at hx
          cases hx
      | statement | requestShutdown | claim | execute | claimFailed | discard => exact absurd hx hold
      | expire | stop | finish | attemptDone => exact absurd hx (hmodify _ _)

/-! ## The claim in flight -/

/-- What becomes of the rows of a claim. -/
theorem claimed_step (h : s.step action = some s') (hc : c ∈ s.claimed) :
    c ∈ s'.claimed ∨ action = .claimFailed ∨ action = .dispatch ∧
      (s.stopping = true ∨
        ∃ x a, s'.objects.get x = some a ∧ a.phase = .running ∧ (a.row, a.token) = c) := by
  cases moves_of_step h with
  | claimFailed => exact Or.inr (Or.inl rfl)
  | discard _ hst => exact Or.inr (Or.inr ⟨rfl, Or.inl hst⟩)
  | dispatch hcall =>
      rw [claimed, hcall] at hc
      exact Or.inr (Or.inr ⟨rfl, Or.inr (dispatch_starts hc)⟩)
  | claim hn =>
      rw [claimed, hn] at hc
      cases hc
  | execute hcall =>
      rw [claimed, hcall] at hc
      cases hc
  | _ => exact Or.inl hc

/-- Where the rows of a claim come from. -/
theorem claimed_origin (h : s.step action = some s') (hc : c ∈ s'.claimed) : c ∈ s.claimed ∨
    ∃ now clock leaseS worker tokens ids, action = .execute now clock leaseS worker tokens ids ∧
      c.1 ∈ ids ∧ c.2 = tokens c.1 ∧
      ∀ t, s'.db.tasks.get c.1 = some t → t.worker = some worker := by
  cases moves_of_step h with
  | @execute now clock leaseS worker tokens ids =>
      refine Or.inr ⟨now, clock, leaseS, worker, tokens, ids, rfl, ?_⟩
      obtain ⟨a, ha, rfl⟩ := List.mem_map.mp hc
      obtain ⟨⟨i, t⟩, hm, rfl⟩ := List.mem_map.mp ha
      obtain ⟨t₀, ht₀, hf⟩ := Table.mem_returning.mp hm
      obtain ⟨hi, hrow⟩ := Option.ite_none_right_eq_some.mp hf
      refine ⟨hi, rfl, fun t' ht' => ?_⟩
      have ht' : (s.db.claim now clock leaseS worker tokens ids).2.tasks.get i = some t' := ht'
      rw [Db.claim, Db.withEvents_tasks, Table.get_update, ht₀, Option.map_some, hf] at ht'
      cases ht'
      obtain ⟨-, hrow⟩ := Option.ite_none_right_eq_some.mp hrow
      cases hrow
      rfl
  | claim | claimFailed | discard | dispatch => cases hc
  | _ => exact Or.inl hc

theorem claimed_of_call (h : s.call = none) : s.claimed = [] := by rw [claimed, h]

theorem stopping_step (h : s.step action = some s') (hs : s.stopping = true) :
    s'.stopping = true ∧ s'.objects.next = s.objects.next := by
  cases moves_of_step h with
  | claim _ hn =>
      rw [hs] at hn
      cases hn
  | dispatch _ hn =>
      rw [hs] at hn
      cases hn
  | requestShutdown => exact ⟨rfl, rfl⟩
  | _ => exact ⟨hs, rfl⟩

end Sys

end Worker

/-- The token is not on the row. -/
def Db.Off (db : Db) (c : TaskId × Token) : Prop := ∀ t, db.tasks.get c.1 = some t → t.token ≠ some c.2

namespace Orphans

variable {s s' : Sys} {action : Action} {x : Ref} {a b : Worker.Attempt} {c : TaskId × Token} {r : Release}

/-! ## Steps around the worker -/

/-- A step that is not the worker's leaves its objects and its map, and may only drop its claim. -/
structure Frame (s : Sys) (action : Action) (s' : Sys) : Prop where
  objects : s'.worker.objects = s.worker.objects
  stopping : s'.worker.stopping = s.worker.stopping
  name : s'.name = s.name
  call : s'.worker.call = s.worker.call ∨ action = .lose ∧ s'.worker.call = none

/-- A step of the worker, or one around it. -/
theorem step_cases (hs : s.step action = some s') :
    (∃ w, action = .worker w ∧ s.worker.step w = some s'.worker ∧ s.admits w = true ∧
      s.fresh ((Sys.executes w).elim [] Fencing.Sys.tokensOf) = true ∧
      s'.name = s.name ∧ s'.release = s.release ∧
      s'.issued = s.issued ++ (Sys.executes w).elim [] Fencing.Sys.tokensOf) ∨ Frame s action s' := by
  cases Sys.moves_of_step hs with
  | worker hw ha hf => exact Or.inl ⟨_, rfl, hw, ha, hf, rfl, rfl, rfl⟩
  | lose => exact Or.inr ⟨rfl, rfl, rfl, Or.inr ⟨rfl, rfl⟩⟩
  | _ => exact Or.inr ⟨rfl, rfl, rfl, Or.inl rfl⟩

/-- What an action makes of an `Attempt` object. -/
abbrev Next (s : Sys) (action : Action) (x : Ref) (a b : Worker.Attempt) : Prop :=
  a.Next (action = .worker (.finish x)) (fun cause => ∃ w, action = .worker w ∧ s.worker.Stops x a cause w) b

theorem object_step (hs : s.step action = some s') (hx : s.worker.objects.get x = some a) :
    ∃ b, s'.worker.objects.get x = some b ∧ Next s action x a b := by
  rcases step_cases hs with ⟨w, rfl, hw, -⟩ | hf
  · obtain ⟨b, hb, hn⟩ := Worker.Sys.object_step hw hx
    exact ⟨b, hb, hn.mono (fun he => he ▸ rfl) fun cause hc => ⟨w, rfl, hc⟩⟩
  · exact ⟨a, by rw [hf.objects, hx], .refl⟩

theorem object_origin (hs : s.step action = some s') (hx : s'.worker.objects.get x = some b) :
    (∃ a, s.worker.objects.get x = some a ∧ Next s action x a b) ∨
      action = .worker .dispatch ∧ s'.worker.call = none ∧ b.cause = none ∧
        (b.row, b.token) ∈ s.worker.claimed := by
  rcases step_cases hs with ⟨w, rfl, hw, -⟩ | hf
  · rcases Worker.Sys.object_origin hw hx with ⟨a, ha, hn⟩ | ⟨rfl, hd⟩
    · exact Or.inl ⟨a, ha, hn.mono (fun he => he ▸ rfl) fun cause hc => ⟨w, rfl, hc⟩⟩
    · exact Or.inr ⟨rfl, hd⟩
  · exact Or.inl ⟨b, by rw [← hf.objects, hx], .refl⟩

theorem claimed_step (hs : s.step action = some s') (hc : c ∈ s.worker.claimed) :
    c ∈ s'.worker.claimed ∨ action = .lose ∨ action = .worker .claimFailed ∨
      action = .worker .dispatch ∧ (s.worker.stopping = true ∨
        ∃ x a, s'.worker.objects.get x = some a ∧ a.phase = .running ∧ (a.row, a.token) = c) := by
  rcases step_cases hs with ⟨w, rfl, hw, -⟩ | hf
  · rcases Worker.Sys.claimed_step hw hc with hc | rfl | ⟨rfl, hd⟩
    · exact Or.inl hc
    · exact Or.inr (Or.inr (Or.inl rfl))
    · exact Or.inr (Or.inr (Or.inr ⟨rfl, hd⟩))
  · rcases hf.call with hcall | ⟨rfl, -⟩
    · exact Or.inl (by rwa [Worker.Sys.claimed, hcall])
    · exact Or.inr (Or.inl rfl)

theorem claimed_origin (hs : s.step action = some s') (hc : c ∈ s'.worker.claimed) :
    c ∈ s.worker.claimed ∨ (∃ now clock leaseS worker tokens ids,
      action = .worker (.execute now clock leaseS worker tokens ids)) ∧ c.2 ∈ s'.issued ∧ c.2 ∉ s.issued ∧
      ∀ t, s'.worker.db.tasks.get c.1 = some t → t.worker = some s'.name := by
  rcases step_cases hs with ⟨w, rfl, hw, hadm, hfresh, hname, -, hissued⟩ | hf
  · rcases Worker.Sys.claimed_origin hw hc with
      hc | ⟨now, clock, leaseS, worker, tokens, ids, rfl, hi, htok, hworker⟩
    · exact Or.inl hc
    · have hnew : c.2 ∈ Fencing.Sys.tokensOf (.claim now clock leaseS worker tokens ids) :=
        htok ▸ Fencing.Sys.mem_tokensOf hi
      obtain rfl : worker = s.name := of_decide_eq_true hadm
      refine Or.inr ⟨⟨now, clock, leaseS, _, tokens, ids, rfl⟩, ?_, fun hm => ?_, ?_⟩
      · rw [hissued]
        exact List.mem_append_right _ hnew
      · exact (List.nodup_append.mp (of_decide_eq_true hfresh)).2.2 _ hm _ hnew rfl
      · rw [hname]
        exact hworker
  · rcases hf.call with hcall | ⟨-, hcall⟩
    · exact Or.inl (by rwa [Worker.Sys.claimed, ← hcall])
    · rw [Worker.Sys.claimed_of_call hcall] at hc
      cases hc

theorem name_step (hs : s.step action = some s') : s'.name = s.name := by
  rcases step_cases hs with ⟨w, -, -, -, -, hname, -⟩ | hf
  · exact hname
  · exact hf.name

theorem stopping_step (hs : s.step action = some s') (hst : s.worker.stopping = true) :
    s'.worker.stopping = true ∧ s'.worker.objects.next = s.worker.objects.next := by
  rcases step_cases hs with ⟨w, -, hw, -⟩ | hf
  · exact Worker.Sys.stopping_step hw hst
  · exact ⟨hf.stopping.trans hst, by rw [hf.objects]⟩

/-! ## Releases -/

/-- A release goes on with what it owes, or ends by its answer or given up. -/
theorem release_step (hs : s.step action = some s') (hr : s.release = some r) :
    (∃ r', s'.release = some r' ∧ r'.owed = r.owed) ∨
      s'.release = none ∧ (action = .reply ∨ action = .abandon) := by
  cases Sys.moves_of_step hs with
  | worker => exact Or.inl ⟨r, hr, rfl⟩
  | lose hn =>
      rw [hr] at hn
      cases hn
  | short => exact Or.inr ⟨rfl, Or.inl rfl⟩
  | abandon => exact Or.inr ⟨rfl, Or.inr rfl⟩
  | page hr' | select hr' | commit hr' | fail hr' | full hr' =>
      cases hr.symm.trans hr'
      exact Or.inl ⟨_, rfl, rfl⟩

theorem release_origin (hs : s.step action = some s') (hr : s.release = none) :
    s'.release = none ∨ action = .lose := by
  have hnone : ∀ {r}, s.release ≠ some r := by simp [hr]
  cases Sys.moves_of_step hs with
  | worker => exact Or.inl hr
  | lose => exact Or.inr rfl
  | short => exact Or.inl rfl
  | abandon => exact Or.inl rfl
  | page hr' | select hr' | commit hr' | fail hr' | full hr' => exact absurd hr' hnone

theorem lose_call (hs : s.step .lose = some s') : s.worker.call ≠ none := by
  cases Sys.moves_of_step hs with
  | lose _ hc => exact hc

theorem call_step (hs : s.step action = some s') (hst : s.worker.stopping = true)
    (hc : s.worker.call = none) : s'.worker.call = none := by
  rcases step_cases hs with ⟨w, -, hw, -⟩ | hf
  · refine Worker.Sys.call_step hw hc fun he => ?_
    subst he
    obtain ⟨⟨-, hn, -⟩, -⟩ := Option.ite_none_right_eq_some.mp hw
    rw [hst] at hn
    cases hn
  · exact hf.call.elim (fun hcall => hcall.trans hc) And.right

theorem quiet_step (hs : s.step action = some s') (hst : s.worker.stopping = true)
    (hc : s.worker.call = none) (hr : s.release = none) : s'.worker.call = none ∧ s'.release = none :=
  ⟨call_step hs hst hc, (release_origin hs hr).resolve_right fun he => lose_call (he ▸ hs) hc⟩

/-! ## The claim in flight -/

/-- The rows of a claim in flight run for this worker, under tokens that no object has. -/
structure InFlight (s : Sys) : Prop where
  objects : ∀ x a, s.worker.objects.get x = some a → a.token ∈ s.issued
  claimed : ∀ c ∈ s.worker.claimed, c.2 ∈ s.issued
  apart : ∀ c ∈ s.worker.claimed, ∀ x a, s.worker.objects.get x = some a → a.token ≠ c.2
  mine : ∀ c ∈ s.worker.claimed, ∀ t, s.worker.db.tasks.get c.1 = some t → t.token = some c.2 →
    t.worker = some s.name

theorem inFlight_init {concurrency : ℕ} {name : Name} : InFlight (Sys.init concurrency name) := by
  constructor <;> simp [Sys.init, Worker.Sys.init, Worker.Sys.claimed]

theorem InFlight.step (h : InFlight s) (hs : s.step action = some s') : InFlight s' where
  objects x b hx := by
    rcases object_origin hs hx with ⟨a, ha, hn⟩ | ⟨-, -, -, hm⟩
    · exact Sys.issued_step hs (hn.token ▸ h.objects x a ha)
    · exact Sys.issued_step hs (h.claimed _ hm)
  claimed c hc := by
    rcases claimed_origin hs hc with hc | ⟨-, hi, -⟩
    · exact Sys.issued_step hs (h.claimed c hc)
    · exact hi
  apart c hc x b hx := by
    rcases object_origin hs hx with ⟨a, ha, hn⟩ | ⟨-, hcall, -⟩
    · rw [hn.token]
      rcases claimed_origin hs hc with hc | ⟨-, -, hi, -⟩
      · exact h.apart c hc x a ha
      · exact fun he => hi (he ▸ h.objects x a ha)
    · rw [Worker.Sys.claimed_of_call hcall] at hc
      cases hc
  mine c hc t' ht htok := by
    rcases claimed_origin hs hc with hc | ⟨-, -, -, hw⟩
    · obtain ⟨t, ht, htok, hw, -⟩ := Sys.token_step hs (h.claimed c hc) ht htok
      rw [hw, name_step hs]
      exact h.mine c hc t ht htok
    · exact hw t' ht

theorem lose_owed (hi : Inv s) (h : InFlight s) (hs : s.step .lose = some s') (hc : c ∈ s.worker.claimed) :
    ∃ r, s'.release = some r ∧ (c ∈ r.owed ∨ s'.worker.db.Off c) := by
  cases Sys.moves_of_step hs with
  | lose =>
      refine ⟨_, rfl, or_iff_not_imp_right.mpr fun hoff => ?_⟩
      obtain ⟨t, hoff⟩ := not_forall.mp hoff
      obtain ⟨ht, htok⟩ := Classical.not_imp.mp hoff
      rw [not_not] at htok
      have hrun := (hi.rows _ t ht).running_token.mpr (by simp [htok])
      have hheld : s.holds c.1 c.2 = false := by
        by_contra hh
        rw [Bool.not_eq_false] at hh
        obtain ⟨x, a, hx, -, -, ha⟩ := holds_iff.mp hh
        exact h.apart c hc x a hx ha
      refine List.mem_filterMap.mpr ⟨(c.1, t), List.mem_filter.mpr ⟨Table.mem_entries.mpr ht, ?_⟩, ?_⟩
      · exact mine_iff.mpr ⟨hrun, h.mine c hc t ht htok⟩
      · simp [htok, hheld]

theorem reply_off (hi : Inv s) (hs : s.step .reply = some s') (hr : s.release = some r)
    (hn : s'.release = none) (hc : c ∈ r.owed) : s'.worker.db.Off c :=
  fun _ ht => hi.settled hr hs hn hc ht

end Orphans

end Fronta
