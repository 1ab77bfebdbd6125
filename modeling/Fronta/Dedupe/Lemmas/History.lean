import Fronta.Dedupe.Lemmas.Calls

/-!
# The history of a call

What a call returned, told by the states that the run has gone through while the call was open.
-/

namespace Fronta.Dedupe

open Runs Sql
open Feed (TxnId)

variable {s s' : Sys} {k : CallId} {c : Call} {a : Action} {as : List Action} {catalog : Catalog}
  {id : TaskId}

/-! ## Steps -/

theorem went_of_step (hc : a.call = some k) (h : s.step a = some s') :
    ∃ c phase as, s.calls.get k = some c ∧ s'.calls = s.enter k phase ∧
      Went s.feed c phase s'.feed ∧ run Feed.Sys.step s.feed as = some s'.feed := by
  cases a with
  | insert k' now => cases hc; exact went_of_insert h
  | reply k' => cases hc; exact went_of_reply h
  | find k' late => cases hc; exact went_of_find h
  | _ => cases hc

/-- A raised error of `requeue` leaves a state that a rollback could have left. -/
theorem requeue_spec {caller : Option TxnId} {now : Time} {e : Db.RequeueError}
    (h : s.requeue caller id now = some (e, s')) :
    s'.calls = s.calls ∧ Silent s.feed s'.feed ∧ ∃ as, run Feed.Sys.step s.feed as = some s'.feed := by
  cases caller with
  | some p =>
      obtain ⟨-, h⟩ := Option.ite_none_right_eq_some.mp h
      obtain ⟨⟨e', f⟩, hr, h⟩ := Option.map_eq_some_iff.mp h
      cases h
      obtain ⟨x, -, hsil, hrun, hopen, -⟩ := refuse_spec hr
      dsimp only
      split
      · exact ⟨rfl, hsil, hrun⟩
      · rename_i he
        exact ⟨rfl, hopen he⟩
  | none =>
      simp only [Sys.requeue] at h
      obtain ⟨f, hb, h⟩ := Option.bind_eq_some_iff.mp h
      obtain ⟨⟨e', f'⟩, hr, h⟩ := Option.map_eq_some_iff.mp h
      cases h
      obtain ⟨x, -, hsil, ⟨as, hrun⟩, -, -⟩ := refuse_spec hr
      exact ⟨rfl, (silent_begin hb).trans hsil, .begin now false :: as, run_cons.mpr ⟨f, hb, hrun⟩⟩

/-- Other steps keep the calls that there are. -/
theorem other_step (hc : a.call = none) (h : s.step a = some s') :
    (∀ k c, s'.calls.get k = some c →
      s.calls.get k = some c ∨ s.calls.get k = none ∧ c.phase = .inserting) ∧
    (∀ k, s'.calls.get k = none → s.calls.get k = none) ∧
    ∃ as, run Feed.Sys.step s.feed as = some s'.feed := by
  cases a with
  | sys action =>
      obtain ⟨f, hf, rfl⟩ := Option.map_eq_some_iff.mp h
      exact ⟨fun _ _ h => Or.inl h, fun _ h => h, [action], run_cons.mpr ⟨f, hf, rfl⟩⟩
  | enqueue task caller =>
      obtain ⟨-, h⟩ := Option.ite_none_right_eq_some.mp h
      cases h
      refine ⟨fun k c h => ?_, fun k h => ?_, [], rfl⟩
      · rcases Table.get_insert_cases h with ⟨rfl, rfl⟩ | h
        · exact Or.inr ⟨Table.get_of_le s.calls (Nat.le_refl _), rfl⟩
        · exact Or.inl h
      · cases hk : s.calls.get k with
        | none => rfl
        | some c => rw [Table.get_insert_of_get hk] at h; cases h
  | requeue caller id now =>
      obtain ⟨⟨e, t⟩, hr, rfl⟩ := Option.map_eq_some_iff.mp h
      obtain ⟨he, -, hrun⟩ := requeue_spec hr
      dsimp only
      rw [he]
      exact ⟨fun _ _ h => Or.inl h, fun _ h => h, hrun⟩
  | _ => cases hc

theorem feed_run (h : s.step a = some s') : ∃ as, run Feed.Sys.step s.feed as = some s'.feed := by
  cases hc : a.call with
  | none => exact (other_step hc h).2.2
  | some k =>
      obtain ⟨-, -, as, -, -, -, hrun⟩ := went_of_step hc h
      exact ⟨as, hrun⟩

theorem feed_of_reachable (h : Reachable Sys.step (Sys.init catalog) s) :
    Reachable Feed.Sys.step (Feed.Sys.init catalog) s.feed :=
  h.invariant (I := fun s => Reachable Feed.Sys.step (Feed.Sys.init catalog) s.feed) (.init _)
    fun _ _ _ hi hs => (feed_run hs).elim fun _ hrun => hi.run hrun

/-! ## Quiet calls -/

/-- Every step that the call has taken was silent. -/
def Quiet (catalog : Catalog) (k : CallId) (as : List Action) : Prop :=
  ∀ bs a cs t t', as = bs ++ a :: cs → a.call = some k →
    run Sys.step (Sys.init catalog) bs = some t → t.step a = some t' → Silent t.feed t'.feed

theorem Quiet.snoc (h : Quiet catalog k as) (hr : run Sys.step (Sys.init catalog) as = some s)
    (hs : a.call = some k → ∀ s', s.step a = some s' → Silent s.feed s'.feed) :
    Quiet catalog k (as ++ [a]) := by
  intro bs b cs t t' he hb ht hstep
  cases cs using List.reverseRecOn with
  | nil =>
      obtain ⟨rfl, hab⟩ := List.append_inj' he rfl
      cases hab
      rw [hr, Option.some.injEq] at ht
      subst ht
      exact hs hb t' hstep
  | append_singleton cs d =>
      rw [← List.cons_append, ← List.append_assoc] at he
      obtain ⟨rfl, -⟩ := List.append_inj' he rfl
      exact h bs b cs t t' rfl hb ht hstep

theorem quiet_of_absent (h : ∀ a ∈ as, a.call ≠ some k) : Quiet catalog k as := by
  intro bs a cs t t' he ha
  exact absurd ha (h a (by rw [he]; simp))

/-! ## What a call returned -/

/-- The call has just inserted its task under this id. -/
def Entered (k : CallId) (c : Call) (id : TaskId) (t : Sys) : Prop :=
  ∃ p, t.calls.get k = some { c with phase := .publishing p id } ∧ Inserts t.feed p c.task id

/-- The call, which is open, sees an active task with its type and key under this id. -/
def Found (k : CallId) (c : Call) (id : TaskId) (t : Sys) : Prop :=
  t.calls.get k = some { c with phase := .finding } ∧
    ∃ tasks row key, seen t.feed c.caller = some tasks ∧ c.task.key = some key ∧
      tasks.get id = some row ∧ row.keyed c.task.type key = true

/-- What the run so far says about a call. -/
def CallOk (catalog : Catalog) (as : List Action) (k : CallId) (c : Call) : Prop :=
  match c.phase with
  | .publishing _ id | .returned id true => Past Sys.step (Entered k c id) (Sys.init catalog) as
  | .returned id false => Past Sys.step (Found k c id) (Sys.init catalog) as ∧ Quiet catalog k as
  | _ => Quiet catalog k as

theorem found_of_find {f : Feed.Sys} {tasks : Table Row} (hk : s.calls.get k = some c)
    (hc : c.phase = .finding) (hf : s.feed = f) (hs : seen f c.caller = some tasks)
    (h : findActiveByKey tasks c.task.type c.task.key = some id) : Found k c id s := by
  obtain ⟨key, hkey, h⟩ := Option.bind_eq_some_iff.mp h
  obtain ⟨⟨i, row⟩, hfind, rfl⟩ := Option.map_eq_some_iff.mp h
  obtain ⟨hrow, hkeyed⟩ := Table.get_of_find hfind
  exact ⟨by rw [hk, ← hc], tasks, row, key, hf ▸ hs, hkey, hrow, hkeyed⟩

theorem CallOk.other (h : CallOk catalog as k c) (hr : run Sys.step (Sys.init catalog) as = some s)
    (hk : a.call ≠ some k) : CallOk catalog (as ++ [a]) k c := by
  unfold CallOk at h ⊢
  split at h
  · exact h.append _
  · exact h.append _
  · exact ⟨h.1.append _, h.2.snoc hr fun he => absurd he hk⟩
  · exact Quiet.snoc h hr fun he => absurd he hk

/-- The call that has taken the step. -/
theorem CallOk.went {phase : Phase} (h : CallOk catalog as k c)
    (hr : run Sys.step (Sys.init catalog) as = some s) (hs : s.step a = some s')
    (hk : s.calls.get k = some c) (hk' : s'.calls = s.enter k phase)
    (hw : Went s.feed c phase s'.feed) : CallOk catalog (as ++ [a]) k { c with phase := phase } := by
  have hnew : s'.calls.get k = some { c with phase := phase } := by
    rw [hk', Sys.enter, Table.get_modify_self, hk, Option.map_some]
  have hr' : run Sys.step (Sys.init catalog) (as ++ [a]) = some s' :=
    run_append.mpr ⟨s, hr, run_cons.mpr ⟨s', hs, rfl⟩⟩
  have hsilent : Quiet catalog k as → Silent s.feed s'.feed → Quiet catalog k (as ++ [a]) := by
    intro hq hsil
    refine hq.snoc hr fun _ t ht => ?_
    cases hs.symm.trans ht
    exact hsil
  unfold CallOk at h ⊢
  generalize hf : s'.feed = f at hw hsilent
  cases hw with
  | @inserted p id f' hc hi =>
      dsimp only
      exact Past.now hr' ⟨p, hnew, hf ▸ hi⟩
  | conflict hc hsil =>
      rw [hc] at h
      exact hsilent h hsil
  | replied hc =>
      rw [hc] at h
      exact h.append _
  | found hc ht hid =>
      rw [hc] at h
      exact ⟨(Past.now hr (found_of_find hk hc rfl ht hid)).append _, hsilent h (.refl _)⟩
  | missed hc hp =>
      rw [hc] at h
      have hq := hsilent h (.refl _)
      rcases hp with rfl | rfl <;> exact hq

/-! ## Runs -/

structure HistoryOk (catalog : Catalog) (as : List Action) (s : Sys) : Prop where
  calls : ∀ k c, s.calls.get k = some c → CallOk catalog as k c
  absent : ∀ k, s.calls.get k = none → ∀ a ∈ as, a.call ≠ some k

theorem HistoryOk.step (h : HistoryOk catalog as s) (hr : run Sys.step (Sys.init catalog) as = some s)
    (hs : s.step a = some s') : HistoryOk catalog (as ++ [a]) s' := by
  cases ha : a.call with
  | none =>
      obtain ⟨hcalls, hnone, -⟩ := other_step ha hs
      refine ⟨fun k c hk => ?_, fun k hk b hb => ?_⟩
      · rcases hcalls k c hk with hk | ⟨hk, hp⟩
        · exact (h.calls k c hk).other hr (by rw [ha]; simp)
        · have hq : Quiet catalog k (as ++ [a]) :=
            (quiet_of_absent (h.absent k hk)).snoc hr fun he => by rw [ha] at he; cases he
          unfold CallOk
          rwa [hp]
      · rcases List.mem_append.mp hb with hb | hb
        · exact h.absent k (hnone k hk) b hb
        · rw [List.mem_singleton.mp hb, ha]; simp
  | some k₀ =>
      obtain ⟨c₀, phase, -, hk₀, hcalls, hw, -⟩ := went_of_step ha hs
      refine ⟨fun k c hk => ?_, fun k hk b hb => ?_⟩
      · rw [hcalls, Sys.enter, Table.get_modify] at hk
        obtain ⟨c₁, hk₁, rfl⟩ := Option.map_eq_some_iff.mp hk
        by_cases he : k = k₀
        · subst he
          cases hk₀.symm.trans hk₁
          rw [if_pos rfl]
          exact (h.calls k c₀ hk₀).went hr hs hk₀ hcalls hw
        · rw [if_neg he]
          exact (h.calls k c₁ hk₁).other hr (by rw [ha, ne_eq, Option.some.injEq]; exact Ne.symm he)
      · rw [hcalls, Sys.enter, Table.get_modify, Option.map_eq_none_iff] at hk
        rcases List.mem_append.mp hb with hb | hb
        · exact h.absent k hk b hb
        · rw [List.mem_singleton.mp hb, ha, ne_eq, Option.some.injEq]
          rintro rfl
          rw [hk] at hk₀; cases hk₀

theorem historyOk_of_run (hr : run Sys.step (Sys.init catalog) as = some s) :
    HistoryOk catalog as s :=
  history (I := HistoryOk catalog) ⟨(fun _ _ h => by cases h), fun _ _ _ h => by cases h⟩
    (fun _ _ _ _ hr h hs => h.step hr hs) hr

end Fronta.Dedupe
