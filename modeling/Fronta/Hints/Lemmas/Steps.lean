import Fronta.Hints.Lemmas.Keeping

/-!
# Steps of the hint sender

Every step keeps the invariant until a call of `close` gives up.
-/

namespace Fronta.Hints

open Sql Unicode

variable {s s' : Sys} {h : Hint} {k : ℕ} {p q batch : Pending} {action : Action}

theorem Inv.init : Inv .init where
  kept := by simp [Sys.init]
  awake := by simp [Sys.init]
  pending := rfl
  batch := by simp [Sys.init, Sys.inFlight]
  cancelling := rfl
  task := by simp [Sys.init]
  closers := by simp [Sys.init]

theorem not_leaving (hl : s.leaving = false) :
    (∀ outcome, s.task ≠ some (.finishing outcome)) ∧
      ∀ x c, s.closers.get x = some c → c = .flushing ∨ c = .ended ∨ c = .raised := by
  simp only [Sys.leaving, Bool.or_eq_false_iff, List.any_eq_false] at hl
  obtain ⟨htask, hclosers⟩ := hl
  constructor
  · intro outcome ht
    simp [ht] at htask
  · intro x c hc
    have := hclosers (x, c) (Table.mem_entries.mpr hc)
    cases c <;> simp_all

theorem unmanned_inFlight (hu : s.unmanned = true) : s.inFlight = none := by
  unfold Sys.unmanned at hu
  unfold Sys.inFlight
  cases ht : s.task with
  | none => rfl
  | some t => cases t <;> simp_all [Background.isDone]

theorem Inv.submit (hi : Inv s) (hl : s.leaving = false) {l : List Hint} (hm : ∀ h ∈ l, h ∈ p)
    (hp : p.encodable = true) : Inv (s.submit p l) := by
  obtain ⟨hfinishing, hclosers⟩ := not_leaving hl
  have hflight : (s.submit p l).inFlight = s.inFlight := by
    cases hu : s.unmanned with
    | false => simp [Sys.submit, Sys.inFlight, hu]
    | true => rw [unmanned_inFlight hu]; simp [Sys.submit, Sys.inFlight, hu]
  constructor
  · intro h k hk
    rcases List.mem_append.mp hk with hk | hk
    · obtain ⟨hle, hk⟩ := hi.kept h k hk
      refine ⟨hle, hk.imp (fun hk => ?_) (Or.imp_left fun hk => ?_)⟩
      · exact Pending.mem_update.mpr (Or.inl hk)
      · rwa [hflight]
    · obtain ⟨g, hg, heq⟩ := List.mem_map.mp hk
      cases heq
      exact ⟨Nat.le_refl _, Or.inl (Pending.mem_update.mpr (Or.inr (hm h hg)))⟩
  · intro _
    refine ⟨rfl, ?_⟩
    cases hu : s.unmanned with
    | true => simp [Sys.submit, hu, Background.working]
    | false =>
        cases ht : s.task with
        | none => simp [Sys.unmanned, ht] at hu
        | some t =>
            rcases hi.task t ht with hw | rfl | rfl
            · simpa [Sys.submit, hu, ht] using hw
            · exact absurd ht (hfinishing _)
            · simp [Sys.unmanned, ht, Background.isDone] at hu
  · rw [Pending.encodable_iff]
    intro h hmem
    rcases Pending.mem_update.mp hmem with hmem | hmem
    · exact Pending.encodable_iff.mp hi.pending h hmem
    · exact Pending.encodable_iff.mp hp h hmem
  · rw [hflight]
    exact hi.batch
  · simp only [Sys.submit]
    split
    · rfl
    · exact hi.cancelling
  · intro t ht
    simp only [Sys.submit] at ht
    split at ht
    · cases ht
      exact Or.inl rfl
    · exact hi.task t ht
  · intro x c hc
    rcases hclosers x c hc with rfl | rfl | rfl <;> trivial

theorem Inv.nothing (hi : Inv s) (ht : s.task.any Background.working = false) : s.pending = {} := by
  by_contra hne
  simp [(hi.awake hne).2] at ht

/-- Before the end of the flush no call of `close` goes on. -/
theorem Inv.flushing (hi : Inv s) (ht : s.task ≠ some (.done .returned)) (x : ℕ) (c : Closer)
    (hc : s.closers.get x = some c) : c = .flushing ∨ c = .ended ∨ c = .raised := by
  have := hi.closers x c hc
  cases c with
  | flushed outcome => exact absurd this.2 ht
  | gathering done => exact absurd this.2 ht
  | _ => simp

theorem Inv.turning (hi : Inv s) (ht : s.task ≠ some (.done .returned)) (hb : s.inFlight = none) :
    Turning s where
  kept := by
    intro h k hk
    obtain ⟨hle, hk⟩ := hi.kept h k hk
    refine ⟨hle, hk.imp_right ?_⟩
    rintro (⟨batch, hbatch, -⟩ | hk)
    · simp [hb] at hbatch
    · exact hk
  awake := fun hne => (hi.awake hne).1
  pending := hi.pending
  cancelling := hi.cancelling
  closers := hi.flushing ht

/-- A send has succeeded. -/
theorem Inv.sent (hi : Inv s) (ht : s.task = some (.sending batch)) :
    Turning { s with
      delivered := s.delivered ++ [(s.begun - 1, notices batch)]
      delay := 100
      ready := s.closing || s.ready } where
  kept := by
    intro h k hk
    obtain ⟨hle, hk⟩ := hi.kept h k hk
    refine ⟨hle, ?_⟩
    rcases hk with hk | ⟨b, hb, hm, hlt⟩ | ⟨n, l, hm, hn, hc⟩
    · exact Or.inl hk
    · simp only [Sys.inFlight, ht, Option.some.injEq] at hb
      subst hb
      exact Or.inr ⟨s.begun - 1, notices batch, by simp, Nat.le_sub_one_of_lt hlt, Pending.carried hm⟩
    · exact Or.inr ⟨n, l, List.mem_append_left _ hm, hn, hc⟩
  awake := by
    intro hne
    simp [(hi.awake hne).1]
  pending := hi.pending
  cancelling := hi.cancelling
  closers := hi.flushing (by simp [ht])

theorem Inv.fail (hi : Inv s) (hb : s.inFlight = some batch) (ht : s.task ≠ some (.done .returned)) :
    Inv (s.fail batch) := by
  have hflight : (s.fail batch).inFlight = none := by
    cases hconn : s.conn <;> simp [Sys.fail, Sys.inFlight, hconn]
  constructor
  · intro h k hk
    obtain ⟨hle, hk⟩ := hi.kept h k hk
    refine ⟨hle, ?_⟩
    rcases hk with hk | ⟨b, hb', hm, -⟩ | hk
    · exact Or.inl (Pending.mem_update.mpr (Or.inl hk))
    · rw [hb] at hb'
      cases hb'
      exact Or.inl (Pending.mem_update.mpr (Or.inr hm))
    · exact Or.inr (Or.inr hk)
  · intro _
    refine ⟨rfl, ?_⟩
    cases hconn : s.conn <;> simp [Sys.fail, hconn, Background.working]
  · rw [Pending.encodable_iff]
    intro h hmem
    rcases Pending.mem_update.mp hmem with hmem | hmem
    · exact Pending.encodable_iff.mp hi.pending h hmem
    · exact Pending.encodable_iff.mp (hi.batch batch hb) h hmem
  · simp [hflight]
  · exact hi.cancelling
  · intro t htask
    cases htask
    split <;> exact Or.inl rfl
  · intro x c hc
    rcases hi.flushing ht x c hc with rfl | rfl | rfl <;> trivial

theorem Inv.advance (hi : Inv s) {t : Background} (ht : s.task = some t) (hs : s.advance t = some s') :
    Inv s' := by
  cases t with
  | created cancelled =>
      cases cancelled with
      | true => simpa [Background.working] using hi.task _ ht
      | false =>
          cases hs
          have htu := hi.turning (by simp [ht]) (by simp [Sys.inFlight, ht])
          have htu' : Turning { s with conn := false, delay := 100 } :=
            ⟨htu.kept, htu.awake, htu.pending, htu.cancelling, htu.closers⟩
          exact htu'.loop
  | waiting =>
      obtain ⟨-, hs⟩ := Option.ite_none_right_eq_some.mp hs
      cases hs
      exact (hi.turning (by simp [ht]) (by simp [Sys.inFlight, ht])).loop
  | connecting batch =>
      cases hs
      have hflight : s.inFlight = some batch := by simp [Sys.inFlight, ht]
      constructor
      · intro h k hk
        have := hi.kept h k hk
        rwa [hflight] at this
      · exact fun hne => ⟨(hi.awake hne).1, rfl⟩
      · exact hi.pending
      · have := hi.batch
        rwa [hflight] at this
      · exact hi.cancelling
      · intro t htask
        cases htask
        exact Or.inl rfl
      · intro x c hc
        rcases hi.flushing (by simp [ht]) x c hc with rfl | rfl | rfl <;> trivial
  | sending batch =>
      obtain ⟨-, hs⟩ := Option.ite_none_right_eq_some.mp hs
      cases hs
      exact (hi.sent ht).loop
  | dropping =>
      cases hs
      have htu := hi.turning (by simp [ht]) (by simp [Sys.inFlight, ht])
      constructor
      · intro h k hk
        obtain ⟨hle, hk⟩ := htu.kept h k hk
        exact ⟨hle, hk.imp_right Or.inr⟩
      · exact fun hne => ⟨htu.awake hne, rfl⟩
      · exact hi.pending
      · simp [Sys.inFlight]
      · exact hi.cancelling
      · intro t htask
        cases htask
        exact Or.inl rfl
      · exact fun x c hc => htu.orderly x c hc
  | sleeping =>
      cases hs
      have htu := hi.turning (by simp [ht]) (by simp [Sys.inFlight, ht])
      have htu' : Turning { s with delay := min 1000 (2 * s.delay) } :=
        ⟨htu.kept, htu.awake, htu.pending, htu.cancelling, htu.closers⟩
      exact htu'.loop
  | finishing outcome =>
      cases hs
      have hret : outcome = .returned := by simpa [Background.working] using hi.task _ ht
      have htu := hi.turning (by simp [ht]) (by simp [Sys.inFlight, ht])
      exact hret ▸ htu.done (hi.nothing (by simp [ht, Background.working]))
  | done outcome => cases hs

/-! ## Calls of `close` -/

/-- A call of `close` changes its own state and the flag. -/
theorem Inv.calls (hi : Inv s) {T : Table Closer} {b r : Bool} (hr : s.ready = true → r = true)
    (hT : ∀ x c, T.get x = some c → c.Orderly s) :
    Inv { s with closers := T, closing := b, ready := r } where
  kept := hi.kept
  awake := fun hne => ⟨hr (hi.awake hne).1, (hi.awake hne).2⟩
  pending := hi.pending
  batch := hi.batch
  cancelling := hi.cancelling
  task := hi.task
  closers := hT

theorem Inv.insert (hi : Inv s) {c : Closer} (hc : c.Orderly s) :
    Inv { s with closers := s.closers.insert c, closing := true, ready := true } := by
  apply hi.calls fun _ => rfl
  intro x c' hx
  rcases Table.get_insert_cases hx with ⟨-, rfl⟩ | hx
  · exact hc
  · exact hi.closers x c' hx

theorem Inv.setCloser (hi : Inv s) {x : ℕ} {c : Closer} (hc : c.Orderly s) : Inv (s.setCloser x c) := by
  apply hi.calls id
  intro y c' hy
  rcases Table.get_modify_cases hy with ⟨-, hy⟩ | ⟨-, -, -, rfl⟩
  · exact hi.closers y c' hy
  · exact hc

theorem Inv.close (hi : Inv s) : Inv (s.close false) := by
  cases ht : s.task with
  | none =>
      have he := hi.nothing (by simp [ht])
      have hend : Inv { s with closers := s.closers.insert .ended, closing := true, ready := true } :=
        hi.insert trivial
      simpa [Sys.close, ht, he] using hend
  | some t =>
      rcases hi.task t ht with hw | rfl | rfl
      · have hflush : Inv { s with closers := s.closers.insert .flushing, closing := true, ready := true } :=
          hi.insert trivial
        cases t with
        | finishing outcome => cases hw
        | done outcome => cases hw
        | _ => simpa [Sys.close, ht] using hflush
      · have hflush : Inv { s with closers := s.closers.insert .flushing, closing := true, ready := true } :=
          hi.insert trivial
        simpa [Sys.close, ht] using hflush
      · have hgather : Inv { s with
            closers := s.closers.insert (.gathering true), closing := true, ready := true } :=
          hi.insert ⟨rfl, ht⟩
        simpa [Sys.close, ht] using hgather

theorem Inv.resume (hi : Inv s) {x : ℕ} (hs : s.step (.resume x) = some s') : Inv s' := by
  simp only [Sys.step] at hs
  cases hc : s.closers.get x with
  | none => simp [hc] at hs
  | some c =>
      have horderly := hi.closers x c hc
      cases c with
      | flushed outcome =>
          obtain ⟨rfl, ht⟩ := horderly
          simp only [hc, Option.some.injEq] at hs
          subst hs
          have hgather : s.gather = (s, .gathering true) := by
            simp [Sys.gather, Sys.cancelTask, Sys.unmanned, ht, Background.isDone]
          rw [hgather]
          exact hi.setCloser ⟨rfl, ht⟩
      | gathering done =>
          obtain ⟨rfl, ht⟩ := horderly
          simp only [hc, Option.some.injEq] at hs
          subst hs
          have he := hi.nothing (by simp [ht, Background.working])
          have hend : Inv (s.setCloser x .ended) := hi.setCloser trivial
          simpa [Sys.setCloser, he] using hend
      | _ => simp [hc] at hs

theorem Inv.leave (hi : Inv s) {x : ℕ} (hs : s.step (.leave x) = some s') : Inv s' := by
  simp only [Sys.step] at hs
  cases hc : s.closers.get x with
  | none => simp [hc] at hs
  | some c =>
      cases c <;> simp only [hc, Option.some.injEq, reduceCtorEq] at hs <;> subst hs <;>
        exact hi.setCloser trivial

/-! ## Runs -/

@[simp] theorem gaveUp_done {outcome : Outcome} : (s.done outcome).gaveUp = s.gaveUp := rfl

/-- A step that meets the condition keeps the invariant, or some call of `close` has given up. -/
theorem Inv.step (hi : Inv s) (ht : s.Timely action) (hs : s.step action = some s') :
    s'.gaveUp = true ∨ Inv s' := by
  cases action with
  | wake types =>
      cases hs
      refine Or.inr (hi.submit ht.1 (p := { wake := types }) ?_ (Pending.encodable_iff.mpr ?_))
      · intro h hm
        obtain ⟨t, htm, rfl⟩ := List.mem_map.mp hm
        exact htm
      · rintro (t | i | t) hm
        · exact ht.2 t hm
        · rfl
        · cases hm
  | cancel ids =>
      cases hs
      refine Or.inr (hi.submit ht (p := { cancel := ids }) ?_ rfl)
      intro h hm
      obtain ⟨i, him, rfl⟩ := List.mem_map.mp hm
      exact him
  | feed states =>
      cases hs
      refine Or.inr (hi.submit ht.1 (p := { feed := states }) ?_ (Pending.encodable_iff.mpr ?_))
      · intro h hm
        obtain ⟨t, htm, rfl⟩ := List.mem_map.mp hm
        exact htm
      · rintro (t | i | t) hm
        · cases hm
        · rfl
        · exact ht.2 t hm
  | goOn =>
      simp only [Sys.step, hi.cancelling, Bool.false_eq_true, if_false] at hs
      obtain ⟨t, htask, hs⟩ := Option.bind_eq_some_iff.mp hs
      exact Or.inr (hi.advance htask hs)
  | fails =>
      simp only [Sys.step, hi.cancelling] at hs
      cases htask : s.task with
      | none => simp [htask] at hs
      | some t =>
          cases t <;> simp only [htask, Option.some.injEq, reduceCtorEq] at hs <;> subst hs <;>
            exact Or.inr (hi.fail (by simp [Sys.inFlight, htask]) (by simp [htask]))
  | crashes =>
      simp only [Sys.step, hi.cancelling] at hs
      cases htask : s.task with
      | none => simp [htask] at hs
      | some t =>
          cases t with
          | sending batch =>
              have hb := hi.batch batch (by simp [Sys.inFlight, htask])
              simp [htask, hb] at hs
          | _ => simp [htask] at hs
  | interrupt =>
      cases htask : s.task <;> simp [Sys.step, htask, hi.cancelling] at hs
  | close immediate =>
      cases hs
      cases immediate with
      | false => exact Or.inr hi.close
      | true =>
          cases htask : s.task with
          | none =>
              have heq : s.close true = s.close false := by simp [Sys.close, htask]
              exact Or.inr (heq ▸ hi.close)
          | some t => exact Or.inl (by simp [Sys.close, htask])
  | timeout x =>
      obtain ⟨-, hs⟩ := Option.ite_none_right_eq_some.mp hs
      cases hs
      exact Or.inl rfl
  | resume x => exact Or.inr (hi.resume hs)
  | leave x => exact Or.inr (hi.leave hs)

end Fronta.Hints
