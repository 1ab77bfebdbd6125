import Fronta.Pidfd.System

/-!
# One wait at a time

While waits do not overlap, the one in progress is the reader, and `_waiting` is about it. It is the last one when
it ends, so a close that it held up is performed then.
-/

namespace Fronta.Pidfd

open Sql

variable {s s' : Sys} {x y : Ref} {w w' : Wait} {f : Wait → Wait} {outcome : Outcome}

/-! ## Waits -/

theorem get_modify_self (h : s.waits.get x = some w) : (s.modify x f).waits.get x = some (f w) := by
  simp [Sys.modify, h]

@[simp] theorem waits_close : s.close.waits = s.waits := by
  unfold Sys.close
  split_ifs <;> rfl

theorem waits_finish (hfd : 0 ≤ s.fd) : (s.finish x w).waits = (s.ended x (Sys.verdict w)).waits := by
  simp only [Sys.finish, if_neg (Int.not_lt.mpr hfd)]
  split_ifs
  · exact waits_close
  · rfl

/-- How a wait ends on an open descriptor. -/
theorem get_finish (hfd : 0 ≤ s.fd) (hx : s.waits.get x = some w) :
    (s.finish x w).waits.get x = some { w with
      outcome := some (Sys.verdict w)
      exited := if w.timedOut then w.exited else s.exited } := by
  rw [waits_finish hfd]
  exact get_modify_self hx

theorem pending_eq : s.pending x = some w ↔ s.waits.get x = some w ∧ w.outcome = none := by
  simp [Sys.pending, Option.filter_eq_some_iff]

theorem idle_iff : s.Idle ↔ ∀ x w, s.waits.get x = some w → w.outcome ≠ none :=
  ⟨fun h x w hw => h (x, w) (Table.mem_entries.mpr hw), fun h x hx => h x.1 x.2 (Table.mem_entries.mp hx)⟩

/-! ## The invariant -/

structure Inv (s : Sys) : Prop where
  busy : ∀ x w, s.waits.get x = some w → w.outcome = none →
    s.waiting = true ∧ s.reader = some x ∧ 0 ≤ s.fd
  told : ∀ x w, s.waits.get x = some w → w.outcome = none → w.told = true → s.exited = true
  timed : ∀ x w, s.waits.get x = some w → w.outcome = none → w.timedOut = true → w.cancelled = false →
    w.exited = false
  waiting : s.waiting = true → ¬s.Idle
  errors : ∀ x w, s.waits.get x = some w → w.outcome ≠ some .raised
  answers : ∀ x w exited, s.waits.get x = some w → w.outcome = some (.returned exited) → exited = w.exited
  unclosed : 0 ≤ s.fd → s.closes = 0
  closed : s.fd < 0 → s.closes = 1 ∧ s.requested = true
  asked : s.closeRequested = true → s.requested = true
  owed : s.requested = true → s.fd < 0 ∨ s.waiting = true ∧ s.closeRequested = true

theorem inv_init (fd : ℕ) : Inv (.init fd) where
  busy _ _ h := by cases h
  told _ _ h := by cases h
  timed _ _ h := by cases h
  waiting h := by cases h
  errors _ _ h := by cases h
  answers _ _ _ h := by cases h
  unclosed _ := rfl
  closed h := absurd (Int.natCast_nonneg fd) (Int.not_le.mpr h)
  asked h := by cases h
  owed h := by cases h

theorem Inv.promised (h : Inv s) : Promised s where
  held x w hw ho := (h.busy x w hw ho).2.2
  errors := h.errors
  answers := h.answers
  once := by
    by_cases hfd : s.fd < 0
    · exact (h.closed hfd).1.le
    · rw [h.unclosed (Int.not_lt.mp hfd)]
      exact Nat.zero_le 1
  asked hc := by
    by_cases hfd : s.fd < 0
    · exact (h.closed hfd).2
    · rw [h.unclosed (Int.not_lt.mp hfd)] at hc
      cases hc
  performed hr hidle := by
    rcases h.owed hr with hfd | ⟨hw, -⟩
    · exact ⟨(h.closed hfd).1, hfd⟩
    · exact absurd hidle (h.waiting hw)

/-- A wait that does not end by it is changed. -/
theorem Inv.modify (h : Inv s) (hf : ∀ w, s.waits.get x = some w → (f w).outcome = w.outcome ∧
    (w.outcome ≠ none → (f w).exited = w.exited) ∧
    (w.outcome = none → ((f w).told = true → s.exited = true) ∧
      ((f w).timedOut = true → (f w).cancelled = false → (f w).exited = false))) : Inv (s.modify x f) where
  busy y w' hw' ho := by
    rcases Table.get_modify_cases hw' with ⟨-, hw⟩ | ⟨rfl, w, hw, rfl⟩
    · exact h.busy y w' hw ho
    · exact h.busy y w hw ((hf w hw).1 ▸ ho)
  told y w' hw' ho ht := by
    rcases Table.get_modify_cases hw' with ⟨-, hw⟩ | ⟨rfl, w, hw, rfl⟩
    · exact h.told y w' hw ho ht
    · exact ((hf w hw).2.2 ((hf w hw).1 ▸ ho)).1 ht
  timed y w' hw' ho := by
    rcases Table.get_modify_cases hw' with ⟨-, hw⟩ | ⟨rfl, w, hw, rfl⟩
    · exact h.timed y w' hw ho
    · exact ((hf w hw).2.2 ((hf w hw).1 ▸ ho)).2
  waiting hw hidle := by
    refine h.waiting hw (idle_iff.mpr fun y w hy => ?_)
    by_cases hyx : y = x
    · subst hyx
      rw [← (hf w hy).1]
      exact idle_iff.mp hidle y _ (get_modify_self hy)
    · refine idle_iff.mp hidle y w ?_
      simp [Sys.modify, Table.get_modify, hy, hyx]
  errors y w' hw' := by
    rcases Table.get_modify_cases hw' with ⟨-, hw⟩ | ⟨rfl, w, hw, rfl⟩
    · exact h.errors y w' hw
    · rw [(hf w hw).1]
      exact h.errors y w hw
  answers y w' exited hw' ho := by
    rcases Table.get_modify_cases hw' with ⟨-, hw⟩ | ⟨rfl, w, hw, rfl⟩
    · exact h.answers y w' exited hw ho
    · rw [(hf w hw).1] at ho
      rw [(hf w hw).2.1 (by rw [ho]; nofun)]
      exact h.answers y w exited hw ho
  unclosed := h.unclosed
  closed := h.closed
  asked := h.asked
  owed := h.owed

/-! ## Steps -/

theorem Inv.wait (h : Inv s) (hidle : s.Idle) (hc : s.fd < 0 → s.exited = true) : Inv s.waitExit := by
  have hnone : ∀ {y w}, s.waits.get y = some w → w.outcome = none → False := fun hw ho =>
    idle_iff.mp hidle _ _ hw ho
  unfold Sys.waitExit
  split_ifs with hfd
  · refine ⟨fun y w hw ho => ?_, fun y w hw ho => ?_, fun y w hw ho => ?_,
      fun hw => absurd hidle (h.waiting hw), fun y w hw => ?_, fun y w exited hw ho => ?_, h.unclosed,
      h.closed, h.asked, h.owed⟩
    all_goals rcases Table.get_insert_cases hw with ⟨-, rfl⟩ | hw
    · cases ho
    · exact absurd ho (hnone hw)
    · cases ho
    · exact absurd ho (hnone hw)
    · cases ho
    · exact absurd ho (hnone hw)
    · nofun
    · exact h.errors y w hw
    · cases ho
      exact (hc hfd).symm
    · exact h.answers y w exited hw ho
  · have hfd := Int.not_lt.mp hfd
    refine ⟨fun y w hw ho => ?_, fun y w hw ho => ?_, fun y w hw ho => ?_, fun _ hi => ?_,
      fun y w hw => ?_, fun y w exited hw ho => ?_, h.unclosed, h.closed, h.asked, fun hr => ?_⟩
    · rcases Table.get_insert_cases hw with ⟨rfl, rfl⟩ | hw
      · exact ⟨rfl, rfl, hfd⟩
      · exact absurd ho (hnone hw)
    · rcases Table.get_insert_cases hw with ⟨rfl, rfl⟩ | hw
      · nofun
      · exact absurd ho (hnone hw)
    · rcases Table.get_insert_cases hw with ⟨rfl, rfl⟩ | hw
      · nofun
      · exact absurd ho (hnone hw)
    · exact idle_iff.mp hi _ _ Table.get_insert_self rfl
    · rcases Table.get_insert_cases hw with ⟨rfl, rfl⟩ | hw
      · nofun
      · exact h.errors y w hw
    · rcases Table.get_insert_cases hw with ⟨rfl, rfl⟩ | hw
      · cases ho
      · exact h.answers y w exited hw ho
    · rcases h.owed hr with hlt | ⟨hw, -⟩
      · exact Or.inl hlt
      · exact absurd hidle (h.waiting hw)

theorem Inv.exit (h : Inv s) : Inv { s with exited := true } :=
  ⟨h.busy, fun _ _ _ _ _ => rfl, h.timed, h.waiting, h.errors, h.answers, h.unclosed, h.closed, h.asked,
    h.owed⟩

theorem Inv.close (h : Inv s) : Inv { s.close with requested := true } := by
  unfold Sys.close
  split_ifs with hw hfd
  · exact ⟨h.busy, h.told, h.timed, h.waiting, h.errors, h.answers, h.unclosed,
      fun hlt => ⟨(h.closed hlt).1, rfl⟩, fun _ => rfl, fun _ => Or.inr ⟨hw, rfl⟩⟩
  · have hneg : (-1 : ℤ) < 0 := by decide
    exact ⟨fun x w hx ho => absurd (h.busy x w hx ho).1 hw, h.told, h.timed, h.waiting, h.errors, h.answers,
      fun hle => absurd hle (Int.not_le.mpr hneg), fun _ => ⟨by rw [h.unclosed hfd], rfl⟩, fun _ => rfl,
      fun _ => Or.inl hneg⟩
  · exact ⟨h.busy, h.told, h.timed, h.waiting, h.errors, h.answers, h.unclosed,
      fun hlt => ⟨(h.closed hlt).1, rfl⟩, fun _ => rfl, fun _ => Or.inl (Int.not_le.mp hfd)⟩

theorem Inv.finish (h : Inv s) (hx : s.waits.get x = some w) (ho : w.outcome = none)
    (hend : w.told = true ∨ w.timedOut = true ∨ w.cancelled = true) : Inv (s.finish x w) := by
  obtain ⟨hwait, hreader, hfd⟩ := h.busy x w hx ho
  have hother : ∀ y u, y ≠ x → s.waits.get y = some u → u.outcome ≠ none := by
    intro y u hyx hy hu
    have hr := (h.busy y u hy hu).2.1
    rw [hreader] at hr
    exact hyx (Option.some.inj hr).symm
  have hanswer : ∀ exited, Sys.verdict w = .returned exited →
      exited = if w.timedOut then w.exited else s.exited := by
    intro exited hv
    unfold Sys.verdict at hv
    split_ifs at hv with hc ht
    · cases hv
      rw [if_pos ht, h.timed x w hx ho ht (Bool.eq_false_iff.mpr hc)]
    · cases hv
      have htold := hend.resolve_right fun hor => hor.elim ht hc
      rw [if_neg ht, h.told x w hx ho htold]
  have hverdict : Sys.verdict w ≠ .raised := by
    unfold Sys.verdict
    split_ifs <;> nofun
  have hend : Inv { s.ended x (Sys.verdict w) with
      reader := none
      waiting := false
      fd := if s.closeRequested then -1 else s.fd
      closes := if s.closeRequested then s.closes + 1 else s.closes } := by
    have hidle : ∀ y u, (s.ended x (Sys.verdict w)).waits.get y = some u → u.outcome ≠ none := by
      intro y u hy
      rcases Table.get_modify_cases hy with ⟨hyx, hy⟩ | ⟨rfl, u, hy, rfl⟩
      · exact hother y u hyx hy
      · nofun
    refine ⟨fun y u hy hu => absurd hu (hidle y u hy), fun y u hy hu => absurd hu (hidle y u hy),
      fun y u hy hu => absurd hu (hidle y u hy), nofun, fun y u hy => ?_, fun y u exited hy hu => ?_,
      fun hle => ?_, fun hlt => ?_, h.asked, fun hr => ?_⟩
    · rcases Table.get_modify_cases hy with ⟨-, hy⟩ | ⟨rfl, u, hy, rfl⟩
      · exact h.errors y u hy
      · exact fun he => hverdict (Option.some.inj he)
    · rcases Table.get_modify_cases hy with ⟨-, hy⟩ | ⟨rfl, u, hy₀, rfl⟩
      · exact h.answers y u exited hy hu
      · cases hx.symm.trans hy₀
        exact hanswer exited (Option.some.inj hu)
    · dsimp only at hle ⊢
      split_ifs at hle ⊢ with hc
      · exact absurd hle (by decide)
      · exact h.unclosed hle
    · dsimp only at hlt ⊢
      split_ifs at hlt ⊢ with hc
      · exact ⟨by rw [h.unclosed hfd], h.asked hc⟩
      · exact absurd hfd (Int.not_le.mpr hlt)
    · refine Or.inl ?_
      have hc : s.closeRequested = true := (h.owed hr).elim (fun hlt => absurd hfd (Int.not_le.mpr hlt)) And.right
      simp [hc]
  unfold Sys.finish
  rw [if_neg (Int.not_lt.mpr hfd)]
  by_cases hc : s.closeRequested = true
  · have hfd' : 0 ≤ (s.ended x (Sys.verdict w)).fd := hfd
    simpa [Sys.ended, Sys.modify, hc, Sys.close, hfd] using hend
  · simpa [Sys.ended, Sys.modify, hc] using hend

theorem Inv.step (h : Inv s) {action : Action} (hc : s.Calm action) (hs : s.step action = some s') : Inv s' := by
  cases action with
  | wait =>
      cases hs
      exact h.wait hc.1 hc.2
  | exit =>
      obtain ⟨-, hs⟩ := Option.ite_none_left_eq_some.mp hs
      cases hs
      exact h.exit
  | ready =>
      simp only [Sys.step] at hs
      split at hs
      · obtain ⟨hexit, hs⟩ := Option.ite_none_right_eq_some.mp hs
        cases hs
        exact h.modify fun w hw => ⟨rfl, fun _ => rfl, fun ho => ⟨fun _ => hexit, h.timed _ w hw ho⟩⟩
      · cases hs
  | timer x =>
      obtain ⟨w, hw, hs⟩ := Option.bind_eq_some_iff.mp hs
      obtain ⟨-, hs⟩ := Option.ite_none_left_eq_some.mp hs
      cases hs
      obtain ⟨hw, ho⟩ := pending_eq.mp hw
      refine h.modify fun u hu => ?_
      cases hw.symm.trans hu
      refine ⟨rfl, fun hne => absurd ho hne, fun _ => ⟨h.told x w hw ho, fun _ hcancel => ?_⟩⟩
      have hcancel : w.cancelled = false := hcancel
      simpa [Sys.Calm, hw, hcancel] using hc
  | cancel x =>
      obtain ⟨w, hw, rfl⟩ := Option.map_eq_some_iff.mp hs
      refine h.modify fun u hu => ⟨rfl, fun _ => rfl, fun ho => ⟨h.told x u hu ho, fun _ hcancel => ?_⟩⟩
      cases hcancel
  | resume x =>
      obtain ⟨w, hw, hs⟩ := Option.bind_eq_some_iff.mp hs
      obtain ⟨hend, hs⟩ := Option.ite_none_right_eq_some.mp hs
      cases hs
      obtain ⟨hw, ho⟩ := pending_eq.mp hw
      simp only [Bool.or_eq_true, or_assoc] at hend
      exact h.finish hw ho hend
  | close =>
      cases hs
      exact h.close

end Fronta.Pidfd
