import Fronta.Publish.System

/-!
# What a publication reports

The versions only grow, so a publication replaces the one of its snapshot or a later one.
-/

namespace Fronta.Publish

open Sql Runs

variable {s s' : Sys} {x : Publication} {p : Ref} {n : ℕ} {action : Action} {actions : List Action}

/-- Snapshots are taken before writes. -/
structure Inv (s : Sys) : Prop where
  seen : ∀ p x, s.publications.get p = some x → x.seen ≤ s.versions.length
  before : ∀ p x n, s.publications.get p = some x → x.before = some n → x.seen ≤ n ∧ n ≤ s.versions.length

theorem Inv.init : Inv .init where
  seen _ _ hx := by simp [Sys.init] at hx
  before _ _ _ hx := by simp [Sys.init] at hx

/-- One publication changes, and versions may be added. -/
theorem Inv.modify (h : Inv s) {vs : List Fingerprint} (hx : x.seen ≤ s.versions.length)
    (hb : ∀ n, x.before = some n → x.seen ≤ n ∧ n ≤ s.versions.length) :
    Inv { s.modify p x with versions := s.versions ++ vs } := by
  have hle : s.versions.length ≤ (s.versions ++ vs).length := by simp
  constructor
  · intro q y hy
    rcases Table.get_modify_cases hy with ⟨-, hy⟩ | ⟨-, -, -, rfl⟩
    · exact (h.seen q y hy).trans hle
    · exact hx.trans hle
  · intro q y n hy hn
    rcases Table.get_modify_cases hy with ⟨-, hy⟩ | ⟨-, -, -, rfl⟩
    · exact ⟨(h.before q y n hy hn).1, (h.before q y n hy hn).2.trans hle⟩
    · exact ⟨(hb n hn).1, (hb n hn).2.trans hle⟩

theorem Inv.modify_same (h : Inv s) (hx : x.seen ≤ s.versions.length)
    (hb : ∀ n, x.before = some n → x.seen ≤ n ∧ n ≤ s.versions.length) : Inv (s.modify p x) := by
  simpa [Sys.modify] using @Inv.modify _ _ p h [] hx hb

theorem Inv.step (h : Inv s) (hs : s.step action = some s') : Inv s' := by
  cases action with
  | start fingerprint =>
      cases hs
      constructor
      · intro q y hy
        rcases Table.get_insert_cases hy with ⟨-, rfl⟩ | hy
        · exact Nat.le_refl _
        · exact h.seen q y hy
      · intro q y n hy hn
        rcases Table.get_insert_cases hy with ⟨-, rfl⟩ | hy
        · cases hn
        · exact h.before q y n hy hn
  | write p =>
      obtain ⟨x, hx, hs⟩ := Option.bind_eq_some_iff.mp hs
      obtain ⟨-, hs⟩ := Option.ite_none_right_eq_some.mp hs
      cases hs
      refine h.modify_same (h.seen p x hx) fun n hn => ?_
      cases hn
      exact ⟨h.seen p x hx, Nat.le_refl _⟩
  | commit p =>
      obtain ⟨x, hx, hs⟩ := Option.bind_eq_some_iff.mp hs
      obtain ⟨-, hs⟩ := Option.ite_none_right_eq_some.mp hs
      cases hs
      exact h.modify (h.seen p x hx) fun n => h.before p x n hx
  | abort p =>
      obtain ⟨x, hx, hs⟩ := Option.bind_eq_some_iff.mp hs
      obtain ⟨-, hs⟩ := Option.ite_none_right_eq_some.mp hs
      cases hs
      exact h.modify_same (h.seen p x hx) fun n => h.before p x n hx

/-- The version that is replaced is the last one that the snapshot missed, or the one that it shows. -/
theorem version_before (hn : x.before = some n) (hle : x.seen ≤ n) :
    s.version n = (s.missed x).getLast?.or (s.returned x) := by
  have hsplit : s.versions.take n = s.versions.take x.seen ++ (s.versions.take n).drop x.seen := by
    conv_lhs => rw [← List.take_append_drop x.seen (s.versions.take n)]
    rw [List.take_take, Nat.min_eq_left hle]
  rw [Sys.version, hsplit, List.getLast?_append, Sys.missed, hn, Option.getD_some]
  rfl

theorem version_eq_none (h : n ≤ s.versions.length) : s.version n = none ↔ n = 0 := by
  rw [Sys.version, List.getLast?_eq_none_iff, List.take_eq_nil_iff]
  constructor
  · rintro (h0 | h0)
    · exact h0
    · simpa [h0] using h
  · exact Or.inl

/-- A publication returns the fingerprint that it replaced, nothing exactly if it inserted the first row, and
warns of every other definition, if and only if the last version that its snapshot missed has the fingerprint
of the one that it shows. -/
theorem publication_reports (hr : run Sys.step .init actions = some s)
    (hx : s.publications.get p = some x) (hn : x.before = some n) :
    (s.returned x = s.version n ∧ (s.returned x = none ↔ n = 0) ∧
      (s.warns x = true ↔ ∃ f, s.version n = some f ∧ f ≠ x.fingerprint)) ↔
    ∀ f, (s.missed x).getLast? = some f → s.version x.seen = some f := by
  have h : Inv s := Reachable.invariant ⟨actions, hr⟩ Inv.init fun _ _ _ h hs => h.step hs
  obtain ⟨hle, hlen⟩ := h.before p x n hx hn
  have hv := version_before (s := s) hn hle
  constructor
  · rintro ⟨heq, -, -⟩ f hf
    exact heq.trans (by rw [hv, hf]; rfl)
  · intro hm
    have heq : s.returned x = s.version n := by
      cases hf : (s.missed x).getLast? with
      | none => rw [hv, hf, Option.none_or]
      | some f => rw [Sys.returned, hm f hf, hv, hf, Option.some_or]
    refine ⟨heq, by rw [heq]; exact version_eq_none hlen, ?_⟩
    simp only [Sys.warns, heq, Option.any_eq_true, decide_eq_true_eq, ne_eq]

section Runs

theorem publication_reports_next : ∃ s x, run Sys.step .init
      [.start "a", .write 1, .commit 1, .start "b", .write 2] = some s ∧
    s.publications.get 2 = some x ∧ s.returned x = some "a" ∧ s.returned x = s.version 1 := by
  have hrun : (run Sys.step .init [.start "a", .write 1, .commit 1, .start "b", .write 2]).any (fun s =>
      (s.publications.get 2).any fun x => x.before = some 1 ∧ s.returned x = some "a" ∧ s.missed x = []) =
        true := by decide +kernel
  obtain ⟨s, hs, hp⟩ := Option.any_eq_true _ _ |>.mp hrun
  obtain ⟨x, hx, hp⟩ := Option.any_eq_true _ _ |>.mp hp
  obtain ⟨hb, hret, hm⟩ := of_decide_eq_true hp
  have h := (publication_reports hs hx hb).mpr (by simp [hm])
  exact ⟨s, x, hs, hx, hret, h.1⟩

/-- Two workers start together: the second one replaces the definition of the first and reports nothing. -/
theorem waiting_publication_reports_nothing : ∃ s x, run Sys.step .init
      [.start "a", .start "b", .write 1, .commit 1, .write 2, .commit 2] = some s ∧
    s.publications.get 2 = some x ∧ x.before = some 1 ∧ s.version 1 = some "a" ∧ s.returned x = none ∧
      s.warns x = false := by
  have hrun : (run Sys.step .init [.start "a", .start "b", .write 1, .commit 1, .write 2, .commit 2]).any
      (fun s => (s.publications.get 2).any fun x => x.before = some 1 ∧ s.version 1 = some "a" ∧
        s.returned x = none ∧ s.warns x = false) = true := by decide +kernel
  obtain ⟨s, hs, hp⟩ := Option.any_eq_true _ _ |>.mp hrun
  obtain ⟨x, hx, hp⟩ := Option.any_eq_true _ _ |>.mp hp
  exact ⟨s, x, hs, hx, of_decide_eq_true hp⟩

end Runs

end Fronta.Publish
