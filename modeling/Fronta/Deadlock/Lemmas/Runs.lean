import Fronta.Deadlock.Lemmas.Steps

/-!
# Runs of transactions

The end of a transaction drops its locks. The rows that it deletes were its own alone, so that nobody else
loses a row that it relies on.
-/

namespace Fronta.Deadlock

open Sql
open Feed (Target TxnId Generation Seq)

variable {s s' : Sys} {p q : TxnId} {x x' : Txn} {action : Action}

namespace Inv

/-- The transaction ends, and leaves the others what they rely on. -/
theorem ended (h : Inv s) {registrations events : Table Name}
    (hk : ∀ q, q ≠ p →
      Kept s { s.finish p with registrations := registrations, events := events } q)
    (hn : ∀ g name, registrations.get g = some name → s.registrations.get g = some name) :
    Inv { s.finish p with registrations := registrations, events := events } := by
  have hgone : (s.finish p).txns.get p = none := by
    cases hx : s.txns.get p <;> simp [Sys.finish, Table.get_erase, hx]
  refine h.of_kept p hk (fun q hq => ?_) (h.sound.release p)
    (fun g g' name hg hg' => h.names g g' name (hn g name hg) (hn g' name hg')) (fun r m hl => ?_)
    fun x hx => ?_
  · cases hx : s.txns.get q <;> simp [Sys.finish, Table.get_erase, hx, hq]
  · exact absurd rfl (Locks.holds_release.mp hl).2
  · cases hgone.symm.trans hx

theorem rollback (h : Inv s) (hs : s.step (.rollback p) = some s') : Inv s' := by
  obtain ⟨x, hx, rfl⟩ := Option.map_eq_some_iff.mp hs
  exact h.ended (fun q hq => .of_locks (fun r m => by simp [Sys.finish, hq]) rfl rfl) fun _ _ => id

theorem commit (h : Inv s) {inserted : List Name} (hs : s.step (.commit p inserted) = some s') :
    Inv s' := by
  obtain ⟨x, hx, hs⟩ := Option.bind_eq_some_iff.mp hs
  obtain ⟨-, hs⟩ := Option.ite_none_right_eq_some.mp hs
  cases hs
  refine h.ended (fun q hq => ⟨fun r m => by simp [Sys.finish, hq], extends_erase _ _,
    (extends_erase _ _).trans (extends_inserts _ _), fun g name hl hg => ?_⟩)
    fun g name hg => (Table.get_erase_eq_some.mp hg).1
  refine Table.get_erase_eq_some.mpr ⟨hg, ?_⟩
  -- the row that goes is locked by the transaction that ends
  rw [decide_eq_false_iff_not]
  intro ht
  obtain ⟨-, -, hl', -⟩ := (h.txns p x hx).target g ht
  exact hq (h.sound.exclusive hl' hl)

theorem register (h : Inv s) {name : Name} (hs : s.step (.register name) = some s') : Inv s' := by
  simp only [Sys.step] at hs
  split at hs
  · rename_i hreg
    have hfree : ∀ g, s.registrations.get g ≠ some name := fun g hg => by
      have := Table.find_eq_none.mp (Option.map_eq_none_iff.mp hreg) g name hg
      simp at this
    cases hs
    have hk : ∀ q, Kept s { s with registrations := s.registrations.insert name } q := fun q =>
      ⟨fun _ _ => Iff.rfl, extends_insert _ _, .refl _, fun _ _ _ hg => Table.get_insert_of_get hg⟩
    refine ⟨h.sound, h.keeps, fun g g' n hg hg' => ?_, fun p x hx => (h.txns p x hx).kept (hk p)⟩
    rcases Table.get_insert_cases hg with ⟨rfl, rfl⟩ | hg <;>
      rcases Table.get_insert_cases hg' with ⟨rfl, hn⟩ | hg'
    · rfl
    · exact absurd hg' (hfree g')
    · exact absurd (hn ▸ hg) (hfree g)
    · exact h.names g g' n hg hg'
  · obtain ⟨-, hs⟩ := Option.ite_none_right_eq_some.mp hs
    cases hs
    exact h

theorem init : Inv .init where
  sound := Locks.sound_nil
  keeps _ _ _ hl := by simp [Sys.init, Locks.Holds] at hl
  names _ _ _ hg := by simp [Sys.init] at hg
  txns _ _ hx := by simp [Sys.init] at hx

theorem step (h : Inv s) (hs : s.step action = some s') : Inv s' := by
  cases action with
  | begin statement => exact h.begin statement hs
  | lock p => exact h.lock hs
  | pass p => exact h.pass hs
  | skip p r => exact h.skip hs
  | publish p generations => exact h.publish hs
  | see p seqs => exact h.see hs
  | commit p inserted => exact h.commit hs
  | rollback p => exact h.rollback hs
  | register name => exact h.register hs

end Inv

/-! ## Events that are deleted -/

/-- Another transaction is where it was, with the locks that it had. -/
def Untouched (s s' : Sys) (q : TxnId) : Prop :=
  s'.txns.get q = s.txns.get q ∧ ∀ r m, s'.locks.Holds r q m → s.locks.Holds r q m

/-- How a transaction came to the events that it has still to delete. -/
inductive Deletes (s s' : Sys) (p : TxnId) (x' : Txn) (rest : List Seq) : Action → Prop
  | same {action : Action} (h : Untouched s s' p) : Deletes s s' p x' rest action
  | next {action : Action} (x : Txn) (seq : Seq) (hx : s.txns.get p = some x)
      (hs : x.stage = .events (seq :: rest)) (ht : x'.target = x.target)
      (hl : ∀ r m, s'.locks.Holds r p m → r = .event seq ∨ s.locks.Holds r p m) :
      Deletes s s' p x' rest action
  | see (x : Txn) (hx : s.txns.get p = some x) (hs : x.stage = .registrationDeleted)
      (ht : x'.target = x.target) (hd : rest.Nodup) (hl : s'.locks = s.locks) :
      Deletes s s' p x' rest (.see p rest)

theorem eventsOf_nodup {name : Name} : (s.eventsOf name).Nodup :=
  s.events.entries_nodup.sublist (List.filter_sublist.map _)

theorem untouched_setTxn {L : Locks Target TxnId} (hq : q ≠ p)
    (hl : ∀ r m, L.Holds r q m → s.locks.Holds r q m) :
    Untouched s { s.setTxn p x' with locks := L } q :=
  ⟨get_setTxn_of_ne hq, hl⟩

theorem untouched_of_gets (hx : s'.txns.get q = some x') (hl : ∀ r m, s'.locks.Holds r q m → s.locks.Holds r q m)
    (hs : s.txns.get q = some x') : Untouched s s' q :=
  ⟨hx.trans hs.symm, hl⟩

theorem deletes {rest : List Seq} (hs : s.step action = some s') (hx' : s'.txns.get p = some x')
    (hst : x'.stage = .events rest) : Deletes s s' p x' rest action := by
  cases action with
  | begin statement =>
      cases hs
      rcases Table.get_insert_cases hx' with ⟨-, rfl⟩ | hx
      · exact absurd hst not_events_first
      · exact .same (untouched_of_gets hx' (fun _ _ => id) hx)
  | lock q =>
      obtain ⟨y, hy, hs⟩ := Option.bind_eq_some_iff.mp hs
      obtain ⟨⟨r, m⟩, hr, hs⟩ := Option.bind_eq_some_iff.mp hs
      obtain ⟨-, hs⟩ := Option.ite_none_right_eq_some.mp hs
      cases hs
      by_cases hq : p = q
      · subst hq
        have he : some x' = some y.locked := hx'.symm.trans (get_setTxn_self hy)
        cases he
        obtain ⟨⟨seq, hseq⟩, ht⟩ := locked_events hst (by rw [hr]; nofun)
        refine .next y seq hy hseq ht fun r' m' hl => ?_
        simp only [Txn.wants, hseq, Option.some.injEq, Prod.mk.injEq] at hr
        exact (Locks.holds_acquire.mp hl).imp (fun he => he.1.trans hr.1.symm) id
      · exact .same (untouched_setTxn hq fun r' m' hl => by simpa [hq] using hl)
  | pass q =>
      obtain ⟨y, hy, hs⟩ := Option.bind_eq_some_iff.mp hs
      obtain ⟨⟨r, m⟩, hr, hs⟩ := Option.bind_eq_some_iff.mp hs
      obtain ⟨-, hs⟩ := Option.ite_none_left_eq_some.mp hs
      cases hs
      by_cases hq : p = q
      · subst hq
        have he : some x' = some y.passed := hx'.symm.trans (get_setTxn_self hy)
        cases he
        have hw : y.wants ≠ none := by rw [hr]; nofun
        obtain ⟨⟨seq, hseq⟩, hp⟩ := passed_events hst hw
        have ht := (locked_events (hp ▸ hst) hw).2
        exact .next y seq hy hseq (hp ▸ ht) fun _ _ => Or.inr
      · exact .same (untouched_setTxn hq fun _ _ => id)
  | skip q r =>
      obtain ⟨y, hy, hs⟩ := Option.bind_eq_some_iff.mp hs
      obtain ⟨hg, hs⟩ := Option.ite_none_right_eq_some.mp hs
      cases hs
      refine .same ⟨rfl, fun r' m hl => ?_⟩
      rcases Locks.holds_acquire.mp hl with ⟨-, rfl, -⟩ | hl
      · cases hy.symm.trans hx'
        simp only [Bool.and_eq_true] at hg
        have hskip := hg.1.1.1
        cases r <;> simp [Txn.skips, hst] at hskip
      · exact hl
  | publish q generations =>
      obtain ⟨y, hy, hs⟩ := Option.bind_eq_some_iff.mp hs
      obtain ⟨-, hs⟩ := Option.ite_none_right_eq_some.mp hs
      cases hs
      by_cases hq : p = q
      · subst hq
        cases hx'.symm.trans (get_setTxn_self hy)
        cases hst
      · exact .same (untouched_setTxn hq fun _ _ => id)
  | see q seqs =>
      obtain ⟨y, hy, hs⟩ := Option.bind_eq_some_iff.mp hs
      split at hs
      · rename_i name hu hy'
        obtain ⟨hperm, hs⟩ := Option.ite_none_right_eq_some.mp hs
        cases hs
        by_cases hq : p = q
        · subst hq
          cases hx'.symm.trans (get_setTxn_self hy)
          cases hst
          exact .see y hy hy' rfl ((List.isPerm_iff.mp hperm).nodup_iff.mpr eventsOf_nodup) rfl
        · exact .same (untouched_setTxn hq fun _ _ => id)
      · cases hs
  | commit q inserted =>
      obtain ⟨y, hy, hs⟩ := Option.bind_eq_some_iff.mp hs
      obtain ⟨-, hs⟩ := Option.ite_none_right_eq_some.mp hs
      cases hs
      exact .same (untouched_of_gets hx' (fun _ _ hl => (Locks.holds_release.mp hl).1)
        (Table.get_erase_eq_some.mp hx').1)
  | rollback q =>
      obtain ⟨y, hy, rfl⟩ := Option.map_eq_some_iff.mp hs
      exact .same (untouched_of_gets hx' (fun _ _ hl => (Locks.holds_release.mp hl).1)
        (Table.get_erase_eq_some.mp hx').1)
  | register name =>
      simp only [Sys.step] at hs
      split at hs
      · cases hs
        exact .same ⟨rfl, fun _ _ => id⟩
      · obtain ⟨-, hs⟩ := Option.ite_none_right_eq_some.mp hs
        cases hs
        exact .same ⟨rfl, fun _ _ => id⟩

theorem Owned.init : Owned .init := fun _ _ _ _ hx => by simp [Sys.init] at hx

theorem Owned.step (h : Owned s) (hc : s.clean action = true) (hs : s.step action = some s') :
    Owned s' := by
  intro p x' seq rest hx' hst
  cases deletes hs hx' hst with
  | same hu => exact h p x' seq rest (hu.1 ▸ hx') hst
  | next x seq' hx hseq ht => exact ht ▸ h p x seq' _ hx hseq
  | see x hx _ ht =>
      rw [ht]
      simpa [Sys.clean, hx, Option.isSome_iff_ne_none] using hc

theorem Ascending.init : Ascending .init := fun _ _ _ hx => by simp [Sys.init] at hx

theorem Ascending.step (h : Ascending s) (hi : Inv s) (hc : Sys.ascending action = true)
    (hs : s.step action = some s') : Ascending s' := by
  intro p x' rest hx' hst
  cases deletes hs hx' hst with
  | same hu =>
      obtain ⟨hsort, hheld⟩ := h p x' rest (hu.1 ▸ hx') hst
      exact ⟨hsort, fun seq m hl => hheld seq m (hu.2 _ _ hl)⟩
  | next x seq' hx hseq _ hl =>
      obtain ⟨hsort, hheld⟩ := h p x _ hx hseq
      obtain ⟨hfirst, hsort⟩ := List.pairwise_cons.mp hsort
      refine ⟨hsort, fun seq m hlock j hj => ?_⟩
      rcases hl _ _ hlock with he | hlock
      · cases he
        exact hfirst j hj
      · exact hheld seq m hlock j (List.mem_cons_of_mem _ hj)
  | see x hx hstage _ hd hl =>
      refine ⟨?_, fun seq m hlock => ?_⟩
      · rw [of_decide_eq_true hc]
        exact orderBy_strict hd
      · have hk := hi.held hx (hl ▸ hlock)
        simp [Txn.Keeps, hstage] at hk

end Fronta.Deadlock
