import Fronta.Store.Lemmas.Statements
import Fronta.Worker.System

/-!
# The map and the controllers

While no dispatched row is still in the map, the map and the attempts that are not done are in
one-to-one correspondence, and the claim in flight has room for its rows.
-/

namespace Fronta.Worker

open Sql

theorem Attempt.stop_row (cause : Cause) (a : Attempt) :
    (a.stop cause).row = a.row ∧ (a.stop cause).phase = a.phase := ⟨rfl, rfl⟩

theorem Attempt.renewed_row {a b : Attempt} {row : Option Row} (h : a.renewed row = some b) :
    b.row = a.row ∧ b.phase = a.phase := by
  unfold renewed at h
  split at h
  · cases h; exact a.stop_row _
  · split at h
    · cases h
    · cases h; exact a.stop_row _

namespace Sys

variable {s s' : Sys} {x : Ref} {a : Attempt} {row : TaskId × Token}

/-- What a step may do. -/
inductive Moves (s : Sys) : Action → Sys → Prop
  | statement {op : Op} : Moves s (.statement op) { s with db := s.db.exec op }
  | requestShutdown : Moves s .requestShutdown { s with stopping := true }
  | claim (hc : s.call = none) (hs : s.stopping = false)
      (hf : 0 < s.concurrency - s.attempts.entries.length) :
      Moves s .claim { s with call := some (.issued (s.concurrency - s.attempts.entries.length)) }
  | execute {now : Time} {clock : TaskId → Time} {leaseS : ℚ} {worker : Name} {tokens : TaskId → Token}
      {ids : List TaskId} {count : ℕ} (hc : s.call = some (.issued count))
      (hl : ids.length ≤ min count 256) :
      Moves s (.execute now clock leaseS worker tokens ids)
        { s with
          db := (s.db.claim now clock leaseS worker tokens ids).2
          call := some (.executed
            ((s.db.claim now clock leaseS worker tokens ids).1.map fun a => (a.id, tokens a.id))) }
  | claimFailed (hc : s.call ≠ none) : Moves s .claimFailed { s with call := none }
  | discard {rows : List (TaskId × Token)} (hc : s.call = some (.executed rows)) (hs : s.stopping = true) :
      Moves s .dispatch { s with call := none }
  | dispatch {rows : List (TaskId × Token)} (hc : s.call = some (.executed rows)) (hs : s.stopping = false) :
      Moves s .dispatch { rows.foldl startAttempt s with call := none }
  | expire {x : Ref} : Moves s (.expire x) (s.modify x (Attempt.stop .lost))
  | renew {clock : TaskId → Time} {leaseS : ℚ} {due : List Ref} :
      Moves s (.renew clock leaseS due)
        { s with
          db := s.db.heartbeat clock leaseS (s.renewals due)
          objects := s.objects.update fun x a =>
            if x ∈ due then a.renewed (s.db.tasks.get a.row) else none }
  | stop {x : Ref} {cause : Cause} : Moves s (.stop x cause) (s.modify x (Attempt.stop cause))
  | finish {x : Ref} {a : Attempt} (hx : s.objects.get x = some a) (hp : a.phase = .running) :
      Moves s (.finish x) (s.modify x fun a => { a with phase := .ended })
  | attemptDone {x : Ref} {a : Attempt} (hx : s.objects.get x = some a) (hp : a.phase = .ended) :
      Moves s (.attemptDone x) (s.attemptDone x a)

theorem moves_of_step {action : Action} (h : s.step action = some s') : Moves s action s' := by
  cases action with
  | statement op => cases h; exact .statement
  | requestShutdown => cases h; exact .requestShutdown
  | claim =>
      obtain ⟨⟨hc, hs, hf⟩, h⟩ := Option.ite_none_right_eq_some.mp h
      cases h
      exact .claim hc hs hf
  | execute now clock leaseS worker tokens ids =>
      simp only [step] at h
      split at h
      · rename_i hc
        obtain ⟨hl, h⟩ := Option.ite_none_right_eq_some.mp h
        cases h
        exact .execute hc hl
      · cases h
  | claimFailed =>
      obtain ⟨hc, h⟩ := Option.ite_none_left_eq_some.mp h
      cases h
      exact .claimFailed hc
  | dispatch =>
      simp only [step] at h
      split at h
      · rename_i hc
        split at h
        · rename_i hs
          cases h
          exact .discard hc hs
        · rename_i hs
          cases h
          exact .dispatch hc (Bool.not_eq_true _ ▸ hs)
      · cases h
  | expire x => cases h; exact .expire
  | renew clock leaseS due =>
      obtain ⟨-, h⟩ := Option.ite_none_right_eq_some.mp h
      cases h
      exact .renew
  | stop x cause => cases h; exact .stop
  | finish x =>
      obtain ⟨a, hx, h⟩ := Option.bind_eq_some_iff.mp h
      obtain ⟨hp, h⟩ := Option.ite_none_right_eq_some.mp h
      cases h
      exact .finish hx hp
  | attemptDone x =>
      obtain ⟨a, hx, h⟩ := Option.bind_eq_some_iff.mp h
      obtain ⟨hp, h⟩ := Option.ite_none_right_eq_some.mp h
      cases h
      exact .attemptDone hx hp

/-- The correspondence between the map and the attempts that are not done. -/
structure Matched (s : Sys) : Prop where
  stored : ∀ r x, s.attempts.lookup r = some x →
    ∃ a, s.objects.get x = some a ∧ a.row = r ∧ a.phase ≠ .done
  tracked : ∀ x a, s.objects.get x = some a → a.phase ≠ .done → s.attempts.lookup a.row = some x

/-- The rows that a claim in flight may still bring. -/
def room : Option Call → ℕ
  | none => 0
  | some (.issued count) => count
  | some (.executed rows) => rows.length

structure Inv (s : Sys) : Prop extends Matched s where
  fits : s.attempts.entries.length + room s.call ≤ s.concurrency
  distinct : (s.claimed.map Prod.fst).Nodup

/-- Changes of attempts that keep row and liveness keep the correspondence. -/
theorem Matched.update {f : Ref → Attempt → Option Attempt} (hm : s.Matched)
    (hf : ∀ x a b, f x a = some b → b.row = a.row ∧ (b.phase = .done ↔ a.phase = .done))
    (ho : s'.objects = s.objects.update f) (ha : s'.attempts = s.attempts) : s'.Matched where
  stored r x h := by
    obtain ⟨a, hx, hr, hp⟩ := hm.stored r x (ha ▸ h)
    rw [ho, Table.get_update, hx]
    cases hfx : f x a with
    | none => exact ⟨a, by simp [hfx], hr, hp⟩
    | some b =>
        obtain ⟨hb, hd⟩ := hf x a b hfx
        exact ⟨b, by simp [hfx], hb.trans hr, fun h => hp (hd.mp h)⟩
  tracked x b h hp := by
    rw [ho] at h
    obtain ⟨a, hx, ⟨-, rfl⟩ | hfx⟩ := Table.get_update_cases h
    · exact ha ▸ hm.tracked x b hx hp
    · obtain ⟨hb, hd⟩ := hf x a b hfx
      rw [ha, hb]
      exact hm.tracked x a hx fun h => hp (hd.mpr h)

theorem Matched.startAttempt (hm : s.Matched) (hn : row.1 ∉ s.attempts) :
    (s.startAttempt row).Matched where
  stored r x h := by
    by_cases hr : r = row.1
    · subst hr
      rw [Sys.startAttempt, AList.lookup_insert, Option.some.injEq] at h
      exact ⟨_, h ▸ Table.get_insert_self, rfl, by simp⟩
    · rw [Sys.startAttempt, AList.lookup_insert_ne hr] at h
      obtain ⟨a, hx, ha⟩ := hm.stored r x h
      exact ⟨a, Table.get_insert_of_get hx, ha⟩
  tracked x a h hp := by
    rcases Table.get_insert_cases h with ⟨rfl, rfl⟩ | h
    · exact AList.lookup_insert _
    · have hx := hm.tracked x a h hp
      have hr : a.row ≠ row.1 := by
        rintro hr
        exact hn (hr ▸ AList.lookup_isSome.mp (by rw [hx]; rfl))
      rw [Sys.startAttempt, AList.lookup_insert_ne hr, hx]

theorem length_startAttempt (hn : row.1 ∉ s.attempts) :
    (s.startAttempt row).attempts.entries.length = s.attempts.entries.length + 1 := by
  rw [startAttempt, AList.entries_insert_of_notMem hn, List.length_cons]

theorem lookup_dispatch_of_notMem {rows : List (TaskId × Token)} {r : TaskId}
    (hr : r ∉ rows.map Prod.fst) :
    (rows.foldl Sys.startAttempt s).attempts.lookup r = s.attempts.lookup r := by
  induction rows generalizing s with
  | nil => rfl
  | cons row rows ih =>
      rw [List.map_cons, List.mem_cons, not_or] at hr
      rw [List.foldl_cons, ih hr.2, Sys.startAttempt, AList.lookup_insert_ne hr.1]

/-- Distinct rows that the map does not hold get an attempt each. -/
theorem Matched.dispatch {rows : List (TaskId × Token)} (hm : s.Matched)
    (hd : (rows.map Prod.fst).Nodup) (hn : ∀ row ∈ rows, row.1 ∉ s.attempts) :
    (rows.foldl Sys.startAttempt s).Matched ∧
      (rows.foldl Sys.startAttempt s).attempts.entries.length =
        s.attempts.entries.length + rows.length ∧
      (rows.foldl Sys.startAttempt s).concurrency = s.concurrency := by
  induction rows generalizing s with
  | nil => exact ⟨hm, rfl, rfl⟩
  | cons row rows ih =>
      rw [List.map_cons, List.nodup_cons] at hd
      have hrow := hn row List.mem_cons_self
      have hrest : ∀ row' ∈ rows, row'.1 ∉ (s.startAttempt row).attempts := by
        intro row' hrow' hmem
        rcases (AList.mem_insert s.attempts).mp hmem with he | hmem
        · exact hd.1 (he ▸ List.mem_map_of_mem hrow')
        · exact hn row' (List.mem_cons_of_mem _ hrow') hmem
      obtain ⟨h₁, h₂, h₃⟩ := ih (hm.startAttempt hrow) hd.2 hrest
      refine ⟨h₁, ?_, h₃⟩
      rw [List.foldl_cons, h₂, length_startAttempt hrow, List.length_cons]
      omega

theorem Matched.attemptDone (hm : s.Matched) (hx : s.objects.get x = some a)
    (hp : a.phase = .ended) : (s.attemptDone x a).Matched where
  stored r y h := by
    have hr : r ≠ a.row := by
      rintro rfl
      rw [Sys.attemptDone, AList.lookup_erase] at h; cases h
    rw [Sys.attemptDone, AList.lookup_erase_ne hr] at h
    obtain ⟨b, hy, hb, hd⟩ := hm.stored r y h
    have hyx : y ≠ x := by
      rintro rfl
      rw [hx, Option.some.injEq] at hy
      exact hr (by rw [hy, hb])
    exact ⟨b, by simp [Sys.attemptDone, modify, Table.get_modify, hy, hyx], hb, hd⟩
  tracked y b h hd := by
    obtain ⟨c, hy, hc⟩ := Table.get_update_cases h
    by_cases hyx : y = x
    · subst hyx
      simp only [↓reduceIte, reduceCtorEq, Option.some.injEq, false_and, false_or] at hc
      exact absurd (by rw [← hc]) hd
    · simp only [hyx, ↓reduceIte, reduceCtorEq, true_and, or_false] at hc
      subst hc
      have hb := hm.tracked y b hy hd
      have hr : b.row ≠ a.row := by
        intro hr
        have ha := hm.tracked x a hx (by simp [hp])
        rw [← hr, hb, Option.some.injEq] at ha
        exact hyx ha
      rw [Sys.attemptDone, AList.lookup_erase_ne hr, hb]

/-- What `modify` keeps when `f` changes neither the row nor whether the attempt is done. -/
theorem Matched.modify {f : Attempt → Attempt} (hm : s.Matched)
    (hf : ∀ a, s.objects.get x = some a →
      (f a).row = a.row ∧ ((f a).phase = .done ↔ a.phase = .done)) : (s.modify x f).Matched := by
  refine hm.update (f := fun y a => if y = x ∧ s.objects.get x = some a then some (f a) else none)
    ?_ ?_ rfl
  · intro y a b h
    simp only [Option.ite_none_right_eq_some, Option.some.injEq] at h
    obtain ⟨⟨-, ha⟩, rfl⟩ := h
    exact hf a ha
  · refine Table.ext rfl (funext fun y => ?_)
    simp only [Sys.modify, Table.get_modify, Table.get_update]
    by_cases hy : y = x
    · subst hy; cases s.objects.get y <;> simp
    · simp [hy]

theorem Inv.of_matched (hi : s.Inv) (hm : s'.Matched) (hc : s'.call = s.call)
    (hn : s'.concurrency = s.concurrency)
    (hl : s'.attempts.entries.length ≤ s.attempts.entries.length) : s'.Inv where
  toMatched := hm
  fits := by have := hi.fits; rw [hc, hn]; omega
  distinct := by rw [claimed, hc]; exact hi.distinct

theorem init_inv (concurrency : ℕ) (db : Db) : (init concurrency db).Inv where
  stored r x h := by simp [init] at h
  tracked x a h := by simp [init] at h
  fits := Nat.zero_le _
  distinct := List.nodup_nil

/-- A claim returns at most the rows that it was given, each once. -/
theorem claim_rows (db : Db) (now : Time) (clock : TaskId → Time) (leaseS : ℚ) (worker : Name)
    (tokens : TaskId → Token) (ids : List TaskId) :
    let rows := (db.claim now clock leaseS worker tokens ids).1.map fun a => (a.id, tokens a.id)
    (rows.map Prod.fst).Nodup ∧ rows.length ≤ ids.length := by
  intro rows
  have he : rows.map Prod.fst = (db.tasks.returning fun id t =>
      if id ∈ ids then t.claim now (clock id) leaseS worker (tokens id) else none).map Prod.fst := by
    simp [rows, Db.claim, Db.withEvents, Db.applied, Row.applied, Function.comp_def]
  have hn : (rows.map Prod.fst).Nodup := he ▸ Table.returning_nodup
  refine ⟨hn, ?_⟩
  rw [← List.length_map (f := Prod.fst)]
  refine (List.subperm_of_subset hn ?_).length_le
  intro id hid
  obtain ⟨⟨i, t⟩, hm, rfl⟩ := List.mem_map.mp (he ▸ hid)
  obtain ⟨u, -, hu⟩ := Table.mem_returning.mp hm
  exact (Option.ite_none_right_eq_some.mp hu).1

theorem inv_step {action : Action} (hi : s.Inv) (hc : s.Apart action)
    (h : s.step action = some s') : s'.Inv := by
  cases moves_of_step h with
  | statement => exact ⟨⟨hi.stored, hi.tracked⟩, hi.fits, hi.distinct⟩
  | requestShutdown => exact ⟨⟨hi.stored, hi.tracked⟩, hi.fits, hi.distinct⟩
  | claim hnone _ hpos =>
      refine ⟨⟨hi.stored, hi.tracked⟩, ?_, List.nodup_nil⟩
      simp only [room]
      omega
  | @execute now clock leaseS worker tokens ids count hcall hlen =>
      obtain ⟨hnd, hle⟩ := claim_rows s.db now clock leaseS worker tokens ids
      have hfits := hi.fits
      rw [hcall] at hfits
      refine ⟨⟨hi.stored, hi.tracked⟩, ?_, hnd⟩
      simp only [room] at hfits ⊢
      omega
  | claimFailed =>
      exact ⟨⟨hi.stored, hi.tracked⟩, by have := hi.fits; simp only [room]; omega, List.nodup_nil⟩
  | discard hcall =>
      have hfits := hi.fits
      rw [hcall] at hfits
      exact ⟨⟨hi.stored, hi.tracked⟩, by simp only [room] at hfits ⊢; omega, List.nodup_nil⟩
  | @dispatch rows hcall hst =>
      have hfits := hi.fits
      rw [hcall] at hfits
      have hrows : s.claimed = rows := by rw [claimed, hcall]
      obtain ⟨hm, hl, hn⟩ := hi.toMatched.dispatch (hrows ▸ hi.distinct) (hrows ▸ hc hst)
      refine ⟨⟨hm.stored, hm.tracked⟩, ?_, List.nodup_nil⟩
      simp only [room] at hfits ⊢
      omega
  | expire => exact hi.of_matched (hi.modify fun a _ => ⟨rfl, Iff.rfl⟩) rfl rfl (Nat.le_refl _)
  | renew =>
      refine hi.of_matched (hi.update ?_ rfl rfl) rfl rfl (Nat.le_refl _)
      intro x a b hb
      obtain ⟨hr, hp⟩ := Attempt.renewed_row (Option.ite_none_right_eq_some.mp hb).2
      exact ⟨hr, by rw [hp]⟩
  | stop => exact hi.of_matched (hi.modify fun a _ => ⟨rfl, Iff.rfl⟩) rfl rfl (Nat.le_refl _)
  | finish hx hp =>
      refine hi.of_matched (hi.modify fun b hb => ?_) rfl rfl (Nat.le_refl _)
      rw [hx, Option.some.injEq] at hb
      exact ⟨rfl, by simp [← hb, hp]⟩
  | attemptDone hx hp =>
      refine hi.of_matched (hi.toMatched.attemptDone hx hp) rfl rfl ?_
      exact (List.kerase_sublist _ _).length_le

/-- Later rows keep the objects of earlier ones, and a dispatched row belongs to a new object. -/
theorem dispatch_overwrites (s : Sys) (rows : List (TaskId × Token)) :
    (∀ x a, s.objects.get x = some a → (rows.foldl startAttempt s).objects.get x = some a) ∧
      ∀ r x, r ∈ rows.map Prod.fst → (rows.foldl startAttempt s).attempts.lookup r = some x →
        s.objects.next ≤ x := by
  induction rows generalizing s with
  | nil => simp
  | cons row rows ih =>
      obtain ⟨hkeep, hnew⟩ := ih (s.startAttempt row)
      refine ⟨fun x a h => hkeep x a (Table.get_insert_of_get h), ?_⟩
      intro r x hr hx
      by_cases hm : r ∈ rows.map Prod.fst
      · exact Nat.le_of_succ_le (hnew r x hm hx)
      · have hrow : r = row.1 := by simpa [hm] using hr
        subst hrow
        have hlast : (rows.foldl startAttempt (s.startAttempt row)).attempts.lookup row.1 =
            (s.startAttempt row).attempts.lookup row.1 := lookup_dispatch_of_notMem hm
        rw [List.foldl_cons, hlast, startAttempt, AList.lookup_insert, Option.some.injEq] at hx
        exact hx.le

theorem Inv.tracked_and_bounded (hi : s.Inv) :
    s.Tracked ∧ s.unfinished.length ≤ s.concurrency := by
  have htracked : s.Tracked := by
    rintro ⟨x, a⟩ hx
    obtain ⟨hx, hp⟩ := List.mem_filter.mp hx
    exact hi.tracked x a (Table.mem_entries.mp hx) (by simp_all)
  refine ⟨htracked, ?_⟩
  have hnd : (s.unfinished.map fun x => x.2.row).Nodup := by
    refine List.Nodup.map_on ?_ ?_
    · rintro ⟨x, a⟩ hx ⟨y, b⟩ hy hr
      have h₁ := htracked _ hx
      have h₂ := htracked _ hy
      simp only at hr h₁ h₂
      rw [hr, h₂, Option.some.injEq] at h₁
      subst h₁
      have ha := Table.mem_entries.mp (List.mem_filter.mp hx).1
      rw [Table.mem_entries.mp (List.mem_filter.mp hy).1, Option.some.injEq] at ha
      rw [ha]
    · exact (List.Nodup.of_map _ s.objects.entries_nodup).filter _
  have hsub : (s.unfinished.map fun x => x.2.row) ⊆ s.attempts.keys := by
    intro r hr
    obtain ⟨x, hx, rfl⟩ := List.mem_map.mp hr
    exact AList.mem_keys.mp (AList.lookup_isSome.mp (by rw [htracked x hx]; rfl))
  have hle := (List.subperm_of_subset hnd hsub).length_le
  have hkeys : s.attempts.keys.length = s.attempts.entries.length := by
    simp [AList.keys, List.keys]
  have := hi.fits
  rw [List.length_map] at hle
  omega

end Sys

end Fronta.Worker
