import Fronta.Orphans.Lemmas.Pages
import Fronta.Worker.Lemmas.Attempts

/-!
# A release in progress

While a release goes on, no attempt begins and no token comes back to a row. What the worker owed at its
beginning therefore only shrinks, and a page that is not full takes all of it.
-/

namespace Fronta

open Sql

/-! ## Steps of the worker -/

namespace Worker.Sys

variable {s s' : Sys} {action : Action}

theorem db_dispatch {rows : List (TaskId × Token)} : (rows.foldl startAttempt s).db = s.db := by
  induction rows generalizing s with
  | nil => rfl
  | cons row rows ih => rw [List.foldl_cons, ih, startAttempt]

theorem db_step (h : s.step action = some s') :
    s'.db = s.db ∨ ∃ op, s'.db = s.db.exec op ∧
      Fencing.Sys.tokensOf op = (Orphans.Sys.executes action).elim [] Fencing.Sys.tokensOf := by
  cases moves_of_step h with
  | @statement op => exact Or.inr ⟨op, rfl, rfl⟩
  | @execute now clock leaseS worker tokens ids =>
      exact Or.inr ⟨.claim now clock leaseS worker tokens ids, rfl, rfl⟩
  | @renew clock leaseS due => exact Or.inr ⟨.heartbeat clock leaseS (s.renewals due), rfl, rfl⟩
  | dispatch => exact Or.inl db_dispatch
  | _ => exact Or.inl rfl

/-- The same controller is still running. -/
def Continues (s s' : Sys) : Prop :=
  ∀ x a', s'.objects.get x = some a' → a'.phase = .running →
    ∃ a, s.objects.get x = some a ∧ a.phase = .running ∧ a.row = a'.row ∧ a.token = a'.token

theorem Continues.of_update {f : Ref → Attempt → Option Attempt}
    (ho : s'.objects = s.objects.update f)
    (hf : ∀ x a b, f x a = some b → b.phase = .running → a.phase = .running ∧ a.row = b.row ∧
      a.token = b.token) : Continues s s' := by
  intro x b hb hp
  rw [ho] at hb
  obtain ⟨a, ha, ⟨-, rfl⟩ | hfx⟩ := Table.get_update_cases hb
  · exact ⟨b, ha, hp, rfl, rfl⟩
  · exact ⟨a, ha, hf x a b hfx hp⟩

theorem Continues.modify {x : Ref} {f : Attempt → Attempt}
    (hf : ∀ a, (f a).phase = .running → a.phase = .running ∧ a.row = (f a).row ∧
      a.token = (f a).token) : Continues s (s.modify x f) := by
  refine .of_update rfl fun y a b hb hp => ?_
  obtain ⟨-, hb⟩ := Option.ite_none_right_eq_some.mp hb
  cases hb
  exact hf a hp

theorem Attempt.renewed_token {a b : Attempt} {row : Option Row} (h : a.renewed row = some b) :
    b.token = a.token := by
  unfold Attempt.renewed at h
  split at h
  · cases h; rfl
  · split at h
    · cases h
    · cases h; rfl

/-- Without a claim no controller begins. -/
theorem continues_step (h : s.step action = some s') (hc : s.call = none) : Continues s s' := by
  have hsame : Continues s s := fun x a ha hp => ⟨a, ha, hp, rfl, rfl⟩
  cases moves_of_step h with
  | execute hcall => rw [hc] at hcall; cases hcall
  | claimFailed hcall => exact absurd hc hcall
  | discard hcall => rw [hc] at hcall; cases hcall
  | dispatch hcall => rw [hc] at hcall; cases hcall
  | statement => exact hsame
  | requestShutdown => exact hsame
  | claim => exact hsame
  | expire => exact .modify fun a hp => ⟨hp, rfl, rfl⟩
  | stop => exact .modify fun a hp => ⟨hp, rfl, rfl⟩
  | renew =>
      refine .of_update rfl fun x a b hb hp => ?_
      obtain ⟨-, hb⟩ := Option.ite_none_right_eq_some.mp hb
      obtain ⟨hr, hph⟩ := Worker.Attempt.renewed_row hb
      exact ⟨hph ▸ hp, hr.symm, (Attempt.renewed_token hb).symm⟩
  | finish => exact .modify fun a hp => by cases hp
  | @attemptDone x =>
      have hm : Continues s (s.modify x fun a => { a with phase := .done }) :=
        .modify fun a hp => by cases hp
      exact hm

theorem call_step (h : s.step action = some s') (hc : s.call = none) (hn : action ≠ .claim) :
    s'.call = none := by
  cases moves_of_step h with
  | execute hcall => rw [hc] at hcall; cases hcall
  | claim => exact absurd rfl hn
  | claimFailed => rfl
  | discard => rfl
  | dispatch => rfl
  | _ => exact hc

end Worker.Sys

namespace Orphans

variable {s s' : Sys} {r : Release} {i : TaskId} {token : Token} {t t' : Row} {n : PageId}
  {p : Page} {cs : List Completion}

theorem holds_iff : s.holds i token = true ↔ ∃ x a, s.worker.objects.get x = some a ∧
    a.phase = .running ∧ a.row = i ∧ a.token = token := by
  simp only [Sys.holds, Worker.Sys.unfinished, List.any_filter, List.any_eq_true, Bool.and_eq_true,
    decide_eq_true_eq, Prod.exists, Table.mem_entries]

namespace Sys

/-- What a step of each action makes of the state, and what it takes. -/
inductive Moves (s : Sys) : Action → Sys → Prop
  | worker {action : Worker.Sys.Action} {w : Worker.Sys} (hw : s.worker.step action = some w)
      (ha : s.admits action = true)
      (hf : s.fresh ((executes action).elim [] Fencing.Sys.tokensOf) = true) :
      Moves s (.worker action)
        { s with
          worker := w
          issued := s.issued ++ (executes action).elim [] Fencing.Sys.tokensOf }
  | lose (hr : s.release = none) (hc : s.worker.call ≠ none) :
      Moves s .lose
        { s with
          worker := { s.worker with call := none }
          release := some ⟨.empty, none, s.unheld⟩ }
  | page {r : Release} (hr : s.release = some r) :
      Moves s .page
        { s with
          release := some { r with
            pages := r.pages.insert { live := s.worker.attempts.keys }
            current := some r.pages.next } }
  | select {r : Release} {n : PageId} {live : List TaskId} (hr : s.release = some r)
      (hp : r.pages.get n = some ⟨live, none, none⟩) :
      Moves s (.select n)
        { s with
          release := some (modifyPage r n fun page =>
            { page with outcomes := some (s.worker.db.orphans s.name live) }) }
  | commit {r : Release} {n : PageId} {now : Time} {jitter : TaskId → ℚ} {live : List TaskId}
      {cs : List Completion} (hr : s.release = some r)
      (hp : r.pages.get n = some ⟨live, some cs, none⟩) :
      Moves s (.commit n now jitter)
        { s with
          worker := { s.worker with db := (s.worker.db.applyOutcomes now jitter cs).2 }
          release := some (modifyPage r n fun page =>
            { page with returned := some (s.worker.db.applyOutcomes now jitter cs).1 }) }
  | fail {r : Release} (hr : s.release = some r) :
      Moves s .fail { s with release := some { r with current := none } }
  | short {r : Release} {n : PageId} {p : Page} {rows : List Applied}
      (hr : s.release = some r) (hp : r.pages.get n = some p) (hrows : p.returned = some rows)
      (hl : rows.length < 256) : Moves s .reply { s with release := none }
  | full {r : Release} (hr : s.release = some r) :
      Moves s .reply { s with release := some { r with current := none } }
  | abandon {r : Release} (hr : s.release = some r) : Moves s .abandon { s with release := none }

theorem moves_of_step {action : Action} (h : s.step action = some s') : Moves s action s' := by
  cases action with
  | worker action =>
      obtain ⟨hg, h⟩ := Option.ite_none_right_eq_some.mp h
      obtain ⟨w, hw, rfl⟩ := Option.map_eq_some_iff.mp h
      rw [Bool.and_eq_true] at hg
      exact .worker hw hg.1 hg.2
  | lose =>
      obtain ⟨hr, h⟩ := Option.ite_none_right_eq_some.mp h
      obtain ⟨w, hw, rfl⟩ := Option.map_eq_some_iff.mp h
      obtain ⟨hc, hw⟩ := Option.ite_none_left_eq_some.mp hw
      cases hw
      exact .lose (Option.isNone_iff_eq_none.mp hr) hc
  | page =>
      obtain ⟨r, hr, h⟩ := Option.bind_eq_some_iff.mp h
      obtain ⟨-, h⟩ := Option.ite_none_right_eq_some.mp h
      cases h
      exact .page hr
  | select n =>
      obtain ⟨r, hr, h⟩ := Option.bind_eq_some_iff.mp h
      split at h
      · rename_i hp
        cases h
        exact .select hr hp
      · cases h
  | commit n now jitter =>
      obtain ⟨r, hr, h⟩ := Option.bind_eq_some_iff.mp h
      split at h
      · rename_i hp
        cases h
        exact .commit hr hp
      · cases h
  | fail =>
      obtain ⟨r, hr, rfl⟩ := Option.map_eq_some_iff.mp h
      exact .fail hr
  | reply =>
      obtain ⟨r, hr, h⟩ := Option.bind_eq_some_iff.mp h
      split at h
      · rename_i live outcomes rows hp
        cases h
        obtain ⟨n, -, hp⟩ := Option.bind_eq_some_iff.mp hp
        split
        · rename_i hl
          exact .short hr hp rfl hl
        · exact .full hr
      · cases h
  | abandon =>
      obtain ⟨r, hr, rfl⟩ := Option.map_eq_some_iff.mp h
      exact .abandon hr

end Sys

/-! ## What a release relies on -/

/-- No token comes back, and no controller begins. -/
structure Later (s s' : Sys) : Prop where
  name : s'.name = s.name
  issued : ∀ token ∈ s.issued, token ∈ s'.issued
  tokens : ∀ i t' token, s'.worker.db.tasks.get i = some t' → t'.token = some token →
    token ∈ s.issued →
    ∃ t, s.worker.db.tasks.get i = some t ∧ t.token = some token ∧ t'.worker = t.worker
  attempts : Worker.Sys.Continues s.worker s'.worker

theorem Later.holds (h : Later s s') (hh : s'.holds i token = true) : s.holds i token = true := by
  obtain ⟨x, a', hx, hp, hr, ht⟩ := holds_iff.mp hh
  obtain ⟨a, hx, hp, hr', ht'⟩ := h.attempts x a' hx hp
  exact holds_iff.mpr ⟨x, a, hx, hp, hr'.trans hr, ht'.trans ht⟩

theorem Later.refl (hw : s'.worker = s.worker) (hn : s'.name = s.name) (hi : s'.issued = s.issued) :
    Later s s' where
  name := hn
  issued _ h := hi ▸ h
  tokens _ t' _ ht htok _ := ⟨t', hw ▸ ht, htok, rfl⟩
  attempts _ a hx hp := ⟨a, hw ▸ hx, hp, rfl, rfl⟩

/-! ## Pages -/

/-- What a page has chosen from its snapshot. -/
structure PageOk (s : Sys) (r : Release) (p : Page) (cs : List Completion) : Prop where
  release : ∀ c ∈ cs, c.kind = .release
  apart : ∀ c ∈ cs, c.id ∉ p.live
  issued : ∀ c ∈ cs, c.token ∈ s.issued
  mine : ∀ c ∈ cs, ∀ t, s.worker.db.tasks.get c.id = some t → t.token = some c.token →
    t.worker = some s.name
  nodup : (cs.map Completion.id).Nodup
  complete : cs.length < 256 → ∀ i token, (i, token) ∈ r.owed → ∀ t,
    s.worker.db.tasks.get i = some t → t.token = some token → ∃ c ∈ cs, c.id = i ∧ c.token = token

theorem PageOk.of_live (h : PageOk s r p cs) {p' : Page} (hp : p'.live = p.live) : PageOk s r p' cs :=
  ⟨h.release, hp ▸ h.apart, h.issued, h.mine, h.nodup, h.complete⟩

theorem PageOk.later (hl : Later s s') (h : PageOk s r p cs)
    (ho : ∀ i token, (i, token) ∈ r.owed → token ∈ s.issued) : PageOk s' r p cs where
  release := h.release
  apart := h.apart
  issued c hc := hl.issued _ (h.issued c hc)
  mine c hc t ht htok := by
    obtain ⟨t₀, ht₀, htok₀, hw⟩ := hl.tokens _ _ _ ht htok (h.issued c hc)
    rw [hw, hl.name]
    exact h.mine c hc t₀ ht₀ htok₀
  nodup := h.nodup
  complete hs i token hm t ht htok := by
    obtain ⟨t₀, ht₀, htok₀, -⟩ := hl.tokens _ _ _ ht htok (ho i token hm)
    exact h.complete hs i token hm t₀ ht₀ htok₀

/-! ## Releases -/

structure ReleaseOk (s : Sys) (r : Release) : Prop where
  issued : ∀ i token, (i, token) ∈ r.owed → token ∈ s.issued
  unheld : ∀ i token, (i, token) ∈ r.owed → s.holds i token = false
  mine : ∀ i token, (i, token) ∈ r.owed → ∀ t, s.worker.db.tasks.get i = some t →
    t.token = some token → t.worker = some s.name
  listed : ∀ n p, r.pages.get n = some p → ∀ x a, s.worker.objects.get x = some a →
    a.phase = .running → a.row ∈ p.live
  chosen : ∀ n p cs, r.pages.get n = some p → p.outcomes = some cs → PageOk s r p cs
  settled : ∀ n p rows, r.pages.get n = some p → p.returned = some rows → rows.length < 256 →
    ∀ i token, (i, token) ∈ r.owed → ∀ t, s.worker.db.tasks.get i = some t → t.token ≠ some token

theorem ReleaseOk.later (hl : Later s s') (h : ReleaseOk s r) : ReleaseOk s' r where
  issued i token hm := hl.issued _ (h.issued i token hm)
  unheld i token hm := by
    by_contra hh
    rw [Bool.not_eq_false] at hh
    have := hl.holds hh
    rw [h.unheld i token hm] at this; cases this
  mine i token hm t ht htok := by
    obtain ⟨t₀, ht₀, htok₀, hw⟩ := hl.tokens _ _ _ ht htok (h.issued i token hm)
    rw [hw, hl.name]
    exact h.mine i token hm t₀ ht₀ htok₀
  listed n p hp x a hx ha := by
    obtain ⟨a₀, hx₀, ha₀, hr, -⟩ := hl.attempts x a hx ha
    exact hr ▸ h.listed n p hp x a₀ hx₀ ha₀
  chosen n p cs hp hcs := (h.chosen n p cs hp hcs).later hl h.issued
  settled n p rows hp hr hlen i token hm t ht htok := by
    obtain ⟨t₀, ht₀, htok₀, -⟩ := hl.tokens _ _ _ ht htok (h.issued i token hm)
    exact h.settled n p rows hp hr hlen i token hm t₀ ht₀ htok₀

/-- The pages of a release change, and with them what it waits for. -/
theorem ReleaseOk.of_pages (h : ReleaseOk s r) {r' : Release} (ho : r'.owed = r.owed)
    (hp : ∀ n p, r'.pages.get n = some p → r.pages.get n = some p ∨
      (∀ x a, s.worker.objects.get x = some a → a.phase = .running → a.row ∈ p.live) ∧
      (∀ cs, p.outcomes = some cs → PageOk s r p cs) ∧
      ∀ rows, p.returned = some rows → rows.length < 256 → ∀ i token, (i, token) ∈ r.owed →
        ∀ t, s.worker.db.tasks.get i = some t → t.token ≠ some token) : ReleaseOk s r' := by
  have hok : ∀ n p cs, r'.pages.get n = some p → p.outcomes = some cs → PageOk s r p cs := by
    intro n p cs hn hcs
    rcases hp n p hn with hn | ⟨-, hc, -⟩
    · exact h.chosen n p cs hn hcs
    · exact hc cs hcs
  refine ⟨ho ▸ h.issued, ho ▸ h.unheld, ho ▸ h.mine, fun n p hn => ?_, fun n p cs hn hcs => ?_,
    fun n p rows hn => ?_⟩
  · rcases hp n p hn with hn | ⟨hl, -, -⟩
    · exact h.listed n p hn
    · exact hl
  · have := hok n p cs hn hcs
    exact ⟨this.release, this.apart, this.issued, this.mine, this.nodup, ho ▸ this.complete⟩
  · rw [ho]
    rcases hp n p hn with hn | ⟨-, -, hs⟩
    · exact h.settled n p rows hn
    · exact hs rows

/-! ## The invariant -/

structure Inv (s : Sys) : Prop where
  worker : s.worker.Inv
  rows : s.worker.db.RowsOk
  issued : ∀ i t token, s.worker.db.tasks.get i = some t → t.token = some token → token ∈ s.issued
  idle : ∀ r, s.release = some r → s.worker.call = none
  release : ∀ r, s.release = some r → ReleaseOk s r

theorem inv_init {concurrency : ℕ} {name : Name} : Inv (Sys.init concurrency name) where
  worker := Worker.Sys.init_inv concurrency .init
  rows := Db.rowsOk_init
  issued _ _ _ h := by cases h
  idle _ h := by cases h
  release _ h := by cases h

/-- What a statement makes of the tables while its tokens are new. -/
theorem later_of_exec {op : Op} (hf : s.fresh (Fencing.Sys.tokensOf op) = true)
    (hdb : s'.worker.db = s.worker.db.exec op) (hn : s'.name = s.name)
    (hi : s'.issued = s.issued ++ Fencing.Sys.tokensOf op)
    (ha : Worker.Sys.Continues s.worker s'.worker) : Later s s' where
  name := hn
  issued token h := by rw [hi]; exact List.mem_append_left _ h
  tokens i t' token ht htok hmem := by
    have hnew : token ∉ Fencing.Sys.tokensOf op := fun hm =>
      (List.nodup_append.mp (of_decide_eq_true hf)).2.2 _ hmem _ hm rfl
    rw [hdb] at ht
    exact Db.exec_same_token hnew ht htok
  attempts := ha

theorem Inv.act (h : Inv s) {action : Worker.Sys.Action} {w : Worker.Sys}
    (hw : s.worker.step action = some w) (hadm : s.admits action = true)
    (hf : s.fresh ((Sys.executes action).elim [] Fencing.Sys.tokensOf) = true)
    (hc : s.worker.Apart action) :
    Inv { s with
      worker := w
      issued := s.issued ++ (Sys.executes action).elim [] Fencing.Sys.tokensOf } := by
  have hlater : Worker.Sys.Continues s.worker w → Later s
      { s with
        worker := w
        issued := s.issued ++ (Sys.executes action).elim [] Fencing.Sys.tokensOf } := by
    intro ha
    rcases Worker.Sys.db_step hw with hdb | ⟨op, hdb, htok⟩
    · exact ⟨rfl, fun _ hm => List.mem_append_left _ hm,
        fun i t' token ht htok _ => ⟨t', hdb ▸ ht, htok, rfl⟩, ha⟩
    · exact later_of_exec (htok.symm ▸ hf : s.fresh (Fencing.Sys.tokensOf op) = true) hdb rfl (by rw [htok]) ha
  refine ⟨Worker.Sys.inv_step h.worker hc hw, ?_, fun i t token ht htok => ?_, fun r hr => ?_,
    fun r hr => ?_⟩
  · rcases Worker.Sys.db_step hw with hdb | ⟨op, hdb, -⟩
    · exact hdb ▸ h.rows
    · exact hdb ▸ h.rows.exec op
  · rcases Worker.Sys.db_step hw with hdb | ⟨op, hdb, hop⟩
    · exact List.mem_append_left _ (h.issued i t token (hdb ▸ ht) htok)
    · have ht : (s.worker.db.exec op).tasks.get i = some t := hdb ▸ ht
      by_cases hm : token ∈ Fencing.Sys.tokensOf op
      · exact List.mem_append_right _ (hop ▸ hm)
      · obtain ⟨t₀, ht₀, htok₀, -⟩ := Db.exec_same_token hm ht htok
        exact List.mem_append_left _ (h.issued i t₀ token ht₀ htok₀)
  · refine Worker.Sys.call_step hw (h.idle r hr) fun he => ?_
    subst he
    have hr : s.release = some r := hr
    simp [Sys.admits, hr] at hadm
  · exact (h.release r hr).later (hlater (Worker.Sys.continues_step hw (h.idle r hr)))

theorem mem_unheld (h : (i, token) ∈ s.unheld) : s.holds i token = false ∧
    ∃ t, s.worker.db.tasks.get i = some t ∧ t.token = some token ∧ s.mine t = true := by
  obtain ⟨⟨j, t⟩, hx, hu⟩ := List.mem_filterMap.mp h
  obtain ⟨hx, hm⟩ := List.mem_filter.mp hx
  obtain ⟨token', htok, hu⟩ := Option.bind_eq_some_iff.mp hu
  obtain ⟨hh, hu⟩ := Option.ite_none_left_eq_some.mp hu
  cases hu
  exact ⟨by simpa using hh, t, Table.mem_entries.mp hx, htok, hm⟩

theorem mine_iff : s.mine t = true ↔ t.state = .running ∧ t.worker = some s.name := by
  simp [Sys.mine]

theorem Inv.lose (h : Inv s) (hcall : s.worker.call ≠ none) :
    Inv { s with
      worker := { s.worker with call := none }
      release := some ⟨.empty, none, s.unheld⟩ } := by
  have hc : s.worker.Apart .claimFailed := trivial
  have hinv := Worker.Sys.inv_step h.worker hc (Option.ite_none_left_eq_some.mpr ⟨hcall, rfl⟩)
  refine ⟨hinv, h.rows, h.issued, fun _ _ => rfl, fun r hr => ?_⟩
  cases hr
  refine ⟨fun i token hm => ?_, fun i token hm => (mem_unheld hm).1, fun i token hm t ht htok => ?_,
    (fun n p hp => by cases hp), (fun n p cs hp => by cases hp), fun n p rows hp => by cases hp⟩
  · obtain ⟨-, t, ht, htok, -⟩ := mem_unheld hm
    exact h.issued i t token ht htok
  · obtain ⟨-, t₀, ht₀, -, hmine⟩ := mem_unheld hm
    cases ht.symm.trans ht₀
    exact (mine_iff.mp hmine).2

/-- A page lists every unfinished attempt. -/
theorem Inv.listed (h : Inv s) {x : Worker.Ref} {a : Worker.Attempt}
    (hx : s.worker.objects.get x = some a) (ha : a.phase = .running) :
    a.row ∈ s.worker.attempts.keys := by
  have := h.worker.tracked x a hx (by simp [ha])
  exact AList.mem_keys.mp (AList.lookup_isSome.mp (by rw [this]; rfl))

theorem Inv.of_release (h : Inv s) {r' : Option Release}
    (hr : ∀ r, r' = some r → ∃ r₀, s.release = some r₀ ∧ (ReleaseOk s r₀ → ReleaseOk s r)) :
    Inv { s with release := r' } where
  worker := h.worker
  rows := h.rows
  issued := h.issued
  idle r hr' := by
    obtain ⟨r₀, hr₀, -⟩ := hr r hr'
    exact h.idle r₀ hr₀
  release r hr' := by
    obtain ⟨r₀, hr₀, hok⟩ := hr r hr'
    have hl : Later s { s with release := r' } := .refl rfl rfl rfl
    exact (hok (h.release r₀ hr₀)).later hl

theorem Inv.send (h : Inv s) (hr : s.release = some r) :
    Inv { s with
      release := some { r with
        pages := r.pages.insert { live := s.worker.attempts.keys }
        current := some r.pages.next } } := by
  refine h.of_release fun r' hr' => ?_
  cases hr'
  refine ⟨r, hr, fun hok => hok.of_pages rfl fun n p hp => ?_⟩
  rcases Table.get_insert_cases hp with ⟨-, rfl⟩ | hp
  · exact Or.inr ⟨fun x a hx ha => h.listed hx ha, (fun cs hcs => by cases hcs),
      fun rows hrows => by cases hrows⟩
  · exact Or.inl hp

theorem Inv.select {live : List TaskId} (h : Inv s) (hr : s.release = some r)
    (hp : r.pages.get n = some ⟨live, none, none⟩) (hc : s.clean (.select n) = true) :
    Inv { s with
      release := some (Sys.modifyPage r n fun page =>
        { page with outcomes := some (s.worker.db.orphans s.name live) }) } := by
  refine h.of_release fun r' hr' => ?_
  cases hr'
  refine ⟨r, hr, fun hok => hok.of_pages rfl fun m p hm => ?_⟩
  rcases Table.get_modify_cases hm with ⟨-, hm⟩ | ⟨rfl, q, hq, rfl⟩
  · exact Or.inl hm
  · cases hp.symm.trans hq
    have hlisted := hok.listed m _ hp
    refine Or.inr ⟨hlisted, fun cs hcs => ?_, fun rows hrows => by cases hrows⟩
    cases hcs
    refine ⟨fun c hc => (Db.mem_orphans hc).1, fun c hc => (Db.mem_orphans hc).2.1,
      fun c hc => ?_, fun c hc t ht htok => ?_, Db.orphans_nodup,
      fun hlen i token howed t ht htok => ?_⟩
    · obtain ⟨-, -, t, ht, -, -, htok⟩ := Db.mem_orphans hc
      exact h.issued _ t _ ht htok
    · obtain ⟨-, -, t₀, ht₀, hw, -, -⟩ := Db.mem_orphans hc
      cases ht.symm.trans ht₀
      exact hw
    · have hrun := (h.rows i t ht).running_token.mpr (by simp [htok])
      have hmine := hok.mine i token howed t ht htok
      refine Db.mem_orphans_of_short h.rows hlen ht hrun hmine (fun hl => ?_) htok
      simp only [Sys.clean, Sys.page, hr, Option.bind_some, hp, Option.all_some, Bool.or_eq_true,
        decide_eq_true_eq, List.all_eq_true] at hc
      have hlive := hc.resolve_left (Nat.ne_of_lt hlen) i hl
      rw [ht, Option.all_some, Bool.or_eq_true, Bool.not_eq_true', mine_iff.mpr ⟨hrun, hmine⟩,
        htok, Option.all_some, hok.unheld i token howed] at hlive
      rcases hlive with hlive | hlive <;> cases hlive

/-- The rows that a page changes are released; they ran under the worker's id with tokens that no
unfinished attempt holds. -/
theorem Inv.released (h : Inv s) {now : Time} {jitter : TaskId → ℚ}
    (hs : s.step (.commit n now jitter) = some s')
    (hne : s'.worker.db.tasks.get i ≠ s.worker.db.tasks.get i) :
    ∃ t t' token, s.worker.db.tasks.get i = some t ∧ s'.worker.db.tasks.get i = some t' ∧
      t.state = .running ∧ t.worker = some s.name ∧ t.token = some token ∧
      s.holds i token = false ∧ t.Released t' := by
  cases Sys.moves_of_step hs with
  | @commit r _ _ _ live cs hr hp =>
      have hok := h.release r hr
      have hpage := hok.chosen n _ cs hp rfl
      dsimp only at hne
      cases ht' : (s.worker.db.applyOutcomes now jitter cs).2.tasks.get i with
      | none =>
          have : s.worker.db.tasks.get i = none := by
            by_contra hn
            obtain ⟨t, ht⟩ := Option.ne_none_iff_exists'.mp hn
            simp [Db.applyOutcomes, Table.get_update, ht] at ht'
          exact absurd (ht'.trans this.symm) hne
      | some t' =>
          rcases Db.applyOutcomes_cases ht' with ht | ⟨t, c, ht, hc, rfl, hrun, htok, ha⟩
          · exact absurd (ht'.trans ht.symm) hne
          · refine ⟨t, t', c.token, ht, rfl, hrun, hpage.mine c hc t ht htok, htok, ?_,
              Row.released_of_complete ha (hpage.release c hc)⟩
            by_contra hh
            rw [Bool.not_eq_false] at hh
            obtain ⟨x, a, hx, hph, hrow, -⟩ := holds_iff.mp hh
            exact hpage.apart c hc (hrow ▸ hok.listed n _ hp x a hx hph)

theorem Inv.commit {live : List TaskId} (h : Inv s) {now : Time} {jitter : TaskId → ℚ}
    (hr : s.release = some r) (hp : r.pages.get n = some ⟨live, some cs, none⟩)
    (hc : s.clean (.commit n now jitter) = true) :
    Inv { s with
      worker := { s.worker with db := (s.worker.db.applyOutcomes now jitter cs).2 }
      release := some (Sys.modifyPage r n fun page =>
        { page with returned := some (s.worker.db.applyOutcomes now jitter cs).1 }) } := by
  have hok := h.release r hr
  have hpage := hok.chosen n _ cs hp rfl
  generalize hdb : s.worker.db.applyOutcomes now jitter cs = next
  have hget : ∀ i t', next.2.tasks.get i = some t' →
      s.worker.db.tasks.get i = some t' ∨ ∃ t c, s.worker.db.tasks.get i = some t ∧ c ∈ cs ∧
        c.id = i ∧ t.state = .running ∧ t.token = some c.token ∧
        t.complete now (jitter i) c = some t' := by
    intro i t' ht'
    rw [← hdb] at ht'
    exact Db.applyOutcomes_cases ht'
  have hback : ∀ i t' token, next.2.tasks.get i = some t' → t'.token = some token →
      s.worker.db.tasks.get i = some t' := by
    intro i t' token ht' htok
    rcases hget i t' ht' with ht | ⟨t, c, -, hm, -, -, -, ha⟩
    · exact ht
    · rw [(Row.released_of_complete ha (hpage.release c hm)).token] at htok; cases htok
  have hlater : ∀ r', Later s
      { s with worker := { s.worker with db := next.2 }, release := r' } := fun r' =>
    ⟨rfl, fun _ hm => hm, fun i t' token ht' htok _ => ⟨t', hback i t' token ht' htok, htok, rfl⟩,
      fun x a hx ha => ⟨a, hx, ha, rfl, rfl⟩⟩
  refine ⟨⟨⟨h.worker.stored, h.worker.tracked⟩, h.worker.fits, h.worker.distinct⟩,
    hdb ▸ h.rows.applyOutcomes, fun i t token ht htok => h.issued i t token (hback i t token ht htok) htok,
    fun _ _ => h.idle r hr, fun r' hr' => ?_⟩
  cases hr'
  refine (hok.later (hlater _)).of_pages rfl fun m p hm => ?_
  rcases Table.get_modify_cases hm with ⟨-, hm⟩ | ⟨rfl, q, hq, rfl⟩
  · exact Or.inl hm
  · cases hp.symm.trans hq
    have hlisted := hok.listed m _ hp
    refine Or.inr ⟨hlisted, fun cs' hcs => ?_, fun rows hrows hlen i token howed t ht htok => ?_⟩
    · cases hcs
      exact PageOk.later (hlater _) (hpage.of_live rfl) hok.issued
    · cases hrows
      -- a full page that lost no row has returned as many
      have hshort : cs.length < 256 := by
        simp only [Sys.clean, Sys.page, hr, Option.bind_some, hp, Option.all_some, Bool.or_eq_true,
          decide_eq_true_eq, List.all_eq_true, Option.any_eq_true, Bool.and_eq_true] at hc
        rcases hc with hc | hc
        · exact hc
        · have hle : cs.length ≤ (s.worker.db.applyOutcomes now jitter cs).1.length :=
            Db.length_le_applyOutcomes hpage.release hpage.nodup fun c hm => hc c hm
          rw [hdb] at hle
          omega
      obtain ⟨c, hm, rfl, rfl⟩ := hpage.complete hshort i token howed t (hback i t token ht htok) htok
      have ht : next.2.tasks.get c.id = some t := ht
      rw [← hdb] at ht
      refine Db.token_applyOutcomes h.rows (fun c' hm' hk => ?_) hm ht htok
      rw [hpage.release c' hm'] at hk
      cases hk

/-- Another try, or the next page, waits for no page. -/
theorem Inv.again (h : Inv s) (hr : s.release = some r) :
    Inv { s with release := some { r with current := none } } := by
  refine h.of_release fun r' hr' => ?_
  cases hr'
  exact ⟨r, hr, fun hok => hok.of_pages rfl fun _ _ hm => Or.inl hm⟩

theorem Inv.over (h : Inv s) : Inv { s with release := none } :=
  h.of_release fun _ hr' => by cases hr'

theorem Inv.step (h : Inv s) {action : Action} (hc : s.clean action = true)
    (hs : s.step action = some s') : Inv s' := by
  cases Sys.moves_of_step hs with
  | worker hw ha hf => exact h.act hw ha hf (of_decide_eq_true hc)
  | lose _ hcall => exact h.lose hcall
  | page hr => exact h.send hr
  | select hr hp => exact h.select hr hp hc
  | commit hr hp => exact h.commit hr hp hc
  | fail hr => exact h.again hr
  | full hr => exact h.again hr
  | short => exact h.over
  | abandon => exact h.over

/-- The answer that ends a release leaves none of its tokens on their rows. -/
theorem Inv.settled (h : Inv s) (hr : s.release = some r) (hs : s.step .reply = some s')
    (hn : s'.release = none) (howed : (i, token) ∈ r.owed) (ht : s'.worker.db.tasks.get i = some t) :
    t.token ≠ some token := by
  cases Sys.moves_of_step hs with
  | @short r' n p rows hr' hp hrows hl =>
      cases hr.symm.trans hr'
      exact (h.release r hr).settled n p rows hp hrows hl i token howed t ht
  | full => cases hn

end Orphans

end Fronta
