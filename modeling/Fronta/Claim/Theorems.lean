import Fronta.Claim.Lemmas.Deadline
import Fronta.Claim.Lemmas.Steps

/-!
# What a claim returns, and what it respects

Alone and in time, the function admits the rows of the plain walk and returns them in its order. Among
others, it commits only rows that the current limits and pauses allow.
-/

namespace Fronta.Claim

open Runs Sql

variable {r : Request} {size : Jsonb → ℕ} {db : Db} {catalog : Catalog} {now : Time}
  {clock : ℕ → Time} {leaseClock : TaskId → Time} {tokens : TaskId → Token} {ids : List TaskId}

/-- `ORDER BY array_position` restores the order of the ids. -/
theorem map_fst_started {rows : List (TaskId × Row)} (hids : ids.Nodup)
    (hp : (rows.map Prod.fst).Perm ids) : (started ids rows).map Prod.fst = ids := by
  have hsorted : ids.Pairwise fun a b => ids.idxOf a ≤ ids.idxOf b := by
    refine List.pairwise_iff_getElem.mpr fun i j hi hj hij => ?_
    rw [hids.idxOf_getElem, hids.idxOf_getElem]
    exact hij.le
  refine List.Perm.eq_of_pairwise ?_ ?_ hsorted
    (((perm_orderBy _ _).map Prod.fst).trans hp)
  · intro a b _ hb hab hba
    exact (List.idxOf_inj hb).mp (le_antisymm hba hab) |>.symm
  · exact List.pairwise_map.mpr (orderBy_sorted _ _)

/-- The rows of the walk are queued, and no row is admitted twice. -/
theorem greedy_waiting (w : View) (cap : ℕ) (types : List Name) :
    ((w.greedy cap [] (w.waiting types)).map Candidate.id).Nodup ∧
      ∀ id ∈ (w.greedy cap [] (w.waiting types)).map Candidate.id,
        ∃ t, w.tasks.get id = some t ∧ t.state = .queued := by
  obtain ⟨l, hl, hs⟩ := View.greedy_sublist w cap [] (w.waiting types)
  rw [hl, List.nil_append]
  refine ⟨View.waiting_nodup.sublist (hs.map _), fun id hid => ?_⟩
  obtain ⟨c, hc, rfl⟩ := List.mem_map.mp hid
  obtain ⟨t, ht, hw, -⟩ := View.mem_waiting.mp (hs.subset hc)
  simp only [View.waits, View.due, Bool.and_eq_true, decide_eq_true_eq] at hw
  exact ⟨t, ht, hw.1.1.1⟩

/-- The rows that the loops admitted are claimed and returned in their order. -/
theorem claim_of_rounds {fuel : ℕ} {v : Vars} (hcount : 1 ≤ r.count)
    (hv : rounds r (alone size db catalog now) clock fuel .init = some v) (hnd : v.ids.Nodup)
    (hqueued : ∀ id ∈ v.ids, ∃ t, db.tasks.get id = some t ∧ t.state = .queued) :
    ∃ rows, claim fuel r size db catalog now clock leaseClock tokens =
        some (rows, (db.claim now leaseClock r.leaseS r.worker tokens v.ids).2) ∧
      rows.map Prod.fst = v.ids ∧
      ∀ x ∈ rows, ∃ t, db.tasks.get x.1 = some t ∧
        t.claim now (leaseClock x.1) r.leaseS r.worker (tokens x.1) = some x.2 := by
  refine ⟨_, by rw [claim, if_neg (by omega), hv, Option.map_some], ?_, ?_⟩
  · refine map_fst_started hnd ((List.perm_ext_iff_of_nodup Table.returning_nodup hnd).mpr ?_)
    refine fun id => ⟨fun hid => ?_, fun hid => ?_⟩
    · obtain ⟨⟨_, t'⟩, hx, rfl⟩ := List.mem_map.mp hid
      obtain ⟨t, -, hc⟩ := Table.mem_returning.mp hx
      exact (Option.ite_none_right_eq_some.mp hc).1
    · obtain ⟨t, ht, hq⟩ := hqueued id hid
      exact List.mem_map.mpr ⟨(id, _), Table.mem_returning.mpr
        ⟨t, ht, (if_pos hid).trans (if_pos hq)⟩, rfl⟩
  · rintro ⟨id, t'⟩ hx
    obtain ⟨t, ht, hc⟩ := Table.mem_returning.mp (mem_orderBy.mp hx)
    exact ⟨t, ht, (Option.ite_none_right_eq_some.mp hc).2⟩

/-- With no other transaction and no deadline reached, the claim ends and returns, in order, the rows
that the walk admits. -/
theorem claim_eq_greedy {fuel : ℕ} (hcount : 1 ≤ r.count)
    (hclock : ∀ n, clock n < clock 0 + r.deadlineS) (hfuel : db.tasks.next < fuel) :
    let w := alone size db catalog now
    let ids := (w.greedy (min r.count 256).toNat [] (w.waiting r.types)).map Candidate.id
    ∃ rows, claim fuel r size db catalog now clock leaseClock tokens =
        some (rows, (db.claim now leaseClock r.leaseS r.worker tokens ids).2) ∧
      rows.map Prod.fst = ids ∧
      ∀ x ∈ rows, ∃ t, db.tasks.get x.1 = some t ∧
        t.claim now (leaseClock x.1) r.leaseS r.worker (tokens x.1) = some x.2 := by
  intro w ids
  have ha : w.Alone := ⟨fun _ => rfl, fun _ _ => rfl⟩
  have hcap : 0 < r.cap := by simp only [Request.cap]; omega
  have hunseen : w.unseen r.types Vars.init.skip = w.waiting r.types := by
    simp [View.unseen, Vars.init]
  obtain ⟨v, hv, hids⟩ := rounds_spec ha hclock (.init : Represents w .init []) hcap
    (by rw [hunseen]; exact View.length_waiting.trans_lt hfuel)
  rw [hunseen] at hids
  have hvids : v.ids = ids := hids
  obtain ⟨hnd, hqueued⟩ := greedy_waiting w r.cap r.types
  rw [← hvids]
  exact claim_of_rounds hcount hv (hvids ▸ hnd) (hvids ▸ hqueued)

/-- Two rows of one key, a foreign type and a paused one around a type with both limits. -/
theorem claim_eq_greedy_mixed :
    let task (type : Name) (priority : ℤ) (key : Option String) : Op :=
      .enqueue 0 ⟨type, "{}", default, priority, none, none, key, none⟩
    let db := Db.init.execAll [task "a" 0 none, task "b" 5 none, task "a" 1 (some "k"),
      task "a" 1 (some "k"), task "c" 2 none]
    let catalog : Catalog := fun name =>
      if name = "a" then some ⟨some 3, some 1, false⟩
      else if name = "b" then some ⟨none, none, false⟩
      else if name = "c" then some ⟨none, none, true⟩
      else none
    ∃ rows db', claim 7 ⟨["a", "c"], "w", 30, 1, 3⟩ (fun _ => 2) db catalog 10 (fun _ => 10)
        (fun _ => 10) (fun id => id) = some (rows, db') ∧
      rows.map Prod.fst = [3, 1] := by
  intro task db catalog
  obtain ⟨rows, hc, hids, -⟩ := @claim_eq_greedy ⟨["a", "c"], "w", 30, 1, 3⟩ (fun _ => 2) db catalog 10
    (fun _ => 10) (fun _ => 10) (fun id => id) 7 (by decide)
    (fun _ => by decide +kernel) (by decide +kernel)
  refine ⟨rows, _, hc, hids.trans ?_⟩
  decide +kernel

/-- Whatever the clock reads, the claim ends and returns the first rows of the walk, at least one if the walk admits
any. -/
theorem claim_takes_first {fuel : ℕ} (hcount : 1 ≤ r.count)
    (hpos : ∀ name ty n, catalog name = some ty → ty.maxConcurrencyPerKey = some n → 0 < n)
    (hfuel : db.tasks.next < fuel) :
    let w := alone size db catalog now
    let walk := (w.greedy (min r.count 256).toNat [] (w.waiting r.types)).map Candidate.id
    ∃ k rows, claim fuel r size db catalog now clock leaseClock tokens =
        some (rows, (db.claim now leaseClock r.leaseS r.worker tokens (walk.take k)).2) ∧
      rows.map Prod.fst = walk.take k ∧ (walk ≠ [] → 0 < k) ∧
      ∀ x ∈ rows, ∃ t, db.tasks.get x.1 = some t ∧
        t.claim now (leaseClock x.1) r.leaseS r.worker (tokens x.1) = some x.2 := by
  intro w walk
  have ha : w.Alone := ⟨fun _ => rfl, fun _ _ => rfl⟩
  have hcap : 0 < r.cap := by simp only [Request.cap]; omega
  have hunseen : w.unseen r.types Vars.init.skip = w.waiting r.types := by
    simp [View.unseen, Vars.init]
  have hshort : (w.unseen r.patient.types Vars.init.skip).length < fuel :=
    (congrArg List.length hunseen).trans_lt (View.length_waiting.trans_lt hfuel)
  obtain ⟨v, hv, hids⟩ := rounds_spec ha still_early (.init : Represents w .init []) hcap hshort
  rw [show w.unseen r.patient.types Vars.init.skip = w.waiting r.types from hunseen] at hids
  have hvids : v.ids = walk := hids
  obtain ⟨v', hv', hpre⟩ : ∃ v', rounds r w clock fuel .init = some v' ∧ v'.ids <+: v.ids := rounds_patient hv
  have htake : v'.ids = walk.take v'.ids.length := hvids ▸ List.prefix_iff_eq_take.mp hpre
  obtain ⟨hnd, hqueued⟩ := greedy_waiting w r.cap r.types
  obtain ⟨rows, hc, hr, hrows⟩ := claim_of_rounds hcount hv'
    ((hvids ▸ hnd : v.ids.Nodup).sublist hpre.sublist) fun id hid => by
      have hmem := hpre.subset hid
      rw [hvids] at hmem
      exact hqueued id hmem
  refine ⟨v'.ids.length, rows, htake ▸ hc, htake ▸ hr, fun hne => List.length_pos_iff.mpr ?_, hrows⟩
  refine rounds_admits ha hcap hpos (fun hnil => hne ?_) hv'
  -- where no row is ready, the patient claim finds none either
  have hwalk := (Represents.init (w := w)).greedy_ready (r := r)
  rw [hunseen] at hwalk
  have hnil' : w.readyRows r.types Vars.init.skips = [] := hnil
  change (w.greedy r.cap [] (w.waiting r.types)).map Candidate.id = []
  rw [← hwalk, hnil']
  rfl

/-- A deadline that has passed before the claim begins: it takes one row, of the highest priority. -/
theorem claim_takes_first_late :
    let task (type : Name) (priority : ℤ) : Op :=
      .enqueue 0 ⟨type, "{}", default, priority, none, none, none, none⟩
    let db := Db.init.execAll [task "a" 0, task "a" 5, task "a" 1]
    let catalog : Catalog := fun name => if name = "a" then some ⟨none, some 1, false⟩ else none
    ∃ k rows db', claim 7 ⟨["a"], "w", 30, 0, 3⟩ (fun _ => 2) db catalog 10 (fun n => n) (fun _ => 10)
        (fun id => id) = some (rows, db') ∧
      rows.map Prod.fst = [2, 3, 1].take k ∧ 0 < k := by
  intro task db catalog
  have hwalk : (((alone (fun _ => 2) db catalog 10).greedy (min (3 : ℤ) 256).toNat []
      ((alone (fun _ => 2) db catalog 10).waiting ["a"])).map Candidate.id) = [2, 3, 1] := by decide +kernel
  obtain ⟨k, rows, hc, hr, hk, -⟩ := @claim_takes_first ⟨["a"], "w", 30, 0, 3⟩ (fun _ => 2) db catalog 10
    (fun n => n) (fun _ => 10) (fun id => id) 7 (by decide)
    (fun name ty n hcat hn => by
      obtain ⟨-, hty⟩ := Option.ite_none_right_eq_some.mp hcat
      cases hty
      cases hn
      decide) (by decide +kernel)
  exact ⟨k, rows, _, hc, hr.trans (congrArg (List.take k) hwalk), hk (by rw [hwalk]; decide)⟩

/-! ## Concurrent claims -/

/-- When a claim commits, every type that it admits rows of is published and unpaused, and neither the
type nor the key of an admitted row runs more rows than its current limit. -/
theorem limits_hold_at_commit {s s' : Sys} {p : TxnId} {x : Call}
    (h : Reachable Sys.step (Sys.init db catalog) s) (hx : s.txns.get p = some (.claim x))
    (hc : s.step (.commitClaim p leaseClock tokens) = some s') :
    ∀ id ∈ x.vars.ids, ∀ t, s'.db.tasks.get id = some t →
      ∃ ty, s'.catalog t.type = some ty ∧ ty.paused = false ∧
        (∀ n, ty.maxConcurrency = some n → running s'.db.tasks t.type ≤ n) ∧
        ∀ n key, ty.maxConcurrencyPerKey = some n → t.concurrencyKey = some key →
          runningKey s'.db.tasks t.type key ≤ n := by
  intro id hid t ht
  have hvars : VarsOk s p x.vars := ((inv_of_reachable h).txns p _ hx : CallOk s p x).vars
  simp only [Sys.step, hx] at hc
  obtain ⟨-, hc⟩ := Option.ite_none_right_eq_some.mp hc
  cases hc
  have hrows := claim_count_le x.now leaseClock x.request.leaseS x.request.worker tokens
    hvars.rows
  -- the admitted row's type and key are among the reservations
  obtain ⟨y, hy, hfits⟩ := exists_reserved hvars.rows hid
  have hfits := (hfits.exec (.claim x.now leaseClock x.request.leaseS x.request.worker tokens
    x.vars.ids)).2 t ht
  obtain ⟨e, he, hte⟩ := hvars.entered y hy
  have hok := hvars.entries e he
  have htype : e.type = t.type := by rw [hte, ← hfits]
  refine ⟨_, htype ▸ hok.secured.current, rfl, fun n hn => ?_, fun n key hn hk => ?_⟩
  · have hpos : 0 < admittedOf x.vars.reserved t.type :=
      List.length_pos_of_mem (List.mem_filter.mpr ⟨hy, by simp [← hfits]⟩)
    obtain ⟨h₁, h₂⟩ := hok.total n hn
    have hle := hrows fun y => decide (y.1 = t.type)
    rw [htype] at h₁ h₂
    have := h₂ hpos
    simp only [running_eq, admittedOf] at *
    exact hle.trans (h₁.trans this)
  · have hpos : 0 < reservedOf x.vars.reserved t.type key :=
      List.length_pos_of_mem (List.mem_filter.mpr ⟨hy, by simp [← hfits, hk]⟩)
    have h₁ := hok.keyed n key hn
    have hle := hrows fun y => decide (y = (t.type, some key))
    rw [htype] at h₁
    have := h₁ hpos
    simp only [runningKey_eq, reservedOf] at *
    exact hle.trans this

/-- The rows that a call of the claim function has taken. -/
def Txn.claimed : Txn → Option (List TaskId)
  | .claim x => some x.vars.ids
  | .writer _ => none

/-- Two claims of a type with a limit of two: the one that locks the type admits two rows of three, the
other one passes over them meanwhile. -/
theorem limits_hold_at_commit_interleaved :
    let task : Op := .enqueue 0 { type := "a", inputJson := "{}", policy := default }
    let catalog : Catalog := fun name => if name = "a" then some ⟨some 2, none, false⟩ else none
    let call : Sys.Action := .call ⟨["a"], "w", 30, 1, 4⟩ 10
    let next (p : TxnId) : Sys.Action := .advance p (fun _ => 2) (fun _ => false) fun _ => 0
    ∃ s s' x, Reachable Sys.step (Sys.init (Db.init.execAll [task, task, task]) catalog) s ∧
      run Sys.step (Sys.init (Db.init.execAll [task, task, task]) catalog)
        ([call, call] ++ List.replicate 4 (next 1) ++ List.replicate 8 (next 2) ++
          List.replicate 8 (next 1)) = some s ∧
      s.txns.get 1 = some (.claim x) ∧ x.vars.ids = [1, 2] ∧
      s.step (.commitClaim 1 (fun _ => 10) fun id => id) = some s' ∧
      running s'.db.tasks "a" = 2 ∧ ∀ t, s'.db.tasks.get 1 = some t →
        ∃ ty, s'.catalog t.type = some ty ∧ ty.paused = false ∧
          (∀ n, ty.maxConcurrency = some n → running s'.db.tasks t.type ≤ n) ∧
          ∀ n key, ty.maxConcurrencyPerKey = some n → t.concurrencyKey = some key →
            runningKey s'.db.tasks t.type key ≤ n := by
  intro task catalog call next
  let actions := [call, call] ++ List.replicate 4 (next 1) ++ List.replicate 8 (next 2) ++
    List.replicate 8 (next 1)
  have hrun : (run Sys.step (Sys.init (Db.init.execAll [task, task, task]) catalog) actions).any
      (fun s => (s.txns.get 1).any (fun x => x.claimed = some [1, 2]) ∧
        (s.step (.commitClaim 1 (fun _ => 10) fun id => id)).any fun s' =>
          running s'.db.tasks "a" = 2) = true := by decide +kernel
  obtain ⟨s, hs, hp⟩ := Option.any_eq_true _ _ |>.mp hrun
  simp only [decide_eq_true_eq, Option.any_eq_true] at hp
  obtain ⟨⟨x, hx, hids⟩, s', hs', hr⟩ := hp
  have hreach : Reachable Sys.step (Sys.init (Db.init.execAll [task, task, task]) catalog) s :=
    ⟨actions, hs⟩
  cases x with
  | claim x =>
      have hids : x.vars.ids = [1, 2] := by simpa [Txn.claimed] using hids
      exact ⟨s, s', x, hreach, hs, hx, hids, hs', hr,
        limits_hold_at_commit hreach hx hs' 1 (by simp [hids])⟩
  | writer staged => simp [Txn.claimed] at hids

end Fronta.Claim
