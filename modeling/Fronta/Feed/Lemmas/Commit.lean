import Fronta.Feed.Lemmas.Identity
import Fronta.Feed.Lemmas.Steps

/-!
# Commits, and what holds in every reachable state
-/

namespace Fronta.Feed

open Runs Sql

variable {s s' : Sys} {p q : TxnId} {x : Txn} {o : Outcome} {g : Generation}

/-! ## Registrations after a commit -/

/-- A commit changes markers only, apart from the row that an `unsubscribe` deletes. -/
theorem settle_origin {R : Table Registration} {role : Role} {r' : Registration}
    (h : (Sys.settle R role).get g = some r') : ∃ r, R.get g = some r ∧ r.name = r'.name ∧
      r.states = r'.states ∧ r.types = r'.types := by
  cases role with
  | plain => exact ⟨r', h, rfl, rfl, rfl⟩
  | pull f => exact ⟨r', h, rfl, rfl, rfl⟩
  | unsubscribe u => exact ⟨r', (Table.get_erase_eq_some.mp h).1, rfl, rfl, rfl⟩
  | chunk c =>
      cases hu : c.update with
      | none => exact ⟨r', by simpa [Sys.settle, hu] using h, rfl, rfl, rfl⟩
      | some marker =>
          simp only [Sys.settle, hu] at h
          obtain ⟨r, hr, ⟨-, rfl⟩ | hs⟩ := Table.get_update_cases h
          · exact ⟨_, hr, rfl, rfl, rfl⟩
          · obtain ⟨-, hs⟩ := Option.ite_none_right_eq_some.mp hs
            cases hs
            exact ⟨r, hr, rfl, rfl, rfl⟩

theorem settle_live {R : Table Registration} {role : Role} {r : Registration} (h : R.get g = some r)
    (hn : ∀ u, role = .unsubscribe u → u.target ≠ some g) :
    ∃ r', (Sys.settle R role).get g = some r' ∧ r'.name = r.name := by
  cases role with
  | plain => exact ⟨r, h, rfl⟩
  | pull f => exact ⟨r, h, rfl⟩
  | unsubscribe u =>
      exact ⟨r, Table.get_erase_eq_some.mpr ⟨h, decide_eq_false (hn u rfl)⟩, rfl⟩
  | chunk c =>
      cases hu : c.update with
      | none => exact ⟨r, by simpa [Sys.settle, hu] using h, rfl⟩
      | some marker =>
          simp only [Sys.settle, hu, Table.get_update, h, Option.map_some]
          by_cases hc : r.name = c.name
          · exact ⟨{ r with backfill := marker }, by rw [if_pos hc]; rfl, rfl⟩
          · exact ⟨r, by rw [if_neg hc]; rfl, rfl⟩

theorem settle_next {R : Table Registration} {role : Role} : (Sys.settle R role).next = R.next := by
  cases role with
  | chunk c => cases hu : c.update <;> simp [Sys.settle, hu]
  | _ => rfl

/-- A complete `unsubscribe` holds the row that it deletes. -/
theorem TxnOk.removal (h : TxnOk s p x) (hc : x.complete = true) {u : Removal}
    (hu : x.role = .unsubscribe u) (ht : u.target = some g) :
    s.locks.Holds (.registration g) p .update ∧
      ∀ seq n, s.events.get seq = some n → n.generation = g → seq ∈ x.deleted := by
  have hrole := h.role
  rw [hu] at hrole
  have hrole : RemovalOk s p x u := hrole
  simp only [Txn.complete, hu, Bool.and_eq_true, Option.any_eq_true] at hc
  obtain ⟨-, seqs, hv, he⟩ := hc
  rw [List.isEmpty_iff] at he
  subst he
  obtain ⟨hd, hall⟩ := hrole.visible _ hv
  refine ⟨(hrole.held g hd ht).1, fun seq n hn hgn => ?_⟩
  exact (hall g ht seq n hn hgn).resolve_left List.not_mem_nil

/-- Other registrations keep their markers through a chunk. -/
theorem Base.settle_other (hb : Base s) (hx : s.txns.get p = some x)
    (hn : ∀ c, x.role = .chunk c → c.generation ≠ g) (hu : ∀ u, x.role = .unsubscribe u → u.target ≠ some g) :
    (Sys.settle s.registrations x.role).get g = s.registrations.get g := by
  have h := (hb.txns p x hx).role
  cases hr : x.role with
  | plain => rfl
  | pull f => rfl
  | unsubscribe u =>
      have hu := hu u hr
      simp only [Sys.settle, Table.get_erase, hu, decide_false, Bool.not_false]
      cases s.registrations.get g <;> rfl
  | chunk c =>
      rw [hr] at h
      obtain ⟨rc, hrc, hname, -⟩ := (show ChunkOk s p x c from h).read
      cases hu : c.update with
      | none => simp [Sys.settle, hu]
      | some marker =>
          simp only [Sys.settle, hu, Table.get_update]
          cases hg : s.registrations.get g with
          | none => rfl
          | some r =>
              have : r.name ≠ c.name := fun he =>
                hn c hr (hb.names _ _ c.name ⟨rc, hrc, hname⟩ ⟨r, hg, he⟩)
              simp [this]

/-! ## The frame of a commit -/

theorem get_commit_event_cases {seq : Seq} {n : Insertion}
    (h : (s.commit p x).events.get seq = some n) :
    seq ∉ x.deleted ∧ (s.events.get seq = some n ∨ (seq, n) ∈ x.inserted) := by
  obtain ⟨h, hd⟩ := Table.get_erase_eq_some.mp h
  refine ⟨of_decide_eq_false hd, ?_⟩
  rcases Table.get_overlay_cases h with ⟨-, h⟩ | h
  · exact Or.inl h
  · obtain ⟨l₁, l₂, hl, -⟩ := List.lookup_eq_some_iff.mp h
    have hmem : (seq, some n) ∈ x.inserted.map fun n => (n.1, some n.2) := by rw [hl]; simp
    obtain ⟨y, hy, he⟩ := List.mem_map.mp hmem
    cases he
    exact Or.inr hy

theorem Base.frame_commit (hb : Base s) (hx : s.txns.get p = some x) (hc : x.complete = true)
    (hq : q ≠ p) : Frame s (s.commit p x) q := by
  have h := hb.txns p x hx
  have hs := hb.locks.sound
  have hremoved : ∀ g m, s.locks.Holds (.registration g) q m →
      ∀ u, x.role = .unsubscribe u → u.target ≠ some g := fun g m hl u hu ht =>
    hq (hs.exclusive (h.removal hc hu ht).1 hl)
  refine ⟨fun r m hl => holds_finish.mpr ⟨hl, hq⟩, settle_next.ge, fun i hl => ?_, fun seq hl => ?_,
    fun g m r hl hr => settle_live hr (hremoved g m hl), fun g r hl hr => ?_, fun g r' hr' _ => ?_,
    fun g seq n hl hn hgn => ?_⟩
  · refine Table.get_overlay_of_none ?_
    by_contra hw
    obtain ⟨v, hv⟩ := Option.ne_none_iff_exists'.mp hw
    exact hq (hs.exclusive hl (h.rows i v hv)).symm
  · have hins : (x.inserted.map fun n => (n.1, some n.2)).lookup seq = none := by
      rw [List.lookup_eq_none_iff]
      intro y hy
      obtain ⟨n, hn, rfl⟩ := List.mem_map.mp hy
      by_contra hne
      rw [bne_iff_ne, ne_eq, not_not] at hne
      exact hq (hs.exclusive hl (hne ▸ (h.inserted n hn).numbered)).symm
    have hdel : seq ∉ x.deleted := fun hd => hq (hs.exclusive hl (h.deleted seq hd)).symm
    simp only [Sys.commit, Table.get_erase, Table.get_overlay_of_none hins, hdel, decide_false,
      Bool.not_false]
    cases s.events.get seq <;> rfl
  · refine (hb.settle_other hx (fun c hc he => ?_) (hremoved g _ hl)).trans hr
    have hrole := h.role
    rw [hc] at hrole
    have hheld := (show ChunkOk s p x c from hrole).held
    rw [he] at hheld
    exact hq (hs.eq_of_conflict hl hheld rfl)
  · obtain ⟨r, hr, hname, -⟩ := settle_origin hr'
    exact ⟨r, hr, hname⟩
  · rcases (get_commit_event_cases hn).2 with hn | hn
    · exact hn
    · obtain ⟨m, hm⟩ := (h.inserted _ hn).secured
      rw [hgn] at hm
      exact absurd (hs.exclusive hl hm).symm hq

/-! ## Steps -/

theorem base_init {catalog : Catalog} : Base (Sys.init catalog) where
  locks := locksOk_init
  names g g' name h := by obtain ⟨r, hr, -⟩ := h; cases hr
  events seq n h := by cases h
  txns p x h := by cases h

theorem Base.move (hb : Base s) (hx : s.txns.get p = some x) {action : TxnAction}
    (ho : s.act p x action = some o) : Base (s.move p o) where
  locks := hb.locks.move ho (hb.txns p x hx).rows
  names := hb.names
  events := hb.events
  txns q y hy := by
    rcases get_move_cases hy with ⟨rfl, rfl⟩ | ⟨-, hy⟩
    · exact hb.act hx ho
    · exact (hb.txns q y hy).frame (frame_move s p q o)

theorem Base.finish (hb : Base s) (p : TxnId) : Base (s.finish p) where
  locks := hb.locks.finish p
  names := hb.names
  events := hb.events
  txns q y hy := by
    obtain ⟨hy, hq⟩ := get_finish.mp hy
    exact (hb.txns q y hy).frame (frame_finish hq)

theorem Base.commit (hb : Base s) (hx : s.txns.get p = some x) (hc : x.complete = true) :
    Base (s.commit p x) where
  locks :=
    { sound := hb.locks.sound.release p
      task := fun i t m hl => hb.locks.task i t m (holds_finish.mp hl).1
      event := fun seq t m hl => hb.locks.event seq t m (holds_finish.mp hl).1 }
  names g g' name h h' := by
    obtain ⟨r, hr, hn⟩ := h
    obtain ⟨r', hr', hn'⟩ := h'
    obtain ⟨r₁, hr₁, hn₁, -⟩ := settle_origin hr
    obtain ⟨r₂, hr₂, hn₂, -⟩ := settle_origin hr'
    exact hb.names g g' name ⟨r₁, hr₁, hn₁.trans hn⟩ ⟨r₂, hr₂, hn₂.trans hn'⟩
  events seq n hn := by
    have h := hb.txns p x hx
    obtain ⟨hdel, hn⟩ := get_commit_event_cases hn
    have hkept : Named s n.generation n.event.subscription ∧ n.origin.Admits n.generation :=
      hn.elim (hb.events seq n) fun hn => ⟨(h.inserted _ hn).named, (h.inserted _ hn).admitted⟩
    refine ⟨?_, hkept.2⟩
    obtain ⟨r, hr, hname⟩ := hkept.1
    rw [← hname]
    refine settle_live hr fun u hu ht => ?_
    -- an `unsubscribe` has deleted every event of its registration and inserts none
    rcases hn with hn | hn
    · exact hdel ((h.removal hc hu ht).2 seq n hn rfl)
    · have hrole := h.role
      rw [hu] at hrole
      rw [(show RemovalOk s p x u from hrole).idle.1] at hn
      cases hn
  txns q y hy := by
    obtain ⟨hy, hq⟩ := get_finish.mp hy
    exact (hb.txns q y hy).frame (hb.frame_commit hx hc hq)

theorem Base.start (hb : Base s) {locks : List (Target × Mode)}
    (hg : ∀ r m, (r, m) ∈ locks → s.free s.txns.next r m = true ∧ ∃ g, r = .registration g)
    (hx : TxnOk (s.start x locks) s.txns.next x) : Base (s.start x locks) where
  locks := hb.locks.start hg
  names := hb.names
  events := hb.events
  txns q y hy := by
    rcases get_start_cases hy with ⟨rfl, rfl⟩ | hy
    · exact hx
    · exact (hb.txns q y hy).frame frame_start

theorem Base.of_eq (hb : Base s) (hr : s'.registrations = s.registrations) (he : s'.events = s.events)
    (ht : s'.tasks = s.tasks) (hx : s'.txns = s.txns) (hl : s'.locks = s.locks) : Base s' where
  locks := ⟨hl ▸ hb.locks.sound, by rw [hl, ht]; exact hb.locks.task,
    by rw [hl, he]; exact hb.locks.event⟩
  names := by unfold Named; rw [hr]; exact hb.names
  events := by unfold Named; rw [he, hr]; exact hb.events
  txns q y hy := (hb.txns q y (hx ▸ hy)).frame
    (.of_tables (fun _ _ h => hl ▸ h) (by rw [ht]) (by rw [he]) hr)

/-! ## Subscribing -/

variable {name : Name} {states : List State} {types : Option (List Name)} {marker : Option Marker}
  {batchSize : ℕ} {k : ConsumerId} {now : Time}

theorem named_create {name' : Name} (h : Named (s.create name states types marker batchSize) g name') :
    (g = s.registrations.next ∧ name' = name) ∨ Named s g name' := by
  obtain ⟨r, hr, rfl⟩ := h
  rcases Table.get_insert_cases hr with ⟨rfl, rfl⟩ | hr
  · exact Or.inl ⟨rfl, rfl⟩
  · exact Or.inr ⟨r, hr, rfl⟩

theorem frame_create : Frame s (s.create name states types marker batchSize) q where
  held _ _ h := h
  registrationsNext := Nat.le_succ _
  task _ _ := rfl
  event _ _ := rfl
  live g m r _ hr := ⟨r, Table.get_insert_of_get hr, rfl⟩
  fixed g r _ hr := Table.get_insert_of_get hr
  named g r' hr' hlt := by
    rcases Table.get_insert_cases hr' with ⟨rfl, -⟩ | hr
    · exact absurd hlt (Nat.lt_irrefl _)
    · exact ⟨r', hr, rfl⟩
  settled _ _ _ _ h _ := h

theorem get_refilter {r : Registration} (g' : Generation) :
    (s.refilter g r states types batchSize).registrations.get g' =
      if g' = g then (s.registrations.get g).map fun r => { r with states := states, types := types }
      else s.registrations.get g' := by
  by_cases hg : g' = g
  · subst hg
    simp [Sys.refilter]
  · simp [Sys.refilter, Table.get_modify, hg]

theorem named_refilter {r : Registration} {g' : Generation} {name' : Name} :
    Named (s.refilter g r states types batchSize) g' name' ↔ Named s g' name' := by
  unfold Named
  rw [get_refilter]
  split
  · rename_i hg; subst hg; cases s.registrations.get g' <;> simp
  · rfl

theorem frame_refilter {r : Registration}
    (hf : s.free p (.registration g) .noKeyUpdate = true) (hq : q ≠ p) :
    Frame s (s.refilter g r states types batchSize) q where
  held _ _ h := h
  registrationsNext := Nat.le_refl _
  task _ _ := rfl
  event _ _ := rfl
  live g' m r₀ _ hr := named_refilter.mpr ⟨r₀, hr, rfl⟩
  fixed g' r₀ hl hr := by
    rw [get_refilter, if_neg, hr]
    rintro rfl
    cases Locks.grantable_iff.mp hf _ _ hl hq
  named g' r' hr' _ := named_refilter.mp ⟨r', hr', rfl⟩
  settled _ _ _ _ h _ := h

theorem Base.create (hb : Base s) (hn : s.registered name = none) :
    Base (s.create name states types marker batchSize) where
  locks := ⟨hb.locks.sound, hb.locks.task, hb.locks.event⟩
  names g g' name' h h' := by
    rcases named_create h with ⟨rfl, rfl⟩ | h <;> rcases named_create h' with ⟨rfl, he⟩ | h'
    · rfl
    · obtain ⟨r', hr', hname⟩ := h'
      exact absurd hname (registered_eq_none hn hr')
    · obtain ⟨r', hr', hname⟩ := h
      exact absurd (hname.trans he) (registered_eq_none hn hr')
    · exact hb.names g g' name' h h'
  events seq n he := by
    obtain ⟨⟨r, hr, hname⟩, ha⟩ := hb.events seq n he
    exact ⟨⟨r, Table.get_insert_of_get hr, hname⟩, ha⟩
  txns q y hy := (hb.txns q y hy).frame frame_create

theorem Base.refilter (hb : Base s) {r : Registration}
    (hf : s.free s.txns.next (.registration g) .noKeyUpdate = true) :
    Base (s.refilter g r states types batchSize) where
  locks := ⟨hb.locks.sound, hb.locks.task, hb.locks.event⟩
  names g₁ g₂ name' h h' := hb.names g₁ g₂ name' (named_refilter.mp h) (named_refilter.mp h')
  events seq n he := (hb.events seq n he).imp_left named_refilter.mpr
  txns q y hy := (hb.txns q y hy).frame (frame_refilter hf (Nat.ne_of_lt (Table.lt_of_get hy)))

/-! ## Every step -/

theorem Base.enter (hb : Base s) (k : ConsumerId) (phase : Phase) (txn : Option TxnId) :
    Base (s.enter k phase txn) := hb.of_eq rfl rfl rfl rfl rfl

theorem Base.rollback (hb : Base s) (c : Consumer) : Base (rolledBack s c) := by
  unfold rolledBack
  cases c.txn with
  | none => exact hb
  | some q => exact hb.finish q

theorem txnOk_fresh {repeatable : Bool} {role : Role}
    (h : RoleOk s p { now := now, repeatable := repeatable, role := role } role) :
    TxnOk s p { now := now, repeatable := repeatable, role := role } where
  rows i v hv := by cases hv
  snapshots y hy := by cases hy
  changes c hc := by cases hc
  notices n hn := by cases hn
  inserted n hn := by cases hn
  deleted i hi := by cases hi
  role := h

theorem Base.unsubscribe (hb : Base s) (name : Name) : Base (s.start
    { now := now
      repeatable := false
      role := .unsubscribe ⟨name, (s.registered name).map Prod.fst, false, none⟩ } []) := by
  refine hb.start (fun r m hr => by cases hr) (txnOk_fresh ?_)
  refine ⟨⟨rfl, rfl, rfl, rfl, rfl⟩, fun g hg => ?_, (fun g hd => by cases hd), fun seqs hs => by cases hs⟩
  obtain ⟨⟨g', r⟩, hr, rfl⟩ := Option.map_eq_some_iff.mp hg
  obtain ⟨hr, hn⟩ := registered_eq_some hr
  refine ⟨Table.lt_of_get hr, fun r' hr' => ?_⟩
  rw [← hn, Option.some.inj (hr.symm.trans hr')]

theorem Base.step (hb : Base s) {action : Action} (h : Steps s action s') : Base s' := by
  cases h with
  | begin => exact hb.start (fun r m hr => by cases hr) (txnOk_fresh fun n hn => by cases hn)
  | within hx ho => exact hb.move hx ho
  | commit hx hc => exact hb.commit hx hc
  | rollback => exact hb.finish _
  | create hn => exact hb.create hn
  | refilter _ _ hf => exact hb.refilter hf
  | enter => exact hb.enter _ _ _
  | same => exact hb
  | @chunk k now c r m _ _ hr hn hm hf =>
      refine hb.start (fun r m hr => ?_) (txnOk_fresh ?_)
      · cases List.mem_singleton.mp hr
        exact ⟨hf, _, rfl⟩
      · exact
          { held := holds_start.mpr (Or.inl ⟨rfl, List.mem_cons_self⟩)
            read := ⟨r, hr, hn, rfl, hm⟩
            inserted := fun n hn => by cases hn
            unfilled := fun _ => rfl
            idle := ⟨rfl, rfl, rfl, rfl, rfl⟩ }
  | refuse => exact (hb.rollback _).enter _ _ _
  | @pull k now c r _ _ hr hn hf =>
      refine ((hb.rollback c).enter k .ready _).start (fun r m hr => ?_) (txnOk_fresh ?_)
      · cases List.mem_singleton.mp hr
        exact ⟨hf, _, rfl⟩
      · exact
          { held := holds_start.mpr (Or.inl ⟨rfl, List.mem_cons_self⟩)
            named := ⟨r, hr, hn⟩
            batch := fun seqs hs => by cases hs
            deleted := fun seq hs => by cases hs
            inserted := fun n hn => by cases hn }
  | unsubscribe => exact hb.unsubscribe _
  | leave => exact hb.of_eq rfl rfl rfl rfl rfl
  | setPaused => exact hb.of_eq rfl rfl rfl rfl rfl

theorem base_of_reachable {catalog : Catalog} (h : Reachable Sys.step (Sys.init catalog) s) :
    Base s := h.invariant base_init fun _ _ _ hb hs => hb.step (steps_of_step hs)

end Fronta.Feed
