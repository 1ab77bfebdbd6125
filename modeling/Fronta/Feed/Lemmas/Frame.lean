import Fronta.Feed.Lemmas.Acts

/-!
# What a transaction may rely on

A transaction's locks keep the rows under them as they are while others take their steps. `Frame s s' p`
says this of one step; the invariants of open transactions are carried over by it.
-/

namespace Fronta.Feed

open Sql

variable {s s' : Sys} {p q : TxnId} {x : Txn} {o : Outcome} {action : TxnAction}

/-- What `p` can rely on between `s` and `s'`. -/
structure Frame (s s' : Sys) (p : TxnId) : Prop where
  held : ∀ r m, s.locks.Holds r p m → s'.locks.Holds r p m
  registrationsNext : s.registrations.next ≤ s'.registrations.next
  task : ∀ i, s.locks.Holds (.task i) p .update → s'.tasks.get i = s.tasks.get i
  event : ∀ seq, s.locks.Holds (.event seq) p .update → s'.events.get seq = s.events.get seq
  live : ∀ g m r, s.locks.Holds (.registration g) p m → s.registrations.get g = some r →
    ∃ r', s'.registrations.get g = some r' ∧ r'.name = r.name
  fixed : ∀ g r, s.locks.Holds (.registration g) p .noKeyUpdate →
    s.registrations.get g = some r → s'.registrations.get g = some r
  named : ∀ g r', s'.registrations.get g = some r' → g < s.registrations.next →
    ∃ r, s.registrations.get g = some r ∧ r.name = r'.name
  settled : ∀ g seq n, s.locks.Holds (.registration g) p .update → s'.events.get seq = some n →
    n.generation = g → s.events.get seq = some n

/-- A step that writes no table keeps everything but the locks of others. -/
theorem Frame.of_tables (hl : ∀ r m, s.locks.Holds r p m → s'.locks.Holds r p m)
    (ht : s'.tasks.get = s.tasks.get) (he : s'.events.get = s.events.get)
    (hr : s'.registrations = s.registrations) : Frame s s' p where
  held := hl
  registrationsNext := by rw [hr]
  task i _ := by rw [ht]
  event seq _ := by rw [he]
  live g m r _ h := ⟨r, by rw [hr, h], rfl⟩
  fixed g r _ h := by rw [hr, h]
  named g r' h _ := ⟨r', by rw [← hr, h], rfl⟩
  settled g seq n _ h _ := by rw [← he, h]

/-! ## Statements, beginnings and rollbacks -/

theorem get_move_self (hx : s.txns.get p = some x) : (s.move p o).txns.get p = some o.txn := by
  simp [Sys.move, hx]

theorem get_move_cases {y : Txn} (h : (s.move p o).txns.get q = some y) :
    (q = p ∧ y = o.txn) ∨ (q ≠ p ∧ s.txns.get q = some y) := by
  rcases Table.get_modify_cases h with hy | ⟨rfl, x, -, rfl⟩
  · exact Or.inr hy
  · exact Or.inl ⟨rfl, rfl⟩

theorem get_finish {y : Txn} : (s.finish p).txns.get q = some y ↔ s.txns.get q = some y ∧ q ≠ p := by
  rw [Sys.finish, Table.get_erase_eq_some, decide_eq_false_iff_not]

theorem get_start_cases {y : Txn} {locks : List (Target × Mode)}
    (h : (s.start x locks).txns.get q = some y) :
    (q = s.txns.next ∧ y = x) ∨ s.txns.get q = some y := Table.get_insert_cases h

@[simp] theorem holds_move {r : Target} {m : Mode} :
    (s.move p o).locks.Holds r q m ↔ (q = p ∧ (r, m) ∈ o.locks) ∨ s.locks.Holds r q m :=
  Locks.holds_acquireAll

@[simp] theorem holds_finish {r : Target} {m : Mode} :
    (s.finish p).locks.Holds r q m ↔ s.locks.Holds r q m ∧ q ≠ p := Locks.holds_release

@[simp] theorem holds_start {r : Target} {m : Mode} {locks : List (Target × Mode)} :
    (s.start x locks).locks.Holds r q m ↔
      (q = s.txns.next ∧ (r, m) ∈ locks) ∨ s.locks.Holds r q m := Locks.holds_acquireAll

theorem frame_move (s : Sys) (p q : TxnId) (o : Outcome) : Frame s (s.move p o) q :=
  .of_tables (fun _ _ h => holds_move.mpr (Or.inr h)) rfl rfl rfl

theorem frame_finish (hq : q ≠ p) : Frame s (s.finish p) q :=
  .of_tables (fun _ _ h => holds_finish.mpr ⟨h, hq⟩) rfl rfl rfl

theorem frame_start {locks : List (Target × Mode)} : Frame s (s.start x locks) q :=
  .of_tables (fun _ _ h => holds_start.mpr (Or.inr h)) rfl rfl rfl

/-! ## Locks -/

/-- The transaction finds the row that it asks for. -/
def Finds (s : Sys) (x : Txn) : Target → Prop
  | .task i => (s.rowOf x i).isSome
  | .registration g => (s.registrations.get g).isSome
  | .event seq => (s.events.get seq).isSome

/-- The row will be the transaction's own: it is inserted under an id that the statement draws. -/
def Makes (s : Sys) (o : Outcome) : Target → Prop
  | .task i => i = s.tasks.next ∧ i < s.tasks.next + o.tasks
  | .registration _ => False
  | .event seq => s.events.next ≤ seq ∧ seq < s.events.next + o.events

theorem granted_of_act (h : s.act p x action = some o) {r : Target} {m : Mode}
    (hr : (r, m) ∈ o.locks) : s.free p r m = true ∧ Finds s x r ∨ Makes s o r := by
  cases acts_of_act h with
  | insert =>
      cases List.mem_singleton.mp hr
      exact Or.inr ⟨rfl, Nat.lt_succ_self _⟩
  | transition _ ht _ _ _ hfree =>
      cases List.mem_singleton.mp hr
      exact Or.inl ⟨hfree, Option.isSome_of_eq_some ht⟩
  | purgeTask ht _ hfree =>
      cases List.mem_singleton.mp hr
      exact Or.inl ⟨hfree, Option.isSome_of_eq_some ht⟩
  | purgeEvent hn _ _ hfree =>
      cases List.mem_singleton.mp hr
      exact Or.inl ⟨hfree, Option.isSome_of_eq_some hn⟩
  | publish _ hr' hfree =>
      rcases List.mem_cons.mp hr with hr | hr
      · cases hr
        exact Or.inl ⟨hfree, Option.isSome_of_eq_some hr'⟩
      · cases List.mem_singleton.mp hr
        exact Or.inr ⟨Nat.le_refl _, Nat.lt_succ_self _⟩
  | fill =>
      obtain ⟨y, hy, he⟩ := List.mem_map.mp hr
      cases he
      have := List.snd_lt_of_mem_zipIdx hy
      exact Or.inr ⟨Nat.le_add_right _ _, Nat.add_lt_add_left (by omega) _⟩
  | fetch =>
      obtain ⟨seq, hseq, he⟩ := List.mem_map.mp hr
      cases he
      obtain ⟨e, he, rfl⟩ := List.mem_map.mp hseq
      obtain ⟨hmem, hf⟩ := List.mem_filter.mp (List.mem_of_mem_take he)
      rw [Bool.and_eq_true] at hf
      exact Or.inl ⟨hf.2, Option.isSome_of_eq_some (Table.mem_entries.mp hmem)⟩
  | dropRegistration _ _ hr' hfree =>
      cases List.mem_singleton.mp hr
      exact Or.inl ⟨hfree, Option.isSome_of_eq_some hr'⟩
  | dropEvent _ _ hn hfree =>
      cases List.mem_singleton.mp hr
      exact Or.inl ⟨hfree, Option.isSome_of_eq_some hn⟩
  | _ => cases hr

/-- The locks of different transactions are compatible, and a locked task or event has its id. -/
structure LocksOk (s : Sys) : Prop where
  sound : s.locks.Sound
  task : ∀ i t m, s.locks.Holds (.task i) t m → i < s.tasks.next
  event : ∀ seq t m, s.locks.Holds (.event seq) t m → seq < s.events.next

theorem locksOk_init {catalog : Catalog} : LocksOk (Sys.init catalog) :=
  ⟨Locks.sound_nil, (fun _ _ _ h => by cases h), fun _ _ _ h => by cases h⟩

theorem LocksOk.move (hl : LocksOk s) (h : s.act p x action = some o)
    (hrows : ∀ i v, x.rows.lookup i = some v → s.locks.Holds (.task i) p .update) :
    LocksOk (s.move p o) where
  sound := by
    refine hl.sound.acquireAll fun r m hr => ?_
    rcases granted_of_act h hr with hf | hm
    · exact hf.1
    · refine Locks.grantable_of_free fun t n hn => ?_
      cases r with
      | task i => exact Nat.ne_of_lt (hl.task _ _ _ hn) hm.1
      | registration g => exact hm
      | event seq => exact Nat.not_lt.mpr hm.1 (hl.event _ _ _ hn)
  task i t m hh := by
    rcases holds_move.mp hh with ⟨-, hr⟩ | hh
    · rcases granted_of_act h hr with hf | hm
      · refine Nat.lt_add_right _ ?_
        obtain ⟨row, hrow⟩ := Option.isSome_iff_exists.mp hf.2
        cases hw : x.rows.lookup i with
        | none => rw [Sys.rowOf, hw] at hrow; exact Table.lt_of_get hrow
        | some v => exact hl.task _ _ _ (hrows i v hw)
      · exact hm.2
    · exact Nat.lt_add_right _ (hl.task _ _ _ hh)
  event seq t m hh := by
    rcases holds_move.mp hh with ⟨-, hr⟩ | hh
    · rcases granted_of_act h hr with hf | hm
      · obtain ⟨n, hn⟩ := Option.isSome_iff_exists.mp hf.2
        exact Nat.lt_add_right _ (Table.lt_of_get hn)
      · exact hm.2
    · exact Nat.lt_add_right _ (hl.event _ _ _ hh)

theorem LocksOk.finish (hl : LocksOk s) (p : TxnId) : LocksOk (s.finish p) where
  sound := hl.sound.release p
  task i t m hh := hl.task i t m (holds_finish.mp hh).1
  event seq t m hh := hl.event seq t m (holds_finish.mp hh).1

/-- A transaction starts with free locks on registrations. -/
theorem LocksOk.start (hl : LocksOk s) {locks : List (Target × Mode)}
    (hg : ∀ r m, (r, m) ∈ locks → s.free s.txns.next r m = true ∧ ∃ g, r = .registration g) :
    LocksOk (s.start x locks) where
  sound := hl.sound.acquireAll fun r m hr => (hg r m hr).1
  task i t m hh := by
    rcases holds_start.mp hh with ⟨-, hr⟩ | hh
    · obtain ⟨-, g, hr⟩ := hg _ _ hr; cases hr
    · exact hl.task _ _ _ hh
  event seq t m hh := by
    rcases holds_start.mp hh with ⟨-, hr⟩ | hh
    · obtain ⟨-, g, hr⟩ := hg _ _ hr; cases hr
    · exact hl.event _ _ _ hh

end Fronta.Feed
