import Fronta.Feed.Lemmas.Frame

/-!
# Transactions and the registrations they act on

What holds of every open transaction: its writes are locked, what it inserts belongs to a registration
that stays until it ends, and a consumer's transaction touches its own registration only.
-/

namespace Fronta.Feed

open Sql

variable {s s' : Sys} {p q : TxnId} {x : Txn} {o : Outcome} {action : TxnAction}

/-- The registration is there under this name. -/
def Named (s : Sys) (g : Generation) (name : Name) : Prop :=
  ∃ r, s.registrations.get g = some r ∧ r.name = name

/-- An event that `p` will insert: its number and its registration are secured. -/
structure InsertionOk (s : Sys) (p : TxnId) (n : Seq × Insertion) : Prop where
  numbered : s.locks.Holds (.event n.1) p .update
  secured : ∃ m, s.locks.Holds (.registration n.2.generation) p m
  named : Named s n.2.generation n.2.event.subscription
  admitted : n.2.origin.Admits n.2.generation

/-- A chunk holds its registration as it read it. -/
structure ChunkOk (s : Sys) (p : TxnId) (x : Txn) (c : ChunkCall) : Prop where
  held : s.locks.Holds (.registration c.generation) p .noKeyUpdate
  read : ∃ r, s.registrations.get c.generation = some r ∧ r.name = c.name ∧ r.types = c.types ∧
    r.backfill = some c.marker
  inserted : ∀ n ∈ x.inserted, n.2.generation = c.generation ∧ n.2.origin = .backfill c.generation
  unfilled : c.update = none → x.inserted = []
  idle : x.rows = [] ∧ x.changes = [] ∧ x.notices = [] ∧ x.deleted = [] ∧ x.snapshots = []

/-- A delivery holds its registration and the events of its batch, and deletes no others. -/
structure DeliveryOk (s : Sys) (p : TxnId) (x : Txn) (f : Delivery) : Prop where
  held : s.locks.Holds (.registration f.generation) p .keyShare
  named : Named s f.generation f.name
  batch : ∀ seqs, f.batch = some seqs → ∀ seq ∈ seqs, s.locks.Holds (.event seq) p .update ∧
    ∃ n, s.events.get seq = some n ∧ n.generation = f.generation
  deleted : ∀ seq ∈ x.deleted, ∃ seqs, f.batch = some seqs ∧ seq ∈ seqs
  inserted : ∀ n ∈ x.inserted, n.2.origin.isTransition = true

/-- An `unsubscribe` that holds its registration keeps track of every event of it. -/
structure RemovalOk (s : Sys) (p : TxnId) (x : Txn) (u : Removal) : Prop where
  idle : x.inserted = [] ∧ x.rows = [] ∧ x.changes = [] ∧ x.notices = [] ∧ x.snapshots = []
  target : ∀ g, u.target = some g → g < s.registrations.next ∧
    ∀ r, s.registrations.get g = some r → r.name = u.name
  held : ∀ g, u.dropped = true → u.target = some g →
    s.locks.Holds (.registration g) p .update ∧ Named s g u.name
  visible : ∀ seqs, u.visible = some seqs → u.dropped = true ∧ ∀ g, u.target = some g →
    ∀ seq n, s.events.get seq = some n → n.generation = g → seq ∈ seqs ∨ seq ∈ x.deleted

def RoleOk (s : Sys) (p : TxnId) (x : Txn) : Role → Prop
  | .plain => ∀ n ∈ x.inserted, n.2.origin.isTransition = true
  | .chunk c => ChunkOk s p x c
  | .pull f => DeliveryOk s p x f
  | .unsubscribe u => RemovalOk s p x u

structure TxnOk (s : Sys) (p : TxnId) (x : Txn) : Prop where
  rows : ∀ i v, x.rows.lookup i = some v → s.locks.Holds (.task i) p .update
  snapshots : ∀ snapshot ∈ x.snapshots, snapshot.next ≤ s.registrations.next
  changes : ∀ c ∈ x.changes, c.snapshot ∈ x.snapshots
  notices : ∀ n ∈ x.notices, (n.snapshot.get n.generation).isSome
  inserted : ∀ n ∈ x.inserted, InsertionOk s p n
  deleted : ∀ seq ∈ x.deleted, s.locks.Holds (.event seq) p .update
  role : RoleOk s p x x.role

/-! ## Frames -/

theorem Named.frame (hf : Frame s s' p) {g : Generation} {name : Name} {m : Mode}
    (hl : s.locks.Holds (.registration g) p m) (h : Named s g name) : Named s' g name := by
  obtain ⟨r, hr, rfl⟩ := h
  exact hf.live g m r hl hr

theorem InsertionOk.frame (hf : Frame s s' p) {n : Seq × Insertion} (h : InsertionOk s p n) :
    InsertionOk s' p n := by
  obtain ⟨m, hm⟩ := h.secured
  exact ⟨hf.held _ _ h.numbered, ⟨m, hf.held _ _ hm⟩, h.named.frame hf hm, h.admitted⟩

theorem ChunkOk.frame (hf : Frame s s' p) {c : ChunkCall} (h : ChunkOk s p x c) :
    ChunkOk s' p x c :=
  { h with
    held := hf.held _ _ h.held
    read := by
      obtain ⟨r, hr, hread⟩ := h.read
      exact ⟨r, hf.fixed _ r h.held hr, hread⟩ }

theorem DeliveryOk.frame (hf : Frame s s' p) {f : Delivery} (h : DeliveryOk s p x f) :
    DeliveryOk s' p x f :=
  { h with
    held := hf.held _ _ h.held
    named := h.named.frame hf h.held
    batch := fun seqs hb seq hs => by
      obtain ⟨hl, hn⟩ := h.batch seqs hb seq hs
      exact ⟨hf.held _ _ hl, by rw [hf.event _ hl]; exact hn⟩ }

theorem RemovalOk.frame (hf : Frame s s' p) {u : Removal} (h : RemovalOk s p x u) :
    RemovalOk s' p x u where
  idle := h.idle
  target g hg := by
    obtain ⟨hlt, hn⟩ := h.target g hg
    refine ⟨hlt.trans_le hf.registrationsNext, fun r' hr' => ?_⟩
    obtain ⟨r, hr, hrn⟩ := hf.named g r' hr' hlt
    rw [← hrn, hn r hr]
  held g hd hg := by
    obtain ⟨hl, hn⟩ := h.held g hd hg
    exact ⟨hf.held _ _ hl, hn.frame hf hl⟩
  visible seqs hv := by
    obtain ⟨hd, hall⟩ := h.visible seqs hv
    refine ⟨hd, fun g hg seq n hn hgn => ?_⟩
    exact hall g hg seq n (hf.settled g seq n (h.held g hd hg).1 hn hgn) hgn

theorem RoleOk.frame (hf : Frame s s' p) : ∀ {role : Role}, RoleOk s p x role → RoleOk s' p x role
  | .plain, h => h
  | .chunk _, h => ChunkOk.frame hf h
  | .pull _, h => DeliveryOk.frame hf h
  | .unsubscribe _, h => RemovalOk.frame hf h

theorem TxnOk.frame (hf : Frame s s' p) (h : TxnOk s p x) : TxnOk s' p x where
  rows i v hv := hf.held _ _ (h.rows i v hv)
  snapshots y hy := (h.snapshots y hy).trans hf.registrationsNext
  changes := h.changes
  notices := h.notices
  inserted n hn := (h.inserted n hn).frame hf
  deleted seq hs := hf.held _ _ (h.deleted seq hs)
  role := h.role.frame hf

/-! ## Statements -/

theorem lookup_cons {α : Type*} {rows : List (ℕ × α)} {i j : ℕ} {v w : α}
    (h : ((i, v) :: rows).lookup j = some w) : (j = i ∧ w = v) ∨ (j ≠ i ∧ rows.lookup j = some w) := by
  by_cases hj : j = i
  · subst hj; rw [List.lookup_cons_self] at h; exact Or.inl ⟨rfl, (Option.some.inj h).symm⟩
  · rw [List.lookup_cons, beq_false_of_ne hj] at h; exact Or.inr ⟨hj, h⟩

theorem mem_noticesOf {snapshot : Table Registration} {a : Applied} {n : Notice} :
    n ∈ noticesOf snapshot a ↔ n.applied = a ∧ n.snapshot = snapshot ∧
      ∃ r, snapshot.get n.generation = some r ∧ r.selects a.type a.state = true := by
  simp only [noticesOf, List.mem_map, List.mem_filter, Prod.exists, Table.mem_entries]
  constructor
  · rintro ⟨g, r, ⟨hg, hs⟩, rfl⟩; exact ⟨rfl, rfl, r, hg, hs⟩
  · rintro ⟨rfl, rfl, r, hg, hs⟩; exact ⟨n.generation, r, ⟨hg, hs⟩, rfl⟩

theorem selects_congr {r r₀ : Registration} (hs : r₀.states = r.states) (ht : r₀.types = r.types) :
    r₀.selects = r.selects := by
  unfold Registration.selects
  rw [hs, ht]

/-- The caller's statements run here. -/
def Hosted (x : Txn) : Prop := x.role = .plain ∨ ∃ f, x.role = .pull f

theorem hosted_of_hosts (h : x.hosts = true) : Hosted x := by
  cases hr : x.role <;> simp_all [Txn.hosts, Hosted]

theorem hosted_of_isPlain (h : x.isPlain = true) : Hosted x := by
  cases hr : x.role <;> simp_all [Txn.isPlain, Hosted]

theorem TxnOk.hosted_of_notices (h : TxnOk s p x) (hn : x.notices ≠ []) : Hosted x := by
  have hrole := h.role
  cases hr : x.role with
  | plain => exact Or.inl hr
  | pull f => exact Or.inr ⟨f, hr⟩
  | chunk c => rw [hr] at hrole; exact absurd hrole.idle.2.2.1 hn
  | unsubscribe u => rw [hr] at hrole; exact absurd hrole.idle.2.2.2.1 hn

/-- Statements of a caller leave the registration of a delivery alone. -/
theorem RoleOk.hosted {y : Txn} (h : RoleOk s p x x.role) (hx : Hosted x) (hy : y.role = x.role)
    (hi : ∀ n ∈ y.inserted, n ∈ x.inserted ∨ n.2.origin.isTransition = true)
    (hd : y.deleted = x.deleted ∨ x.isPlain = true) : RoleOk s p y y.role := by
  rw [hy]
  rcases hx with hx | ⟨f, hx⟩ <;> rw [hx] at h ⊢
  · exact fun n hn => (hi n hn).elim (h n) id
  · have h : DeliveryOk s p x f := h
    refine { h with deleted := fun seq hs => ?_, inserted := fun n hn => (hi n hn).elim (h.inserted n) id }
    rcases hd with hd | hd
    · exact h.deleted seq (hd ▸ hs)
    · simp [Txn.isPlain, hx] at hd

/-- Writing a locked row under one of the transaction's snapshots. -/
theorem TxnOk.write (h : TxnOk s p x) (hx : Hosted x) {snapshot : Table Registration}
    (hs : snapshot ∈ x.snapshots) {i : TaskId} (hl : s.locks.Holds (.task i) p .update)
    (old : Option Row) (t : Row) (publishes : Bool) :
    TxnOk s p (x.write snapshot i old t publishes) where
  rows j v hv := by
    rcases lookup_cons hv with ⟨rfl, -⟩ | ⟨-, hv⟩
    · exact hl
    · exact h.rows j v hv
  snapshots := h.snapshots
  changes c hc := by
    simp only [Txn.write] at hc
    split at hc
    · exact h.changes c hc
    · rcases List.mem_append.mp hc with hc | hc
      · exact h.changes c hc
      · cases List.mem_singleton.mp hc; exact hs
  notices n hn := by
    simp only [Txn.write] at hn
    split at hn
    · rcases List.mem_append.mp hn with hn | hn
      · exact h.notices n hn
      · obtain ⟨-, rfl, r, hr, -⟩ := mem_noticesOf.mp hn
        exact Option.isSome_of_eq_some hr
    · exact h.notices n hn
  inserted := h.inserted
  deleted := h.deleted
  role := h.role.hosted hx rfl (fun _ hn => Or.inl hn) (Or.inl rfl)

theorem TxnOk.statement (h : TxnOk s p x) (ho : s.statement x = some o) :
    TxnOk (s.move p o) p o.txn := by
  obtain ⟨hg, ho⟩ := Option.ite_none_right_eq_some.mp ho
  rw [Bool.and_eq_true] at hg
  cases ho
  by_cases hk : x.repeatable && !x.snapshots.isEmpty
  · rw [if_pos hk]
    exact h.frame (frame_move s p p _)
  · rw [if_neg hk]
    have h' : TxnOk (s.move p ⟨{ x with snapshots := s.registrations :: x.snapshots }, [], 0, 0⟩) p x :=
      h.frame (frame_move s p p _)
    refine { h' with snapshots := fun y hy => ?_, changes := fun c hc => ?_, role := ?_ }
    · rcases List.mem_cons.mp hy with rfl | hy
      · exact Nat.le_refl _
      · exact h'.snapshots y hy
    · exact List.mem_cons_of_mem _ (h.changes c hc)
    · exact h'.role.hosted (hosted_of_hosts hg.1) rfl (fun _ hn => Or.inl hn) (Or.inl rfl)

theorem TxnOk.enqueue (h : TxnOk s p x) {task : NewTask} (ho : s.enqueue p x task = some o) :
    TxnOk (s.move p o) p o.txn := by
  have h' := h.frame (frame_move s p p o)
  simp only [Sys.enqueue] at ho
  split at ho
  · cases ho
  · rename_i snapshot rest hs
    obtain ⟨hg, ho⟩ := Option.ite_none_left_eq_some.mp ho
    simp only [Bool.not_eq_true', Bool.not_eq_false, Bool.and_eq_true] at hg
    split at ho
    · cases ho; exact h'
    · obtain ⟨-, ho⟩ := Option.ite_none_left_eq_some.mp ho
      cases ho
      exact h'.write (hosted_of_hosts hg.1) (by rw [hs]; exact List.mem_cons_self)
        (holds_move.mpr (Or.inl ⟨rfl, List.mem_cons_self⟩)) _ _ _

theorem TxnOk.transition (h : TxnOk s p x) {id : TaskId} {op : RowOp}
    (ho : s.transition p x id op = some o) : TxnOk (s.move p o) p o.txn := by
  have h' := h.frame (frame_move s p p o)
  simp only [Sys.transition] at ho
  split at ho
  · rename_i snapshot rest t hs _
    obtain ⟨hg, ho⟩ := Option.ite_none_right_eq_some.mp ho
    obtain ⟨t', -, rfl⟩ := Option.map_eq_some_iff.mp ho
    simp only [Bool.and_eq_true] at hg
    exact h'.write (hosted_of_isPlain hg.1.1.1) (by rw [hs]; exact List.mem_cons_self)
      (holds_move.mpr (Or.inl ⟨rfl, List.mem_cons_self⟩)) _ _ _
  · cases ho

theorem TxnOk.purgeTask (h : TxnOk s p x) {id : TaskId} {retentionS : ℚ}
    (ho : s.purgeTask p x id retentionS = some o) : TxnOk (s.move p o) p o.txn := by
  have h' := h.frame (frame_move s p p o)
  obtain ⟨t, -, ho⟩ := Option.bind_eq_some_iff.mp ho
  obtain ⟨hg, ho⟩ := Option.ite_none_right_eq_some.mp ho
  simp only [Bool.and_eq_true] at hg
  cases ho
  refine { h' with rows := fun j v hv => ?_, role := ?_ }
  · rcases lookup_cons hv with ⟨rfl, -⟩ | ⟨-, hv⟩
    · exact holds_move.mpr (Or.inl ⟨rfl, List.mem_cons_self⟩)
    · exact h'.rows j v hv
  · exact h'.role.hosted (hosted_of_isPlain hg.1.1) rfl (fun _ hn => Or.inl hn) (Or.inl rfl)

theorem TxnOk.purgeEvent (h : TxnOk s p x) {seq : Seq} {retentionS : ℚ}
    (ho : s.purgeEvent p x seq retentionS = some o) : TxnOk (s.move p o) p o.txn := by
  have h' := h.frame (frame_move s p p o)
  obtain ⟨n, -, ho⟩ := Option.bind_eq_some_iff.mp ho
  obtain ⟨hg, ho⟩ := Option.ite_none_right_eq_some.mp ho
  simp only [Bool.and_eq_true] at hg
  cases ho
  refine { h' with deleted := fun i hi => ?_, role := ?_ }
  · rcases List.mem_cons.mp hi with rfl | hi
    · exact holds_move.mpr (Or.inl ⟨rfl, List.mem_cons_self⟩)
    · exact h'.deleted i hi
  · exact h'.role.hosted (hosted_of_isPlain hg.1.1) rfl (fun _ hn => Or.inl hn) (Or.inr hg.1.1)

theorem TxnOk.publish (h : TxnOk s p x) (ho : s.publish p x = some o) :
    TxnOk (s.move p o) p o.txn := by
  have h' := h.frame (frame_move s p p o)
  simp only [Sys.publish] at ho
  split at ho
  · cases ho
  · rename_i n rest hn
    have hx : Hosted x := h.hosted_of_notices (by simp [hn])
    have hrest : ∀ m ∈ rest, (m.snapshot.get m.generation).isSome := fun m hm =>
      h.notices m (by rw [hn]; exact List.mem_cons_of_mem _ hm)
    split at ho
    · obtain ⟨-, ho⟩ := Option.ite_none_left_eq_some.mp ho
      cases ho
      exact { h' with
        notices := hrest
        role := h'.role.hosted hx rfl (fun _ hn => Or.inl hn) (Or.inl rfl) }
    · rename_i r hr
      obtain ⟨-, ho⟩ := Option.ite_none_right_eq_some.mp ho
      cases ho
      refine { h' with notices := hrest, inserted := fun m hm => ?_, role := ?_ }
      · rcases List.mem_append.mp hm with hm | hm
        · exact h'.inserted m hm
        · cases List.mem_singleton.mp hm
          exact
            { numbered := holds_move.mpr (Or.inl ⟨rfl, by simp⟩)
              secured := ⟨.keyShare, holds_move.mpr (Or.inl ⟨rfl, by simp⟩)⟩
              named := ⟨r, hr, rfl⟩
              admitted := h.notices n (by rw [hn]; exact List.mem_cons_self) }
      · refine h'.role.hosted hx rfl (fun m hm => ?_) (Or.inl rfl)
        rcases List.mem_append.mp hm with hm | hm
        · exact Or.inl hm
        · cases List.mem_singleton.mp hm
          exact Or.inr rfl

theorem TxnOk.fill (h : TxnOk s p x) {limit : ℕ} (ho : s.fill x limit = some o) :
    TxnOk (s.move p o) p o.txn := by
  have h' := h.frame (frame_move s p p o)
  have hrole := h'.role
  simp only [Sys.fill] at ho
  split at ho
  · rename_i c hc
    rw [hc] at hrole
    have hrole : ChunkOk (s.move p o) p x c := hrole
    obtain ⟨-, ho⟩ := Option.ite_none_right_eq_some.mp ho
    cases ho
    obtain ⟨r, hr, hname, hread⟩ := hrole.read
    refine { h' with inserted := fun n hn => ?_, role := ?_ }
    · obtain ⟨y, hy, rfl⟩ := List.mem_map.mp hn
      exact
        { numbered := holds_move.mpr (Or.inl ⟨rfl, List.mem_map.mpr ⟨y, hy, rfl⟩⟩)
          secured := ⟨_, hrole.held⟩
          named := ⟨r, hr, hname⟩
          admitted := rfl }
    · refine ⟨hrole.held, hrole.read, fun n hn => ?_, (fun hu => by cases hu), hrole.idle⟩
      obtain ⟨y, hy, rfl⟩ := List.mem_map.mp hn
      exact ⟨rfl, rfl⟩
  · cases ho

theorem TxnOk.ack (h : TxnOk s p x) (ho : Sys.ack x = some o) : TxnOk (s.move p o) p o.txn := by
  have h' := h.frame (frame_move s p p o)
  have hrole := h'.role
  simp only [Sys.ack] at ho
  split at ho
  · rename_i f hf
    rw [hf] at hrole
    have hrole : DeliveryOk (s.move p o) p x f := hrole
    obtain ⟨seqs, hb, ho⟩ := Option.bind_eq_some_iff.mp ho
    obtain ⟨-, ho⟩ := Option.ite_none_left_eq_some.mp ho
    cases ho
    refine { h' with deleted := fun seq hs => ?_, role := ?_ }
    · rcases List.mem_append.mp hs with hs | hs
      · exact (hrole.batch seqs hb seq hs).1
      · exact h'.deleted seq hs
    · refine ⟨hrole.held, hrole.named, hrole.batch, fun seq hs => ?_, hrole.inserted⟩
      rcases List.mem_append.mp hs with hs | hs
      · exact ⟨seqs, hb, hs⟩
      · exact hrole.deleted seq hs
  · cases ho

theorem TxnOk.dropRegistration (h : TxnOk s p x) (ho : s.dropRegistration p x = some o) :
    TxnOk (s.move p o) p o.txn := by
  have h' := h.frame (frame_move s p p o)
  have hrole := h'.role
  simp only [Sys.dropRegistration] at ho
  split at ho
  · rename_i u hu
    rw [hu] at hrole
    have hrole : RemovalOk (s.move p o) p x u := hrole
    obtain ⟨hd, ho⟩ := Option.ite_none_left_eq_some.mp ho
    have hunseen : ∀ seqs, u.visible ≠ some seqs := fun seqs hv => hd (hrole.visible seqs hv).1
    split at ho
    · cases ho
      exact { h' with
        role := ⟨hrole.idle, (fun g hg => by cases hg), (fun g _ hg => by cases hg),
          fun seqs hv => absurd hv (hunseen seqs)⟩ }
    · rename_i g hg
      obtain ⟨-, ho⟩ := Option.ite_none_right_eq_some.mp ho
      cases ho
      obtain ⟨ht, hlive⟩ := Option.filter_eq_some_iff.mp hg
      refine { h' with
        role := ⟨hrole.idle, hrole.target, fun g' _ hg' => ?_,
          fun seqs hv => absurd hv (hunseen seqs)⟩ }
      cases ht.symm.trans hg'
      obtain ⟨r, hr⟩ := Option.isSome_iff_exists.mp hlive
      exact ⟨holds_move.mpr (Or.inl ⟨rfl, List.mem_cons_self⟩), r, hr, (hrole.target g ht).2 r hr⟩
  · cases ho

/-! ## Registrations and events -/

/-- What holds in every reachable state: the locks are in order, names are unique, every committed event
belongs to a registration that is there, and every open transaction is in order. -/
structure Base (s : Sys) : Prop where
  locks : LocksOk s
  names : ∀ g g' name, Named s g name → Named s g' name → g = g'
  events : ∀ seq n, s.events.get seq = some n →
    Named s n.generation n.event.subscription ∧ n.origin.Admits n.generation
  txns : ∀ p x, s.txns.get p = some x → TxnOk s p x

theorem Named.unique {g : Generation} {name name' : Name} (h : Named s g name)
    (h' : Named s g name') : name = name' := by
  obtain ⟨r, hr, rfl⟩ := h
  obtain ⟨r', hr', rfl⟩ := h'
  rw [Option.some.inj (hr.symm.trans hr')]

theorem Base.fetch (hb : Base s) (h : TxnOk s p x) (ho : s.fetch p x = some o) :
    TxnOk (s.move p o) p o.txn := by
  have h' := h.frame (frame_move s p p o)
  have hrole := h'.role
  simp only [Sys.fetch] at ho
  split at ho
  · rename_i f hf
    rw [hf] at hrole
    have hrole : DeliveryOk (s.move p o) p x f := hrole
    obtain ⟨hg, ho⟩ := Option.ite_none_right_eq_some.mp ho
    simp only [Bool.and_eq_true, Option.isNone_iff_eq_none] at hg
    cases ho
    refine { h' with
      role := ⟨hrole.held, hrole.named, fun seqs hs seq hseq => ?_, fun seq hs => ?_,
        hrole.inserted⟩ }
    · cases hs
      refine ⟨holds_move.mpr (Or.inl ⟨rfl, List.mem_map.mpr ⟨seq, hseq, rfl⟩⟩), ?_⟩
      obtain ⟨⟨i, n⟩, he, rfl⟩ := List.mem_map.mp hseq
      obtain ⟨hmem, hn⟩ := List.mem_filter.mp (List.mem_of_mem_take he)
      simp only [Bool.and_eq_true, decide_eq_true_eq] at hn
      have hget := Table.mem_entries.mp hmem
      refine ⟨n, hget, hb.names _ _ f.name ?_ hrole.named⟩
      rw [← hn.1]
      exact (hb.events _ _ hget).1
    · obtain ⟨seqs, hb, -⟩ := hrole.deleted seq hs
      rw [hg.1] at hb; cases hb
  · cases ho

theorem Base.seeEvents (hb : Base s) (h : TxnOk s p x) (ho : s.seeEvents x = some o) :
    TxnOk (s.move p o) p o.txn := by
  have h' := h.frame (frame_move s p p o)
  have hrole := h'.role
  simp only [Sys.seeEvents] at ho
  split at ho
  · rename_i u hu
    rw [hu] at hrole
    have hrole : RemovalOk (s.move p o) p x u := hrole
    obtain ⟨hg, ho⟩ := Option.ite_none_right_eq_some.mp ho
    simp only [Bool.and_eq_true] at hg
    cases ho
    refine { h' with
      role := ⟨hrole.idle, hrole.target, hrole.held, fun seqs hs => ⟨hg.1, fun g hg' seq n hn hgn => ?_⟩⟩ }
    cases hs
    refine Or.inl (List.mem_map.mpr ⟨(seq, n), List.mem_filter.mpr
      ⟨Table.mem_entries.mpr hn, decide_eq_true ?_⟩, rfl⟩)
    have hnamed := (hb.events seq n hn).1
    rw [hgn] at hnamed
    exact hnamed.unique (hrole.held g hg.1 hg').2
  · cases ho

theorem TxnOk.dropEvent (h : TxnOk s p x) (ho : s.dropEvent p x = some o) :
    TxnOk (s.move p o) p o.txn := by
  have h' := h.frame (frame_move s p p o)
  have hrole := h'.role
  simp only [Sys.dropEvent] at ho
  split at ho
  · rename_i u hu
    rw [hu] at hrole
    have hrole : RemovalOk (s.move p o) p x u := hrole
    split at ho
    · rename_i seq rest hv
      obtain ⟨hd, hall⟩ := hrole.visible _ hv
      split at ho
      · rename_i hnone
        cases ho
        refine { h' with role := ⟨hrole.idle, hrole.target, hrole.held, fun seqs hs => ⟨hd, ?_⟩⟩ }
        cases hs
        intro g hg i n hn hgn
        rcases hall g hg i n hn hgn with hi | hi
        · rcases List.mem_cons.mp hi with rfl | hi
          · cases (Option.isNone_iff_eq_none.mp hnone).symm.trans hn
          · exact Or.inl hi
        · exact Or.inr hi
      · obtain ⟨-, ho⟩ := Option.ite_none_right_eq_some.mp ho
        cases ho
        refine { h' with
          deleted := fun i hi => ?_
          role := ⟨hrole.idle, hrole.target, hrole.held, fun seqs hs => ⟨hd, ?_⟩⟩ }
        · rcases List.mem_cons.mp hi with rfl | hi
          · exact holds_move.mpr (Or.inl ⟨rfl, List.mem_cons_self⟩)
          · exact h'.deleted i hi
        · cases hs
          intro g hg i n hn hgn
          rcases hall g hg i n hn hgn with hi | hi
          · rcases List.mem_cons.mp hi with rfl | hi
            · exact Or.inr List.mem_cons_self
            · exact Or.inl hi
          · exact Or.inr (List.mem_cons_of_mem _ hi)
    · cases ho
  · cases ho

theorem Base.act (hb : Base s) (hx : s.txns.get p = some x) (ho : s.act p x action = some o) :
    TxnOk (s.move p o) p o.txn := by
  have h := hb.txns p x hx
  cases action with
  | statement => exact h.statement ho
  | enqueue task => exact h.enqueue ho
  | transition id op => exact h.transition ho
  | purgeTask id retentionS => exact h.purgeTask ho
  | purgeEvent seq retentionS => exact h.purgeEvent ho
  | publish => exact h.publish ho
  | fill limit => exact h.fill ho
  | fetch => exact hb.fetch h ho
  | ack => exact h.ack ho
  | dropRegistration => exact h.dropRegistration ho
  | seeEvents => exact hb.seeEvents h ho
  | dropEvent => exact h.dropEvent ho

end Fronta.Feed
