import Fronta.Feed.Lemmas.Coverage

/-!
# Backfills in progress

The coverage of a registration's rows through every step: its chunks hand over to the marker that they
store, and a commit that did not see the registration meets a marker that is still fresh.
-/

namespace Fronta.Feed

open Runs Sql

variable {s s' : Sys} {p q : TxnId} {x : Txn} {o : Outcome} {g : Generation} {r r' : Registration}
  {w : Window} {marker : Option Marker} {action : Action}

/-- What a marker promises of its boundary. -/
def Bounded (w : Window) (marker : Option Marker) : Prop := ∀ m, marker = some m → m.since = w.since

structure Cov (w : Window) (r : Registration) (s : Sys) : Prop where
  bounded : Bounded w r.backfill
  fresh : ∀ p x, s.txns.get p = some x → x.misses w.generation = true →
    r.backfill = some (.fresh w.since r.states)
  rows : RowsCovered w r s s.ledger r.backfill
  txns : ∀ p x, s.txns.get p = some x → Tracks w.generation r x
  chunks : ∀ p x c next, s.txns.get p = some x → x.role = .chunk c →
    c.generation = w.generation → c.update = some next →
    RowsCovered w r s (s.ledger ++ x.inserted) next ∧ Bounded w next

/-! ## Steps without writes -/

/-- A transaction that has done nothing yet. -/
structure Blank (x : Txn) : Prop where
  snapshots : x.snapshots = []
  changes : x.changes = []
  unfilled : ∀ c, x.role = .chunk c → c.update = none

theorem Blank.tracks (h : Blank x) : Tracks g r x :=
  ⟨(fun y hy => by rw [h.snapshots] at hy; cases hy), fun c hc => by rw [h.changes] at hc; cases hc⟩

theorem Cov.carry (h : Cov w r s) (ht : s'.tasks.get = s.tasks.get) (hh : s'.history = s.history)
    (hl : s'.ledger = s.ledger)
    (hx : ∀ p x, s'.txns.get p = some x → Blank x ∨ s.txns.get p = some x) : Cov w r s' where
  bounded := h.bounded
  fresh p x hp hm := by
    rcases hx p x hp with hx | hx
    · rw [Txn.misses, hx.snapshots] at hm; cases hm
    · exact h.fresh p x hx hm
  rows := h.rows.mono (by rw [hl]; exact List.Subset.refl _) ht hh
  txns p x hp := (hx p x hp).elim Blank.tracks (h.txns p x)
  chunks p x c next hp hr hg hu := by
    rcases hx p x hp with hx | hx
    · rw [hx.unfilled c hr] at hu; cases hu
    · obtain ⟨hrows, hb⟩ := h.chunks p x c next hx hr hg hu
      exact ⟨hrows.mono (by rw [hl]; exact List.Subset.refl _) ht hh, hb⟩

theorem Cov.start (h : Cov w r s) (hx : Blank x) {locks : List (Target × Mode)} :
    Cov w r (s.start x locks) :=
  h.carry rfl rfl rfl fun _ _ hy => (get_start_cases hy).imp (fun he => by rw [he.2]; exact hx) id

theorem Cov.finish (h : Cov w r s) (p : TxnId) : Cov w r (s.finish p) :=
  h.carry rfl rfl rfl fun _ _ hy => Or.inr (get_finish.mp hy).1

theorem Cov.rollback (h : Cov w r s) (c : Consumer) : Cov w r (rolledBack s c) := by
  unfold rolledBack
  cases c.txn with
  | none => exact h
  | some q => exact h.finish q

/-! ## Statements -/

/-- The chunk of a transaction was there before its statement, or is what the statement has read. -/
theorem chunk_of_act {action : TxnAction} {c' : ChunkCall} (ho : s.act p x action = some o)
    (hc : o.txn.role = .chunk c') :
    (x.role = .chunk c' ∧ x.inserted ⊆ o.txn.inserted) ∨
    ∃ c limit, x.role = .chunk c ∧ 1 ≤ limit ∧
      c' = { c with update := some (chunk s.tasks c.types c.marker limit).2 } ∧
      o.txn.inserted = (chunk s.tasks c.types c.marker limit).1.zipIdx.map fun y =>
        (s.events.next + y.2,
          ⟨c.generation, (y.1.2.applied y.1.1).event c.name x.now, .backfill c.generation⟩) := by
  cases effect_of_act ho with
  | quiet he => exact Or.inl ⟨he.chunk c' hc, he.inserted ▸ List.Subset.refl _⟩
  | look _ he => rw [he] at hc ⊢; exact Or.inl ⟨hc, List.Subset.refl _⟩
  | insert _ he => rw [he] at hc ⊢; exact Or.inl ⟨hc, List.Subset.refl _⟩
  | update _ _ _ _ he => rw [he] at hc ⊢; exact Or.inl ⟨hc, List.Subset.refl _⟩
  | purge he => rw [he] at hc ⊢; exact Or.inl ⟨hc, List.Subset.refl _⟩
  | skip _ _ he => rw [he] at hc ⊢; exact Or.inl ⟨hc, List.Subset.refl _⟩
  | publish _ _ he => rw [he] at hc ⊢; exact Or.inl ⟨hc, List.subset_append_left _ _⟩
  | @fill c limit hr hl _ he =>
      rw [he] at hc ⊢
      cases hc
      exact Or.inr ⟨c, limit, hr, hl, rfl, rfl⟩

theorem listed_of_selects {t : Row} (h : r.selects t.type t.state = true) : listed r.types t = true :=
  (Bool.and_eq_true_iff.mp h).2

/-- A chunk inserts an event for every row that its next marker does not await any more. -/
theorem RowsCovered.fill {m : Marker} {limit first : ℕ} {name : Name} {now : Time} {origin : Origin}
    {L : List (Seq × Insertion)} (h : RowsCovered w r s L (some m)) (hs : m.since = w.since) :
    RowsCovered w r s (L ++ (chunk s.tasks r.types m limit).1.zipIdx.map fun y =>
      (first + y.2, ⟨w.generation, (y.1.2.applied y.1.1).event name now, origin⟩))
      (chunk s.tasks r.types m limit).2 := by
  intro i t hi hsel hd
  rcases h i t hi hsel hd with hcov | ⟨ha, hw⟩
  · exact Or.inl (hcov.mono (List.subset_append_left _ _))
  · cases hn : awaits (chunk s.tasks r.types m limit).2 t.state i with
    | true => exact Or.inr ⟨rfl, hw⟩
    | false =>
        have hm := mem_chunk.mpr ⟨hi, listed_of_selects hsel, hs ▸ hw, ha, hn⟩
        rw [← List.zipIdx_map_fst 0 (chunk s.tasks r.types m limit).1] at hm
        obtain ⟨y, hy, he⟩ := List.mem_map.mp hm
        refine Or.inl ⟨_, List.mem_append_right _ (List.mem_map_of_mem hy), rfl, ?_⟩
        rw [he]
        rfl

theorem Cov.move (hb : Base s) (h : Cov w r s) (hr : s.registrations.get w.generation = some r)
    (hx : s.txns.get p = some x) {action : TxnAction} (ho : s.act p x action = some o) :
    Cov w r (s.move p o) where
  bounded := h.bounded
  fresh q y hy hm := by
    rcases get_move_cases hy with ⟨rfl, rfl⟩ | ⟨-, hy⟩
    · exact h.fresh _ x hx (misses_of_act hr ho hm)
    · exact h.fresh q y hy hm
  rows := h.rows.mono (List.Subset.refl _) rfl rfl
  txns q y hy := by
    rcases get_move_cases hy with ⟨rfl, rfl⟩ | ⟨-, hy⟩
    · exact (h.txns _ x hx).act hb hr hx ho
    · exact h.txns q y hy
  chunks q y c next hy hc hg hu := by
    rcases get_move_cases hy with ⟨rfl, rfl⟩ | ⟨-, hy⟩
    · rcases chunk_of_act ho hc with ⟨hxc, hsub⟩ | ⟨c₀, limit, hxc, -, rfl, hins⟩
      · obtain ⟨hrows, hbd⟩ := h.chunks _ x c next hx hxc hg hu
        exact ⟨hrows.mono (List.append_subset.mpr ⟨List.subset_append_left _ _,
          fun _ hn => List.mem_append_right _ (hsub hn)⟩) rfl rfl, hbd⟩
      · -- the chunk has read the marker of the registration under its lock
        have hrole := (hb.txns _ x hx).role
        rw [hxc] at hrole
        obtain ⟨r₀, hr₀, -, htypes, hmark⟩ := (show ChunkOk s _ x c₀ from hrole).read
        dsimp only at hg hu
        rw [hg, hr] at hr₀
        cases hr₀
        cases hu
        have hsince := h.bounded _ hmark
        have hrows := h.rows
        rw [hmark] at hrows
        rw [hins, hg, ← htypes]
        exact ⟨(hrows.fill hsince).mono (List.Subset.refl _) rfl rfl,
          fun m hm => (since_chunk hm).trans hsince⟩
    · obtain ⟨hrows, hbd⟩ := h.chunks q y c next hy hc hg hu
      exact ⟨hrows.mono (List.Subset.refl _) rfl rfl, hbd⟩

/-! ## Commits -/

theorem timely_of (h : s.timely w (.commit p) = true) (hx : s.txns.get p = some x)
    (hr : s.registrations.get w.generation = some r) : Timely w r x := by
  intro c hc hsnap hsel hterm b hb
  simp only [Sys.timely, hx, hr, Option.all_some, List.all_eq_true] at h
  have := h c hc
  simp only [hsnap, hsel, hterm, hb, Option.isSome_none, Option.all_some, Bool.not_true,
    Bool.false_or, decide_eq_true_eq] at this
  exact this

theorem RowsCovered.congr {L : List (Seq × Insertion)} (h : RowsCovered w r s L marker)
    (hs : r'.states = r.states) (ht : r'.types = r.types) : RowsCovered w r' s L marker :=
  fun i t hi hsel hd => h i t hi (by rwa [← selects_congr hs ht]) hd

theorem Tracks.congr (h : Tracks g r x) (hs : r'.states = r.states) (ht : r'.types = r.types) :
    Tracks g r' x :=
  ⟨fun y hy r₀ hr₀ => by rw [hs, ht]; exact h.filters y hy r₀ hr₀,
    fun c hc hsel => h.announced c hc (by rwa [← selects_congr hs ht])⟩

/-- A commit of another transaction's writes. -/
theorem Cov.commit_other (hb : Base s) (hi : RowsInv s) (hbar : Barrier s w.generation)
    (h : Cov w r s) (hx : s.txns.get p = some x) (hc : x.complete = true) (ht : Timely w r x) :
    Cov w r (s.commit p x) := by
  have hn : x.notices = [] := List.isEmpty_iff.mp (Bool.and_eq_true_iff.mp hc).1
  have hcommit : ∀ {L L' : List (Seq × Insertion)} {marker}, RowsCovered w r s L marker →
      (x.misses w.generation = true → marker = some (.fresh w.since r.states)) →
      L ⊆ L' → x.inserted ⊆ L' → RowsCovered w r (s.commit p x) L' marker :=
    fun hrows hm hL hins =>
      hrows.commit (hb.txns p x hx) (hi p x hx) (h.txns p x hx) hn hm ht hL hins
  refine ⟨h.bounded, fun q y hy => h.fresh q y (get_finish.mp hy).1, ?_,
    fun q y hy => h.txns q y (get_finish.mp hy).1, fun q y c next hy hrole hg hu => ?_⟩
  · exact hcommit h.rows (h.fresh p x hx) (List.subset_append_left _ _) (List.subset_append_right _ _)
  · obtain ⟨hy, -⟩ := get_finish.mp hy
    obtain ⟨hrows, hbd⟩ := h.chunks q y c next hy hrole hg hu
    refine ⟨hcommit hrows (fun hm => ?_) ?_ ?_, hbd⟩
    · rw [hbar.chunks q y hy (by rw [hrole]; exact decide_eq_true hg) p x hx] at hm
      cases hm
    · refine List.append_subset.mpr ⟨?_, List.subset_append_right _ _⟩
      exact fun _ hn => List.mem_append_left _ (List.mem_append_left _ hn)
    · exact fun _ hn => List.mem_append_left _ (List.mem_append_right _ hn)

/-- The registration after a chunk of its own has committed. -/
theorem settle_own (hb : Base s) (hr : s.registrations.get g = some r) (hx : s.txns.get p = some x)
    {c : ChunkCall} (hrole : x.role = .chunk c) (hg : c.generation = g) {next : Option Marker}
    (hu : c.update = some next) :
    (Sys.settle s.registrations x.role).get g = some { r with backfill := next } := by
  have hok := (hb.txns p x hx).role
  rw [hrole] at hok
  obtain ⟨r₀, hr₀, hname, -⟩ := (show ChunkOk s p x c from hok).read
  rw [hg, hr] at hr₀
  cases hr₀
  simp [hrole, Sys.settle, hu, Table.get_update, hr, hname]

theorem Cov.commit_own (hb : Base s) (hi : RowsInv s) (hbar : Barrier s w.generation)
    (h : Cov w r s) (hx : s.txns.get p = some x) {c : ChunkCall}
    (hrole : x.role = .chunk c) (hg : c.generation = w.generation) {next : Option Marker}
    (hu : c.update = some next) : Cov w { r with backfill := next } (s.commit p x) := by
  have hok := hb.txns p x hx
  have hchunk := hok.role
  rw [hrole] at hchunk
  have hchunk : ChunkOk s p x c := hchunk
  have hclear := hbar.chunks p x hx (by rw [hrole]; exact decide_eq_true hg)
  have hn : x.notices = [] := hchunk.idle.2.2.1
  obtain ⟨hrows, hbd⟩ := h.chunks p x c next hx hrole hg hu
  refine ⟨hbd, fun q y hy hm => ?_, ?_, fun q y hy => (h.txns q y (get_finish.mp hy).1).congr rfl rfl,
    fun q y c' next' hy hrole' hg' hu' => ?_⟩
  · rw [hclear q y (get_finish.mp hy).1] at hm; cases hm
  · refine RowsCovered.congr (r := r) ?_ rfl rfl
    refine hrows.commit hok (hi p x hx) (h.txns p x hx) hn (fun hm => ?_) ?_ (List.Subset.refl _)
      (List.subset_append_right _ _)
    · rw [hclear p x hx] at hm; cases hm
    · intro c' hc'
      rw [hchunk.idle.2.1] at hc'; cases hc'
  · -- two chunks of one registration never run at the same time
    obtain ⟨hy, hq⟩ := get_finish.mp hy
    have hok' := (hb.txns q y hy).role
    rw [hrole'] at hok'
    have hheld' := (show ChunkOk s q y c' from hok').held
    have hheld := hchunk.held
    rw [hg] at hheld
    rw [hg'] at hheld'
    exact absurd (hb.locks.sound.eq_of_conflict hheld' hheld rfl) hq

theorem Cov.commit (hb : Base s) (hi : RowsInv s) (hbar : Barrier s w.generation) (h : Cov w r s)
    (hr : s.registrations.get w.generation = some r) (hx : s.txns.get p = some x)
    (hc : x.complete = true) (ht : s.timely w (.commit p) = true)
    (hr' : (s.commit p x).registrations.get w.generation = some r') : Cov w r' (s.commit p x) := by
  have hr' : (Sys.settle s.registrations x.role).get w.generation = some r' := hr'
  by_cases hown : ∃ c, x.role = .chunk c ∧ c.generation = w.generation
  · obtain ⟨c, hrole, hg⟩ := hown
    have hu : c.update.isSome = true := by
      simp only [Txn.complete, hrole, Bool.and_eq_true] at hc
      exact hc.2
    obtain ⟨next, hu⟩ := Option.isSome_iff_exists.mp hu
    rw [settle_own hb hr hx hrole hg hu] at hr'
    cases hr'
    exact h.commit_own hb hi hbar hx hrole hg hu
  · have hkept : s.registrations.get w.generation = some r' := by
      rw [← hr']
      refine (hb.settle_other hx (fun c hrole hg => hown ⟨c, hrole, hg⟩) fun u hu hg => ?_).symm
      rw [hu] at hr'
      simp [Sys.settle, Table.get_erase, hg] at hr'
    cases hr.symm.trans hkept
    exact h.commit_other hb hi hbar hx hc (timely_of ht hx hr)

/-! ## Registrations -/

variable {name : Name} {states : List State} {types : Option (List Name)} {batchSize : ℕ}
  {since : Option Time} {v : Window}

/-- A new registration has a fresh marker, and no open transaction has seen it. -/
theorem cov_create (hb : Base s) (hg : w.generation = s.registrations.next)
    (hm : w.mark = s.history.length) :
    Cov w ⟨name, states, types, some (.fresh w.since states)⟩
      (s.create name states types (some (.fresh w.since states)) batchSize) where
  bounded m h := by cases h; rfl
  fresh _ _ _ _ := rfl
  rows i t hi hsel hd := by
    refine Or.inr ⟨?_, hd.resolve_right ?_⟩
    · rw [awaits_fresh (Table.pos_of_get hi)]
      simp only [Registration.selects, Bool.and_eq_true, List.contains_iff_mem] at hsel
      exact decide_eq_true hsel.1
    · rintro ⟨c, hc, -⟩
      rw [hm, show (s.create name states types _ batchSize).history = s.history from rfl,
        List.drop_length] at hc
      cases hc
  txns p x hx := by
    have hunseen : ∀ y ∈ x.snapshots, y.get w.generation = none := fun y hy =>
      Table.get_of_le _ (hg ▸ (hb.txns p x hx).snapshots y hy)
    refine ⟨fun y hy r₀ hr₀ => ?_, fun c hc _ => Or.inl (hunseen _ ((hb.txns p x hx).changes c hc))⟩
    rw [hunseen y hy] at hr₀; cases hr₀
  chunks p x c next hx hrole hgc _ := by
    have hok := (hb.txns p x hx).role
    rw [hrole] at hok
    obtain ⟨r₀, hr₀, -⟩ := (show ChunkOk s p x c from hok).read
    exact absurd (Table.lt_of_get hr₀) (by rw [hgc, hg]; exact Nat.lt_irrefl _)

theorem barrier_create (hb : Base s) (hbd : Bound s) {marker : Option Marker} :
    Barrier (s.create name states types marker batchSize) s.registrations.next where
  phases k c hc hg := by
    rcases Table.get_insert_cases hc with ⟨-, rfl⟩ | hc
    · dsimp only
      split <;> exact True.intro
    · exact absurd (hbd.generation k c hc) (by rw [hg]; exact Nat.lt_irrefl _)
  chunks p x hx hf := by
    have hok := (hb.txns p x hx).role
    cases hrole : x.role with
    | chunk c =>
        rw [hrole] at hok hf
        obtain ⟨r₀, hr₀, -⟩ := (show ChunkOk s p x c from hok).read
        have hg : c.generation = s.registrations.next := of_decide_eq_true hf
        exact absurd (Table.lt_of_get hr₀) (by rw [hg]; exact Nat.lt_irrefl _)
    | _ => rw [hrole] at hf; cases hf

/-- Every step that leaves the filters as they are carries the coverage. -/
theorem Cov.step (hb : Base s) (hi : RowsInv s) (hbar : Barrier s w.generation) (h : Cov w r s)
    (hr : s.registrations.get w.generation = some r) (hs : Steps s action s')
    (hst : s.steady w.generation action = true) (ht : s.timely w action = true)
    (hr' : s'.registrations.get w.generation = some r') : Cov w r' s' := by
  have hsame : s'.registrations = s.registrations → r' = r := fun he =>
    Option.some.inj ((he ▸ hr').symm.trans hr)
  cases hs with
  | begin => exact hsame rfl ▸ h.start ⟨rfl, rfl, fun c hc => by cases hc⟩
  | within hx ho => exact hsame rfl ▸ h.move hb hr hx ho
  | commit hx hc => exact h.commit hb hi hbar hr hx hc ht hr'
  | rollback => exact hsame rfl ▸ h.finish _
  | create =>
      have hr₁ := hr'.symm.trans (Table.get_insert_of_get hr)
      cases hr₁
      exact h.carry rfl rfl rfl fun _ _ hx => Or.inr hx
  | @refilter name states types backfill batchSize clock g r₀ hr₀ hname _ =>
      rw [get_refilter] at hr'
      split at hr'
      · rename_i hg
        subst hg
        cases hr₀.symm.trans hr
        -- the filters that are written are those that were there
        simp only [Sys.steady, hr, Option.all_some, hname, ne_eq, not_true_eq_false, decide_false,
          Bool.false_or, Bool.and_eq_true, decide_eq_true_eq] at hst
        rw [hr, Option.map_some, hst.1, hst.2] at hr'
        cases hr'
        exact h.carry rfl rfl rfl fun _ _ hx => Or.inr hx
      · cases hr.symm.trans hr'
        exact h.carry rfl rfl rfl fun _ _ hx => Or.inr hx
  | enter => exact hsame rfl ▸ h.carry rfl rfl rfl fun _ _ hx => Or.inr hx
  | same => exact hsame rfl ▸ h
  | chunk => exact hsame rfl ▸ h.start ⟨rfl, rfl, fun c hc => by cases hc; rfl⟩
  | @refuse k now c =>
      have he : (rolledBack s c).registrations = s.registrations := by
        unfold rolledBack
        cases c.txn <;> rfl
      exact hsame he ▸ (h.rollback c).carry rfl rfl rfl fun _ _ hx => Or.inr hx
  | @pull k now c =>
      have he : (rolledBack s c).registrations = s.registrations := by
        unfold rolledBack
        cases c.txn <;> rfl
      have hentered : Cov w r ((rolledBack s c).enter k .ready (some (rolledBack s c).txns.next)) :=
        (h.rollback c).carry rfl rfl rfl fun _ _ hx => Or.inr hx
      exact hsame he ▸ hentered.start ⟨rfl, rfl, fun c hc => by cases hc⟩
  | unsubscribe => exact hsame rfl ▸ h.start ⟨rfl, rfl, fun c hc => by cases hc⟩
  | leave => exact hsame rfl ▸ h.carry rfl rfl rfl fun _ _ hx => Or.inr hx
  | setPaused => exact hsame rfl ▸ h.carry rfl rfl rfl fun _ _ hx => Or.inr hx

/-! ## Runs -/

/-- The system and the window of one registration. -/
structure Windowed (w : Window) (s : Sys) : Prop where
  base : Base s
  bound : Bound s
  rows : RowsInv s
  known : ∀ v ∈ s.windows, v.generation < s.registrations.next
  covered : w ∈ s.windows → ∀ r, s.registrations.get w.generation = some r →
    Barrier s w.generation ∧ Cov w r s

theorem windowed_init {catalog : Catalog} : Windowed w (Sys.init catalog) :=
  ⟨base_init, bound_init, (fun _ _ h => by cases h), (fun _ h => by cases h), fun h => by cases h⟩

/-- Only a new registration has a new window, and an id once given out is not given out again. -/
theorem windows_step (h : Steps s action s') :
    s.registrations.next ≤ s'.registrations.next ∧
    (s'.windows = s.windows ∧
      (∀ g < s.registrations.next, ∀ r', s'.registrations.get g = some r' →
        ∃ r, s.registrations.get g = some r) ∨
      ∃ name states types batchSize, ∃ bounds : Option (Option Time), s' =
        s.create name states types (bounds.map fun since => .fresh since states) batchSize) := by
  have hsame : s'.registrations = s.registrations → s'.windows = s.windows →
      s.registrations.next ≤ s'.registrations.next ∧ s'.windows = s.windows ∧
        ∀ g < s.registrations.next, ∀ r', s'.registrations.get g = some r' →
          ∃ r, s.registrations.get g = some r := fun hr hw =>
    ⟨hr ▸ Nat.le_refl _, hw, fun g _ r' hg => ⟨r', hr ▸ hg⟩⟩
  cases h with
  | commit =>
      refine ⟨settle_next.ge, Or.inl ⟨rfl, fun g _ r' hr' => ?_⟩⟩
      obtain ⟨r, hr, -⟩ := settle_origin hr'
      exact ⟨r, hr⟩
  | @create name states types backfill batchSize clock =>
      refine ⟨Nat.le_succ _, Or.inr ⟨name, states, types, batchSize,
        backfill.map fun window => window.map fun seconds => clock - seconds, ?_⟩⟩
      rw [Option.map_map]
      rfl
  | refilter =>
      refine ⟨Nat.le_refl _, Or.inl ⟨rfl, fun g _ r' hr' => ?_⟩⟩
      rcases Table.get_modify_cases hr' with ⟨-, hr⟩ | ⟨rfl, r, hr, -⟩
      · exact ⟨r', hr⟩
      · exact ⟨r, hr⟩
  | @refuse k now c =>
      refine (hsame ?_ ?_).imp_right Or.inl <;> unfold rolledBack <;> cases c.txn <;> rfl
  | @pull k now c =>
      refine (hsame ?_ ?_).imp_right Or.inl <;> unfold rolledBack <;> cases c.txn <;> rfl
  | _ => exact (hsame rfl rfl).imp_right Or.inl

theorem registered_before (hs : Steps s action s') (hg : g < s.registrations.next)
    (hr' : s'.registrations.get g = some r') : ∃ r, s.registrations.get g = some r := by
  obtain ⟨-, ⟨-, hold⟩ | ⟨name, states, types, batchSize, bounds, rfl⟩⟩ := windows_step hs
  · exact hold g hg r' hr'
  · rcases Table.get_insert_cases hr' with ⟨rfl, -⟩ | hr
    · exact absurd hg (Nat.lt_irrefl _)
    · exact ⟨r', hr⟩

theorem Windowed.step (h : Windowed w s) (hs : Steps s action s')
    (hst : s.steady w.generation action = true) (ht : s.timely w action = true) :
    Windowed w s' := by
  obtain ⟨hle, hw⟩ := windows_step hs
  refine ⟨h.base.step hs, h.bound.step hs, h.rows.step h.base hs, ?_, fun hmem r' hr' => ?_⟩
  · rcases hw with ⟨he, -⟩ | ⟨name, states, types, batchSize, bounds, rfl⟩
    · exact fun v hv => (h.known v (he ▸ hv)).trans_le hle
    · intro v hv
      rcases List.mem_append.mp hv with hv | hv
      · exact (h.known v hv).trans_le hle
      · obtain ⟨m, -, rfl⟩ := Option.map_eq_some_iff.mp (Option.mem_toList.mp hv)
        exact Nat.lt_succ_self _
  · have hcarry : w ∈ s.windows → ∀ r, s.registrations.get w.generation = some r →
        Barrier s' w.generation ∧ Cov w r' s' := fun hmem r hr => by
      obtain ⟨hbar, hcov⟩ := h.covered hmem r hr
      exact ⟨hbar.step hr hs, hcov.step h.base h.rows hbar hr hs hst ht hr'⟩
    have hknown : w ∈ s.windows → Barrier s' w.generation ∧ Cov w r' s' := fun hmem => by
      obtain ⟨r, hr⟩ := registered_before hs (h.known w hmem) hr'
      exact hcarry hmem r hr
    rcases hw with ⟨he, -⟩ | ⟨name, states, types, batchSize, bounds, rfl⟩
    · exact hknown (he ▸ hmem)
    · rcases List.mem_append.mp hmem with hmem | hmem
      · exact hknown hmem
      · obtain ⟨m, hm, rfl⟩ := Option.map_eq_some_iff.mp (Option.mem_toList.mp hmem)
        obtain ⟨since, -, rfl⟩ := Option.map_eq_some_iff.mp hm
        dsimp only at hr' ⊢
        cases hr'.symm.trans Table.get_insert_self
        rw [hm]
        exact ⟨barrier_create h.base h.bound, cov_create h.base rfl rfl⟩

/-! ## After the backfill -/

/-- While the filters are left as they are, a step changes nothing of a registration but its marker. -/
theorem filters_step (hs : Steps s action s') (hst : s.steady g action = true)
    (hr : s.registrations.get g = some r) (hr' : s'.registrations.get g = some r') :
    r'.states = r.states ∧ r'.types = r.types := by
  have hsame : s'.registrations = s.registrations → r'.states = r.states ∧ r'.types = r.types := by
    intro he
    cases hr.symm.trans (he ▸ hr')
    exact ⟨rfl, rfl⟩
  cases hs with
  | commit =>
      obtain ⟨r₀, hr₀, -, hstates, htypes⟩ := settle_origin hr'
      cases hr.symm.trans hr₀
      exact ⟨hstates.symm, htypes.symm⟩
  | create =>
      cases (Table.get_insert_of_get hr).symm.trans hr'
      exact ⟨rfl, rfl⟩
  | @refilter name states types backfill batchSize clock g' r₀ hr₀ hname _ =>
      rw [get_refilter] at hr'
      split at hr'
      · rename_i hg
        subst hg
        cases hr₀.symm.trans hr
        rw [hr, Option.map_some] at hr'
        cases hr'
        simpa [Sys.steady, hr, hname] using hst
      · cases hr.symm.trans hr'
        exact ⟨rfl, rfl⟩
  | @refuse k now c => exact hsame (by unfold rolledBack; cases c.txn <;> rfl)
  | @pull k now c => exact hsame (by unfold rolledBack; cases c.txn <;> rfl)
  | _ => exact hsame rfl

theorem cleared_step (hb : Base s) (hs : Steps s action s') (hr : s.registrations.get g = some r)
    (hr' : s'.registrations.get g = some r') (hc : r.backfill = none) : r'.backfill = none := by
  by_contra hn
  obtain ⟨p, x, c, -, hx, hrole, hg⟩ := marker_step hb hs hr hr' (by rw [hc]; exact hn)
  have hok := (hb.txns p x hx).role
  rw [hrole] at hok
  obtain ⟨r₀, hr₀, -, -, hm⟩ := (show ChunkOk s p x c from hok).read
  rw [hg, hr] at hr₀
  cases hr₀
  rw [hc] at hm; cases hm

/-- The history and the ledger grow by commits only. -/
theorem recorded_step (hs : Steps s action s') :
    (s'.history = s.history ∧ s'.ledger = s.ledger) ∨
      ∃ p x, action = .commit p ∧ s.txns.get p = some x ∧ x.complete = true ∧ s' = s.commit p x := by
  cases hs with
  | commit hx hc => exact Or.inr ⟨_, _, rfl, hx, hc, rfl⟩
  | @refuse k now c =>
      refine Or.inl ⟨?_, ?_⟩ <;> unfold rolledBack <;> cases c.txn <;> rfl
  | @pull k now c =>
      refine Or.inl ⟨?_, ?_⟩ <;> unfold rolledBack <;> cases c.txn <;> rfl
  | _ => exact Or.inl ⟨rfl, rfl⟩

theorem Cov.clear (h : Cov w r s) (hc : r.backfill = none) : Clear s w.generation := by
  intro p x hx
  by_contra hm
  have := h.fresh p x hx (Bool.not_eq_false _ ▸ hm)
  rw [hc] at this; cases this

theorem TxnOk.seen (h : TxnOk s p x) (hm : x.misses g = false) {c : Change} (hc : c ∈ x.changes) :
    c.snapshot.get g ≠ none := by
  intro hn
  have : x.misses g = true := List.any_eq_true.mpr ⟨c.snapshot, h.changes c hc, by rw [hn]; rfl⟩
  rw [hm] at this; cases this

theorem windows_mono (hs : Steps s action s') (hw : w ∈ s.windows) : w ∈ s'.windows := by
  obtain ⟨-, ⟨he, -⟩ | ⟨name, states, types, batchSize, bounds, rfl⟩⟩ := windows_step hs
  · exact he ▸ hw
  · exact List.mem_append_left _ hw

theorem timely_of_none (h : s.registrations.get w.generation = none) :
    s.timely w action = true := by
  cases action with
  | commit p =>
      simp only [Sys.timely, h, Option.all_none]
      cases s.txns.get p <;> rfl
  | _ => rfl

theorem Cov.timely (hb : Base s) (h : Cov w r s) (hc : r.backfill = none)
    (hr : s.registrations.get w.generation = some r) (action : Action) :
    s.timely w action = true := by
  cases action with
  | commit p =>
      simp only [Sys.timely, hr, Option.all_some]
      cases hx : s.txns.get p with
      | none => rfl
      | some x =>
          refine List.all_eq_true.mpr fun c hmem => ?_
          have := (hb.txns p x hx).seen (h.clear hc p x hx) hmem
          simp [Option.isSome_iff_ne_none.mpr this]
  | _ => rfl

/-- What has happened since the marker of a registration was seen cleared in `s₀`. -/
structure Filled (w : Window) (s₀ s : Sys) (r : Registration) : Prop where
  cleared : r.backfill = none
  appended : ∃ changes events, s.history = s₀.history ++ changes ∧ s.ledger = s₀.ledger ++ events ∧
    ∀ c ∈ changes, r.selects c.applied.type c.applied.state = true →
      Covers s.ledger w.generation c.applied

theorem Filled.step {s₀ : Sys} (h : Filled w s₀ s r) (hb : Base s) (hcov : Cov w r s)
    (hr : s.registrations.get w.generation = some r) (hs : Steps s action s')
    (hst : s.steady w.generation action = true)
    (hr' : s'.registrations.get w.generation = some r') : Filled w s₀ s' r' := by
  obtain ⟨hstates, htypes⟩ := filters_step hs hst hr hr'
  obtain ⟨changes, events, hh, hl, hall⟩ := h.appended
  refine ⟨cleared_step hb hs hr hr' h.cleared, ?_⟩
  rcases recorded_step hs with ⟨hh', hl'⟩ | ⟨p, x, -, hx, hc, rfl⟩
  · refine ⟨changes, events, hh'.trans hh, hl'.trans hl, fun c hc hsel => ?_⟩
    rw [hl']
    exact hall c hc (by rwa [← selects_congr hstates htypes])
  · refine ⟨changes ++ x.changes, events ++ x.inserted, ?_, ?_, fun c hmem hsel => ?_⟩
    · rw [Sys.commit, hh, List.append_assoc]
    · rw [Sys.commit, hl, List.append_assoc]
    rw [selects_congr hstates htypes] at hsel
    rcases List.mem_append.mp hmem with hmem | hmem
    · exact (hall c hmem hsel).mono (List.subset_append_left _ _)
    · -- a change that the transaction saw the registration for is inserted when it commits
      rcases (hcov.txns p x hx).announced c hmem hsel with hu | hins | ⟨n, hn, -⟩
      · exact absurd hu ((hb.txns p x hx).seen (hcov.clear h.cleared p x hx) hmem)
      · exact hins.mono (List.subset_append_right _ _)
      · rw [List.isEmpty_iff.mp (Bool.and_eq_true_iff.mp hc).1] at hn
        cases hn

/-- What holds from the moment when the marker was seen cleared. -/
structure FilledSince (w : Window) (r₀ : Registration) (s₀ s : Sys) : Prop where
  windowed : Windowed w s
  known : w ∈ s.windows
  filled : ∀ r, s.registrations.get w.generation = some r →
    Filled w s₀ s r ∧ r.states = r₀.states ∧ r.types = r₀.types

theorem FilledSince.step {s₀ : Sys} {r₀ : Registration} (h : FilledSince w r₀ s₀ s)
    (hs : Steps s action s') (hst : s.steady w.generation action = true) :
    FilledSince w r₀ s₀ s' := by
  have ht : s.timely w action = true := by
    cases hg : s.registrations.get w.generation with
    | none => exact timely_of_none hg
    | some r =>
        obtain ⟨-, hcov⟩ := h.windowed.covered h.known r hg
        exact hcov.timely h.windowed.base (h.filled r hg).1.cleared hg action
  refine ⟨h.windowed.step hs hst ht, windows_mono hs h.known, fun r' hr' => ?_⟩
  obtain ⟨r, hr⟩ := registered_before hs (h.windowed.known w h.known) hr'
  obtain ⟨hf, hstates, htypes⟩ := h.filled r hr
  obtain ⟨-, hcov⟩ := h.windowed.covered h.known r hr
  obtain ⟨hstates', htypes'⟩ := filters_step hs hst hr hr'
  exact ⟨hf.step h.windowed.base hcov hr hs hst hr', hstates'.trans hstates, htypes'.trans htypes⟩

end Fronta.Feed
