import Fronta.Feed.Lemmas.Barrier
import Fronta.Feed.Lemmas.Chunk
import Fronta.Feed.Lemmas.Rows

/-!
# What a backfill has covered

The rows that a registration owes an event are told of in the ledger, or its marker still awaits them. A
transition that did not see the registration keeps the marker fresh until it commits.
-/

namespace Fronta.Feed

open Runs Sql

variable {s s' : Sys} {p q : TxnId} {x : Txn} {o : Outcome} {action : TxnAction} {g : Generation}
  {r : Registration} {w : Window} {i : TaskId} {t : Row} {marker : Option Marker}
  {L L' : List (Seq × Insertion)}

theorem Covers.mono {a : Applied} (hL : L ⊆ L') (h : Covers L g a) : Covers L' g a := by
  obtain ⟨n, hn, hg, ha⟩ := h
  exact ⟨n, hL hn, hg, ha⟩

/-! ## Transactions -/

/-- A change that the filters select was not seen, is told of, or will be. -/
structure Tracks (g : Generation) (r : Registration) (x : Txn) : Prop where
  filters : ∀ snapshot ∈ x.snapshots, ∀ r₀, snapshot.get g = some r₀ →
    r₀.states = r.states ∧ r₀.types = r.types
  announced : ∀ c ∈ x.changes, r.selects c.applied.type c.applied.state = true →
    c.snapshot.get g = none ∨ Covers x.inserted g c.applied ∨
      ∃ n ∈ x.notices, n.generation = g ∧ n.applied = c.applied

theorem Tracks.write (h : Tracks g r x) {snapshot : Table Registration} (hs : snapshot ∈ x.snapshots)
    {old : Option Row} {publishes : Bool}
    (hp : publishes = !old.any fun t₀ => t₀.state = t.state) :
    Tracks g r (x.write snapshot i old t publishes) where
  filters := h.filters
  announced c hc hsel := by
    have hmono : ∀ n ∈ x.notices, n ∈ (x.write snapshot i old t publishes).notices := by
      intro n hn
      simp only [Txn.write]
      split
      · exact List.mem_append_left _ hn
      · exact hn
    have hknown : c ∈ x.changes → c.snapshot.get g = none ∨ Covers x.inserted g c.applied ∨
        ∃ n ∈ (x.write snapshot i old t publishes).notices,
          n.generation = g ∧ n.applied = c.applied := by
      intro hc
      refine (h.announced c hc hsel).imp_right fun ha => ha.imp_right ?_
      rintro ⟨n, hn, hg, ha⟩
      exact ⟨n, hmono n hn, hg, ha⟩
    cases hold : old.any fun t₀ => t₀.state = t.state with
    | true => exact hknown (by simpa [Txn.write, hold] using hc)
    | false =>
        simp only [Txn.write, hold, if_neg Bool.false_ne_true] at hc
        rcases List.mem_append.mp hc with hc | hc
        · exact hknown hc
        · -- the change under way, announced if its snapshot shows the registration
          cases List.mem_singleton.mp hc
          cases hr₀ : snapshot.get g with
          | none => exact Or.inl rfl
          | some r₀ =>
              obtain ⟨hst, hty⟩ := h.filters snapshot hs r₀ hr₀
              refine Or.inr (Or.inr ⟨⟨g, t.applied i, snapshot⟩, ?_, rfl, rfl⟩)
              simp only [Txn.write, hp, hold, Bool.not_false, if_true]
              refine List.mem_append_right _ (mem_noticesOf.mpr ⟨rfl, rfl, r₀, hr₀, ?_⟩)
              rwa [selects_congr hst hty]

theorem Tracks.same {y : Txn} (h : Tracks g r x) (hs : y.snapshots = x.snapshots)
    (hc : y.changes = x.changes) (hn : y.notices = x.notices) (hi : y.inserted = x.inserted) :
    Tracks g r y :=
  ⟨hs ▸ h.filters, by rw [hc, hn, hi]; exact h.announced⟩

theorem Tracks.act (hb : Base s) (hr : s.registrations.get g = some r) (hx : s.txns.get p = some x)
    (h : Tracks g r x) (ho : s.act p x action = some o) : Tracks g r o.txn := by
  cases effect_of_act ho with
  | quiet he => exact h.same he.snapshots he.changes he.notices he.inserted
  | look _ he =>
      rw [he]
      refine ⟨fun y hy r₀ hr₀ => ?_, h.announced⟩
      rcases List.mem_cons.mp hy with rfl | hy
      · cases hr.symm.trans hr₀; exact ⟨rfl, rfl⟩
      · exact h.filters y hy r₀ hr₀
  | insert hsnap he =>
      rw [he]
      exact h.write (by rw [hsnap]; exact List.mem_cons_self) rfl
  | @update snapshot rest id op t t' hsnap _ ha _ he =>
      rw [he]
      refine h.write (by rw [hsnap]; exact List.mem_cons_self) ?_
      rw [Option.any_some, Bool.eq_iff_iff, RowOp.publishes_iff ha]
      simp
  | purge he => rw [he]; exact ⟨h.filters, h.announced⟩
  | @skip n rest hn hg he =>
      rw [he]
      refine ⟨h.filters, fun c hc hsel => (h.announced c hc hsel).imp_right fun ha => ha.imp_right ?_⟩
      rintro ⟨m, hm, hmg, ha⟩
      rw [hn] at hm
      rcases List.mem_cons.mp hm with rfl | hm
      · rw [hmg, hr] at hg; cases hg
      · exact ⟨m, hm, hmg, ha⟩
  | @publish n rest r₂ hn _ he =>
      rw [he]
      refine ⟨h.filters, fun c hc hsel => ?_⟩
      rcases h.announced c hc hsel with hu | hcov | ⟨m, hm, hmg, ha⟩
      · exact Or.inl hu
      · exact Or.inr (Or.inl (hcov.mono (List.subset_append_left _ _)))
      · rw [hn] at hm
        rcases List.mem_cons.mp hm with rfl | hm
        · exact Or.inr (Or.inl ⟨_, List.mem_append_right _ List.mem_cons_self, hmg, ha⟩)
        · exact Or.inr (Or.inr ⟨m, hm, hmg, ha⟩)
  | @fill c limit hc _ _ he =>
      have hrole := (hb.txns p x hx).role
      rw [hc] at hrole
      have hidle := (show ChunkOk s p x c from hrole).idle
      rw [he]
      exact ⟨h.filters, fun c hc => by rw [hidle.2.1] at hc; cases hc⟩

/-! ## Rows -/

/-- The registration owes an event for the row: it lies in the window, or has changed since. -/
def Due (w : Window) (s : Sys) (i : TaskId) (t : Row) : Prop :=
  inWindow w.since t = true ∨ ∃ c ∈ s.history.drop w.mark, c.applied.id = i

/-- Owed rows are told of in `L`, or the marker awaits them. -/
def RowsCovered (w : Window) (r : Registration) (s : Sys) (L : List (Seq × Insertion))
    (marker : Option Marker) : Prop :=
  ∀ i t, s.tasks.get i = some t → r.selects t.type t.state = true → Due w s i t →
    Covers L w.generation (t.applied i) ∨
      (awaits marker t.state i = true ∧ inWindow w.since t = true)

theorem inWindow_alike {t' : Row} {since : Option Time} (h : Alike t t') :
    inWindow since t' = inWindow since t := by
  unfold inWindow finishedSince
  rw [h.state, h.finishedAt]

theorem RowsCovered.mono (h : RowsCovered w r s L marker) (hL : L ⊆ L')
    (ht : s'.tasks.get = s.tasks.get) (hh : s'.history = s.history) :
    RowsCovered w r s' L' marker := by
  intro i t hi hsel hd
  rw [ht] at hi
  rw [Due, hh] at hd
  exact (h i t hi hsel hd).imp_left (Covers.mono hL)

/-- What a transaction ended without seeing the registration lies in the window. -/
def Timely (w : Window) (r : Registration) (x : Txn) : Prop :=
  ∀ c ∈ x.changes, c.snapshot.get w.generation = none →
    r.selects c.applied.type c.applied.state = true → c.applied.state.terminal = true →
    ∀ b, w.since = some b → b ≤ x.now

/-- A commit covers the rows that it changes, unless it did not see the registration: then the marker is
fresh and awaits them. -/
theorem RowsCovered.commit (h : RowsCovered w r s L marker) (hok : TxnOk s p x) (hrows : RowsOk s x)
    (ht : Tracks w.generation r x) (hn : x.notices = [])
    (hm : x.misses w.generation = true → marker = some (.fresh w.since r.states))
    (htime : Timely w r x) (hL : L ⊆ L') (hi : x.inserted ⊆ L') :
    RowsCovered w r (s.commit p x) L' marker := by
  intro i t' hget hsel hd
  -- a row that the transaction has not changed was owed before
  have hold : ∀ t, s.tasks.get i = some t → Alike t t' → (∀ c ∈ x.changes, c.applied.id ≠ i) →
      Covers L' w.generation (t'.applied i) ∨
        (awaits marker t'.state i = true ∧ inWindow w.since t' = true) := by
    intro t hi hat hch
    have hd₀ : Due w s i t := by
      rcases hd with hw | ⟨c, hc, hci⟩
      · exact Or.inl (inWindow_alike hat ▸ hw)
      · rw [show (s.commit p x).history = s.history ++ x.changes from rfl, List.drop_append] at hc
        rcases List.mem_append.mp hc with hc | hc
        · exact Or.inr ⟨c, hc, hci⟩
        · exact absurd hci (hch c (List.mem_of_mem_drop hc))
    rw [hat.applied, hat.state, inWindow_alike hat]
    refine (h i t hi ?_ hd₀).imp_left (Covers.mono hL)
    rwa [← hat.type, ← hat.state]
  rcases Table.get_overlay_cases hget with ⟨hl, hget⟩ | hl
  · refine hold t' hget (.refl t') fun c hc he => ?_
    have := hrows.touched c hc
    rw [he, hl] at this; cases this
  · cases hrows.traced i t' hl with
    | kept hch ht₀ hat => exact hold _ ht₀ hat hch
    | @changed c hc he hfin =>
        have hselc : r.selects c.applied.type c.applied.state = true := by rw [he]; exact hsel
        rcases ht.announced c hc hselc with hu | hcov | ⟨n, hmem, -⟩
        · have hmiss : x.misses w.generation = true :=
            List.any_eq_true.mpr ⟨c.snapshot, hok.changes c hc, by rw [hu]; rfl⟩
          have hpos : 0 < i := Table.pos_of_get hget
          refine Or.inr ⟨?_, ?_⟩
          · rw [hm hmiss, awaits_fresh hpos]
            simp only [Registration.selects, Bool.and_eq_true, List.contains_iff_mem] at hsel
            exact decide_eq_true hsel.1
          · cases hterm : t'.state.terminal with
            | false => simp [inWindow, hterm]
            | true =>
                rw [inWindow, hterm, Bool.not_true, Bool.false_or, finishedSince, hfin hterm]
                have := htime c hc hu hselc (by rw [he]; exact hterm)
                cases hs : w.since with
                | none => rfl
                | some b => simpa using this b hs
        · rw [← he]; exact Or.inl (hcov.mono hi)
        · rw [hn] at hmem; cases hmem

end Fronta.Feed
