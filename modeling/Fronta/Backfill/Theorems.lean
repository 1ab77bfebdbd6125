import Mathlib.Data.List.Dedup
import Fronta.Backfill.System
import Fronta.Feed.Lemmas.Chunk
import Fronta.Store.Statements

/-!
# Chunks add up to one projection

Whatever calls roll back, the committed chunks have inserted at every moment exactly what the marker has
left behind, and their number is bounded until the marker is cleared.
-/

namespace Fronta.Backfill

open Feed Runs Sql

variable {src : Source} {s s' : Sys} {m : Marker} {marker : Option Marker} {limit : ℕ}

/-- The matching rows that the marker still awaits. -/
def Source.awaited (src : Source) (marker : Option Marker) : List (TaskId × Row) :=
  src.rows.filter fun x => awaits marker x.2.state x.1

theorem Source.rows_nodup : (src.rows.map Prod.fst).Nodup :=
  src.tasks.entries_nodup.sublist (List.filter_sublist.map _)

theorem Source.passed_eq (src : Source) (marker : Option Marker) :
    src.passed marker = src.rows.filter fun x => !awaits marker x.2.state x.1 := by
  refine List.filter_congr fun x _ => ?_
  unfold awaits
  cases marker with
  | none => rfl
  | some m =>
      simp only [Option.bind_some, Option.any_some]
      cases m.pending.lookup x.2.state with
      | none => rfl
      | some after =>
          rw [Option.any_some, ← decide_not]
          exact decide_eq_decide.mpr Nat.not_lt.symm

/-- How many chunks may still be committed. -/
def Source.remaining (src : Source) : Option Marker → ℕ
  | none => 0
  | some m => m.pending.keys.length + (src.awaited (some m)).length + 1

theorem remaining_le (src : Source) (m : Marker) (pending : AList fun _ : State => TaskId) :
    src.remaining (if pending.keys = [] then none else some { m with pending := pending }) ≤
      pending.keys.length +
        (src.awaited (if pending.keys = [] then none else some { m with pending := pending })).length +
        1 := by
  split
  · exact Nat.zero_le _
  · exact Nat.le_refl _

/-- What holds of the committed marker and events, and of the open call. -/
structure Inv (src : Source) (s : Sys) : Prop where
  since : ∀ m, s.marker = some m → m.since = src.since
  states : ∀ st i, awaits s.marker st i = true → st ∈ src.states
  exact : s.inserted.Perm (src.passed s.marker)
  call : ∀ c, s.call = some c → ∃ m limit, s.marker = some m ∧ 1 ≤ limit ∧
    c = chunk src.tasks src.types m limit
  bound : s.commits + src.remaining s.marker ≤ src.states.dedup.length + src.rows.length + 1

/-- A chunk inserts what its marker awaits and the next one does not. -/
theorem chunk_perm (hs : m.since = src.since) (hst : ∀ st i, awaits (some m) st i = true → st ∈ src.states)
    (limit : ℕ) : (chunk src.tasks src.types m limit).1.Perm
      (src.rows.filter fun x => awaits (some m) x.2.state x.1 &&
        !awaits (chunk src.tasks src.types m limit).2 x.2.state x.1) := by
  refine (List.perm_ext_iff_of_nodup (List.Nodup.of_map _ chunk_nodup)
    ((List.Nodup.of_map _ src.rows_nodup).filter _)).mpr ?_
  rintro ⟨i, t⟩
  rw [mem_chunk, List.mem_filter, Source.rows, List.mem_filter, Table.mem_entries, hs]
  simp only [Source.selects, Bool.and_eq_true, Bool.not_eq_true', List.contains_iff_mem]
  constructor
  · rintro ⟨h₁, h₂, h₃, h₄, h₅⟩; exact ⟨⟨h₁, ⟨hst _ _ h₄, h₂⟩, h₃⟩, h₄, h₅⟩
  · rintro ⟨⟨h₁, ⟨-, h₂⟩, h₃⟩, h₄, h₅⟩; exact ⟨h₁, h₂, h₃, h₄, h₅⟩

/-- A committed chunk extends the events to what the next marker has left behind. -/
theorem exact_commit (hl : 1 ≤ limit) (hs : m.since = src.since)
    (hst : ∀ st i, awaits (some m) st i = true → st ∈ src.states)
    (h : s.inserted.Perm (src.passed (some m))) :
    (s.inserted ++ (chunk src.tasks src.types m limit).1).Perm
      (src.passed (chunk src.tasks src.types m limit).2) := by
  let next := (chunk src.tasks src.types m limit).2
  have hsplit := List.filter_append_perm (fun x : TaskId × Row => !awaits (some m) x.2.state x.1)
    (src.passed next)
  rw [src.passed_eq next, List.filter_filter, List.filter_filter] at hsplit
  have hold : (src.rows.filter fun x => !awaits (some m) x.2.state x.1 &&
      !awaits next x.2.state x.1) = src.passed (some m) := by
    rw [src.passed_eq]
    refine List.filter_congr fun x _ => ?_
    cases hn : awaits next x.2.state x.1 with
    | false => simp
    | true => simp [awaits_of_chunk hl hn]
  have hnew : (src.rows.filter fun x => !(!awaits (some m) x.2.state x.1) &&
      !awaits next x.2.state x.1) =
      src.rows.filter fun x => awaits (some m) x.2.state x.1 && !awaits next x.2.state x.1 := by
    simp
  rw [hold, hnew] at hsplit
  rw [src.passed_eq next]
  exact (h.append (chunk_perm hs hst limit)).trans hsplit

/-- A chunk ends a state or moves past at least one row, or finds nothing left to do. -/
theorem remaining_chunk (hl : 1 ≤ limit) (hs : m.since = src.since)
    (hst : ∀ st i, awaits (some m) st i = true → st ∈ src.states) :
    src.remaining (chunk src.tasks src.types m limit).2 < src.remaining (some m) := by
  have hsub : (src.awaited (chunk src.tasks src.types m limit).2).length ≤
      (src.awaited (some m)).length := by
    refine (List.monotone_filter_right _ ?_).length_le
    intro x hx
    exact awaits_of_chunk hl hx
  cases hf : m.first with
  | none =>
      have : (chunk src.tasks src.types m limit).2 = none := by simp [chunk, hf]
      rw [this]
      exact Nat.succ_pos _
  | some y =>
      obtain ⟨st, after⟩ := y
      have hmem : st ∈ m.pending.keys :=
        AList.mem_keys.mp (AList.lookup_isSome.mp (by rw [first_lookup hf]; rfl))
      have hchunk : (chunk src.tasks src.types m limit).2 =
          m.advance st (projected src.tasks src.types st after (m.sinceOf st) limit) limit := by
        simp [chunk, hf]
      have hpos := List.length_pos_of_mem hmem
      by_cases hlen : (projected src.tasks src.types st after (m.sinceOf st) limit).length < limit
      · have hkeys : (m.pending.erase st).keys.length + 1 = m.pending.keys.length := by
          rw [AList.keys_erase, List.length_erase_of_mem hmem]
          omega
        have hle := remaining_le src m (m.pending.erase st)
        rw [hchunk, Marker.advance] at hsub ⊢
        simp only [if_pos hlen] at hsub ⊢
        rw [show src.remaining (some m) =
          m.pending.keys.length + (src.awaited (some m)).length + 1 from rfl]
        omega
      · -- a full chunk leaves at least one row behind
        obtain ⟨x, hx⟩ := List.exists_mem_of_length_pos
          (Nat.lt_of_lt_of_le hl (Nat.not_lt.mp hlen))
        have hmemchunk : x ∈ (chunk src.tasks src.types m limit).1 := by simpa [chunk, hf] using hx
        have hxr := (chunk_perm hs hst limit).mem_iff.mp hmemchunk
        simp only [List.mem_filter, Bool.and_eq_true, Bool.not_eq_true'] at hxr
        have hstrict : (src.awaited (chunk src.tasks src.types m limit).2).length <
            (src.awaited (some m)).length := by
          have he : src.awaited (chunk src.tasks src.types m limit).2 =
              (src.awaited (some m)).filter fun x =>
                awaits (chunk src.tasks src.types m limit).2 x.2.state x.1 := by
            rw [Source.awaited, Source.awaited, List.filter_filter]
            refine List.filter_congr fun x _ => ?_
            cases hn : awaits (chunk src.tasks src.types m limit).2 x.2.state x.1 with
            | false => simp
            | true => simp [awaits_of_chunk hl hn]
          rw [he, List.length_filter_lt_length_iff_exists]
          exact ⟨x, List.mem_filter.mpr ⟨hxr.1, hxr.2.1⟩, by simp [hxr.2.2]⟩
        have hkeys : (m.pending.insert st
            (((projected src.tasks src.types st after (m.sinceOf st) limit).map Prod.fst).foldl
              max 0)).keys.length = m.pending.keys.length := by
          rw [AList.keys_insert, List.length_cons, List.length_erase_of_mem hmem]
          omega
        have hle := remaining_le src m (m.pending.insert st
          (((projected src.tasks src.types st after (m.sinceOf st) limit).map Prod.fst).foldl max 0))
        rw [hchunk, Marker.advance] at hstrict ⊢
        simp only [if_neg hlen] at hstrict ⊢
        rw [show src.remaining (some m) =
          m.pending.keys.length + (src.awaited (some m)).length + 1 from rfl]
        omega

theorem inv_init (src : Source) : Inv src (Sys.init src) where
  since m h := by cases h; rfl
  states st i h := by
    by_contra hst
    simp [Sys.init, awaits, lookup_fresh, hst] at h
  exact := by
    have : src.passed (Sys.init src).marker = [] := by
      rw [src.passed_eq, List.filter_eq_nil_iff]
      rintro ⟨i, t⟩ hx
      obtain ⟨hx, hsel⟩ := List.mem_filter.mp hx
      simp only [Source.selects, Bool.and_eq_true, List.contains_iff_mem] at hsel
      rw [show (Sys.init src).marker = some (.fresh src.since src.states) from rfl,
        awaits_fresh (Table.pos_of_get (Table.mem_entries.mp hx))]
      simp [hsel.1.1]
    rw [this]
    exact List.Perm.refl _
  call c h := by cases h
  bound := by
    have hkeys : (Marker.fresh src.since src.states).pending.keys.length ≤
        src.states.dedup.length := by
      refine (List.subperm_of_subset (AList.keys_nodup _) fun st hst => ?_).length_le
      by_contra hn
      rw [List.mem_dedup] at hn
      have := AList.lookup_isSome.mpr (AList.mem_keys.mpr hst)
      rw [lookup_fresh, if_neg hn] at this
      cases this
    have hrows : (src.awaited (some (.fresh src.since src.states))).length ≤ src.rows.length :=
      List.length_filter_le _ _
    simp only [Sys.init, Source.remaining]
    omega

theorem inv_step {action : Sys.Action} (hi : Inv src s) (h : Sys.step src s action = some s') :
    Inv src s' := by
  cases action with
  | call limit =>
      simp only [Sys.step] at h
      split at h
      · rename_i m _ hm
        obtain ⟨hl, h⟩ := Option.ite_none_right_eq_some.mp h
        cases h
        exact { hi with call := fun c hc => ⟨m, limit, hm, hl, (Option.some.inj hc).symm⟩ }
      · cases h
  | commit =>
      obtain ⟨c, hc, rfl⟩ := Option.map_eq_some_iff.mp h
      obtain ⟨m, limit, hm, hl, rfl⟩ := hi.call c hc
      have hst := hi.states
      have hex := hi.exact
      have hb := hi.bound
      rw [hm] at hst hex hb
      refine ⟨fun m' hm' => ?_, fun st i ha => hst st i (awaits_of_chunk hl ha),
        exact_commit hl (hi.since m hm) hst hex, (fun c hc => by cases hc), ?_⟩
      · rw [since_chunk hm', hi.since m hm]
      · have := remaining_chunk hl (hi.since m hm) hst
        simp only
        omega
  | rollback =>
      obtain ⟨c, -, rfl⟩ := Option.map_eq_some_iff.mp h
      exact { hi with call := fun c hc => by cases hc }

/-- However the calls of the consumers interleave, roll back or stop: at every moment the committed
events are one for each matching task that the marker has left behind; while the marker is there, the
number of committed chunks is below a bound and the next one can be committed; and once it is cleared,
the events are one for each matching task. -/
theorem chunks_project_once (h : Reachable (Sys.step src) (Sys.init src) s) :
    s.inserted.Perm (src.passed s.marker) ∧
    (s.marker ≠ none → s.commits < src.states.dedup.length + src.rows.length + 1 ∧
      ∀ limit, 1 ≤ limit → ∃ s₁ s₂, (s₁ = s ∧ s.call ≠ none ∨ Sys.step src s (.call limit) = some s₁) ∧
        Sys.step src s₁ .commit = some s₂ ∧ s₂.commits = s.commits + 1) ∧
    (s.marker = none → s.inserted.Perm src.rows) := by
  have hi : Inv src s := h.invariant (inv_init src) fun _ _ _ hi hs => inv_step hi hs
  refine ⟨hi.exact, fun hm => ⟨?_, fun limit hl => ?_⟩, fun hm => ?_⟩
  · obtain ⟨m, hm⟩ := Option.ne_none_iff_exists'.mp hm
    have hb := hi.bound
    rw [hm, Source.remaining] at hb
    omega
  · obtain ⟨m, hm⟩ := Option.ne_none_iff_exists'.mp hm
    cases hc : s.call with
    | some c => exact ⟨s, _, Or.inl ⟨rfl, by simp⟩, by rw [Sys.step, hc, Option.map_some], rfl⟩
    | none =>
        refine ⟨{ s with call := some (chunk src.tasks src.types m limit) }, _, Or.inr ?_, rfl, rfl⟩
        simp [Sys.step, hc, hm, hl]
  · have := hi.exact
    rwa [hm, src.passed_eq, show (src.rows.filter fun x => !awaits none x.2.state x.1) = src.rows from
      List.filter_eq_self.mpr fun _ _ => rfl] at this

/-- Three queued tasks in chunks of one, with a call that rolls back and one that finds nothing. -/
theorem chunks_project_once_resumed :
    let task : Op := .enqueue 0 { type := "a", inputJson := "{}", policy := default }
    let src : Source := ⟨(Db.init.execAll [task, task, task]).tasks, [.queued, .failed], none, some 5⟩
    let commit (limit : ℕ) : List Sys.Action := [.call limit, .commit]
    ∃ s, run (Sys.step src) (Sys.init src)
        ([.call 1, .rollback] ++ commit 1 ++ commit 1 ++ commit 1 ++ commit 1 ++ commit 2) = some s ∧
      s.marker = none ∧ s.inserted.length = 3 ∧ s.inserted.Perm src.rows := by
  intro task src commit
  have hrun : (run (Sys.step src) (Sys.init src)
      ([.call 1, .rollback] ++ commit 1 ++ commit 1 ++ commit 1 ++ commit 1 ++ commit 2)).any
      (fun s => s.marker = none ∧ s.inserted.length = 3) = true := by decide +kernel
  obtain ⟨s, hs, hp⟩ := Option.any_eq_true _ _ |>.mp hrun
  obtain ⟨hm, hlen⟩ := of_decide_eq_true hp
  exact ⟨s, hs, hm, hlen, (chunks_project_once ⟨_, hs⟩).2.2 hm⟩

end Fronta.Backfill
