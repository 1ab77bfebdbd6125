import Fronta.Orphans.Lemmas.Release

/-!
# What a release of orphans leaves behind

The live rows are listed by id and tokens belong to attempts, so a row that comes back to a worker while
its previous attempt winds down is listed as live under a token that nobody holds.
-/

namespace Fronta.Orphans

open Runs Sql

variable {s : Sys} {concurrency : ℕ} {name : Name}

/-- A claim that fails owes the release of every row that runs under the worker's id with a token that no
unfinished attempt holds. -/
theorem owed_of_lose {s' : Sys} (hs : s.step .lose = some s') :
    ∃ r, s'.release = some r ∧ ∀ i t token, s'.worker.db.tasks.get i = some t →
      t.state = .running → t.worker = some s'.name → t.token = some token →
      s'.holds i token = false → (i, token) ∈ r.owed := by
  cases Sys.moves_of_step hs with
  | lose =>
      refine ⟨_, rfl, fun i t token ht hrun hworker htok hh => ?_⟩
      have hh : s.holds i token = false := hh
      refine List.mem_filterMap.mpr ⟨(i, t), List.mem_filter.mpr ⟨Table.mem_entries.mpr ht, ?_⟩, ?_⟩
      · exact mine_iff.mpr ⟨hrun, hworker⟩
      · simp [htok, hh]

/-- In a run where no claim brings back a row that the map still holds, where a page that is not full
lists no row as live that runs under the worker's id with a token of no unfinished attempt, and where full
pages lose no row before they lock it: an answered release leaves none of the tokens that it owed on their
rows, and its pages change nothing but rows of this worker under tokens that no unfinished attempt holds,
which they release. -/
theorem orphan_release {actions : List Action}
    (hc : Along Sys.step (fun s a => s.clean a = true) (Sys.init concurrency name) actions)
    (h : run Sys.step (Sys.init concurrency name) actions = some s) :
    (∀ s', s.step .lose = some s' → ∃ r, s'.release = some r ∧ ∀ i t token,
      s'.worker.db.tasks.get i = some t → t.state = .running → t.worker = some s'.name →
      t.token = some token → s'.holds i token = false → (i, token) ∈ r.owed) ∧
    (∀ r s', s.release = some r → s.step .reply = some s' → s'.release = none →
      ∀ i token, (i, token) ∈ r.owed → ∀ t, s'.worker.db.tasks.get i = some t →
        t.token ≠ some token) ∧
    ∀ n now jitter s' i, s.step (.commit n now jitter) = some s' →
      s'.worker.db.tasks.get i ≠ s.worker.db.tasks.get i →
      ∃ t t' token, s.worker.db.tasks.get i = some t ∧ s'.worker.db.tasks.get i = some t' ∧
        t.state = .running ∧ t.worker = some s.name ∧ t.token = some token ∧
        s.holds i token = false ∧ t.Released t' := by
  have hi : Inv s := invariant (fun _ _ _ hi hc hs => hi.step hc hs) inv_init hc h
  exact ⟨fun s' hs => owed_of_lose hs,
    fun r s' hr hs hn i token howed t ht => hi.settled hr hs hn howed ht,
    fun n now jitter s' i hs hne => hi.released hs hne⟩

section Runs

/-- A task with the default policy. -/
def plain : NewTask := { type := "t", inputJson := "{}", policy := default }

/-- A claim of the worker up to its commit. -/
def claims (now : Time) (token : TaskId → Token) (ids : List TaskId) : List Action :=
  [.worker .claim, .worker (.execute now (fun _ => now) 30 "w" token ids)]

/-- One page and its answer. -/
def pages (n : PageId) (now : Time) : List Action := [.page, .select n, .commit n now fun _ => 0]

/-- One row runs, and the response of a claim of two more is lost. The first try of the release is lost
too, and the second one finds nothing left. -/
theorem orphan_release_retried :
    let actions : List Action :=
      List.replicate 3 (.worker (.statement (.enqueue 0 plain))) ++ claims 1 (· + 70) [1] ++
        [.worker .dispatch] ++ claims 2 (· + 80) [2, 3] ++ [.lose] ++ pages 1 3 ++ [.fail] ++ pages 2 4
    ∃ s r s', run Sys.step (Sys.init 4 "w") actions = some s ∧ s.release = some r ∧
      r.owed = [(2, 82), (3, 83)] ∧ s.step .reply = some s' ∧ s'.release = none ∧
      ∀ i token, (i, token) ∈ r.owed → ∀ t, s'.worker.db.tasks.get i = some t →
        t.token ≠ some token := by
  intro actions
  have hrun : (run Sys.step (Sys.init 4 "w") actions).any (fun s =>
      (s.release.any fun r => r.owed = [(2, 82), (3, 83)]) &&
        (s.step .reply).any fun s' => s'.release.isNone) = true := by decide +kernel
  obtain ⟨s, hs, hp⟩ := Option.any_eq_true _ _ |>.mp hrun
  rw [Bool.and_eq_true] at hp
  obtain ⟨r, hr, howed⟩ := Option.any_eq_true _ _ |>.mp hp.1
  obtain ⟨s', hs', hn⟩ := Option.any_eq_true _ _ |>.mp hp.2
  have hn := Option.isNone_iff_eq_none.mp hn
  exact ⟨s, r, s', hs, hr, of_decide_eq_true howed, hs', hn,
    (orphan_release (by decide +kernel) hs).2.1 r s' hr hs' hn⟩

/-- Row 1 loses its lease, is reaped and claimed again while its controller winds down, and the response
is lost. The release lists the row as live, and its answer leaves the row running under a token that no
attempt holds. -/
theorem reclaimed_row_kept :
    ∃ (actions : List Action) (s s' : Sys) (r : Release) (t : Row),
      run Sys.step (Sys.init 2 "w") actions = some s ∧ s.release = some r ∧ (1, 72) ∈ r.owed ∧
      s.step .reply = some s' ∧ s'.release = none ∧ s'.worker.db.tasks.get 1 = some t ∧
      t.token = some 72 ∧ s'.mine t = true ∧ s'.holds 1 72 = false := by
  let actions : List Action :=
    [.worker (.statement (.enqueue 0 plain))] ++ claims 1 (fun _ => 71) [1] ++
      [.worker .dispatch, .worker (.expire 1),
        .worker (.statement (.reap 40 (fun _ => 0) 100 fun _ => false))] ++
      claims 42 (fun _ => 72) [1] ++ [.lose] ++ pages 1 43
  have hrun : (run Sys.step (Sys.init 2 "w") actions).any (fun s =>
      (s.release.any fun r => (1, 72) ∈ r.owed) &&
        (s.step .reply).any fun s' => s'.release.isNone &&
          (s'.worker.db.tasks.get 1).any fun t =>
            t.token = some 72 && s'.mine t && !s'.holds 1 72) = true := by decide +kernel
  obtain ⟨s, hs, hp⟩ := Option.any_eq_true _ _ |>.mp hrun
  rw [Bool.and_eq_true] at hp
  obtain ⟨r, hr, howed⟩ := Option.any_eq_true _ _ |>.mp hp.1
  obtain ⟨s', hs', hp⟩ := Option.any_eq_true _ _ |>.mp hp.2
  rw [Bool.and_eq_true] at hp
  obtain ⟨t, ht, hp'⟩ := Option.any_eq_true _ _ |>.mp hp.2
  simp only [Bool.and_eq_true, decide_eq_true_eq, Bool.not_eq_true'] at hp'
  exact ⟨actions, s, s', r, t, hs, hr, of_decide_eq_true howed, hs',
    Option.isNone_iff_eq_none.mp hp.1, ht, hp'.1.1, hp'.1.2, hp'.2⟩

end Runs

end Fronta.Orphans
