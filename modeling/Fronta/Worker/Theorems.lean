import Fronta.Worker.Lemmas.Attempts

/-!
# Every attempt stays tracked, unless its row comes back

The map is keyed by the row, so an attempt that lost its lease is tracked only until the same worker
claims the row again.
-/

namespace Fronta.Worker

open Runs Sql

variable {s s' : Sys}

/-- In a run where no claim brings back a row that the map still holds, every unfinished attempt is
the one stored under its row, and there are at most `concurrency` of them. -/
theorem attempts_tracked {concurrency : ℕ} {db : Db} {actions : List Sys.Action}
    (hc : Along Sys.step Sys.Apart (Sys.init concurrency db) actions)
    (h : run Sys.step (Sys.init concurrency db) actions = some s) :
    s.Tracked ∧ s.unfinished.length ≤ s.concurrency :=
  (invariant (fun _ _ _ hi hc h => Sys.inv_step hi hc h) (Sys.init_inv concurrency db) hc
    h).tracked_and_bounded

/-- A row that comes back while its previous attempt still runs takes that attempt out of the map. -/
theorem untracked_of_reclaim {x : Ref} {a : Attempt} {row : TaskId × Token}
    (h : s.step .dispatch = some s') (hs : s.stopping = false) (hr : row ∈ s.claimed)
    (hx : s.objects.get x = some a) (hp : a.phase = .running) (ha : a.row = row.1) :
    ¬ s'.Tracked := by
  cases Sys.moves_of_step h with
  | discard _ hst =>
      rw [hs] at hst
      cases hst
  | @dispatch rows hcall =>
      have hrows : s.claimed = rows := by rw [Sys.claimed, hcall]
      obtain ⟨hkeep, hnew⟩ := Sys.dispatch_overwrites s rows
      intro ht
      have hmem : (x, a) ∈ (rows.foldl Sys.startAttempt s).unfinished :=
        List.mem_filter.mpr ⟨Table.mem_entries.mpr (hkeep x a hx), by simp [hp]⟩
      have hle := hnew row.1 x (List.mem_map_of_mem (hrows ▸ hr)) (ha ▸ ht _ hmem)
      exact absurd (Table.lt_of_get hx) (Nat.not_lt.mpr hle)

section Runs

/-- A task with the default policy. -/
def plain : NewTask := { type := "t", inputJson := "{}", policy := default }

/-- One claim of the worker and the start of what it returned. -/
def claims (now : Time) (token : Token) (ids : List TaskId) : List Sys.Action :=
  [.claim, .execute now (fun _ => now) 30 "w" (fun _ => token) ids, .dispatch]

/-- Row 1 loses its lease, is reaped and claimed again while its first controller winds down. Two
slots then hold three unfinished controllers, and the end of the first one drops the second. -/
theorem attempts_untracked :
    ∃ (actions : List Sys.Action) (s : Sys), run Sys.step (Sys.init 2 .init) actions = some s ∧
      ¬ s.Tracked ∧ s.concurrency < s.unfinished.length := by
  let actions : List Sys.Action :=
    [.statement (.enqueue 0 plain)] ++ claims 1 71 [1] ++
      [.expire 1, .statement (.reap 40 (fun _ => 0) 100 fun _ => false)] ++ claims 42 72 [1] ++
      [.statement (.enqueue 43 plain)] ++ claims 44 73 [2]
  have hrun : (run Sys.step (Sys.init 2 .init) actions).any
      (fun s => ¬ s.Tracked ∧ s.concurrency < s.unfinished.length) = true := by decide +kernel
  obtain ⟨s, hs, hp⟩ := Option.any_eq_true _ _ |>.mp hrun
  exact ⟨actions, s, hs, by simpa using hp⟩

/-- The worker runs two rows, one of which ends and makes room for a third. -/
theorem attempts_tracked_refill :
    ∃ s, run Sys.step (Sys.init 2 .init)
        ([.statement (.enqueue 0 plain), .statement (.enqueue 0 plain),
          .statement (.enqueue 0 plain)] ++ claims 1 71 [1, 2] ++ [.finish 1, .attemptDone 1] ++
          claims 2 72 [3]) = some s ∧
      s.unfinished.length = 2 ∧ s.Tracked ∧ s.unfinished.length ≤ s.concurrency := by
  have hrun : (run Sys.step (Sys.init 2 .init)
        ([.statement (.enqueue 0 plain), .statement (.enqueue 0 plain),
          .statement (.enqueue 0 plain)] ++ claims 1 71 [1, 2] ++ [.finish 1, .attemptDone 1] ++
          claims 2 72 [3])).any (fun s => s.unfinished.length = 2) = true := by decide +kernel
  obtain ⟨s, hs, hp⟩ := Option.any_eq_true _ _ |>.mp hrun
  exact ⟨s, hs, by simpa using hp, attempts_tracked (by decide +kernel) hs⟩

end Runs

end Fronta.Worker
