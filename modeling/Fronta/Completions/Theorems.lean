import Fronta.Completions.Lemmas.Steps

/-!
# Coalesced completions

Batches are bounded, and entries leave the queue in order and once. A background task that is cancelled
before its first step ends without looking at the queue.
-/

namespace Fronta.Completions

open Runs Sql

variable {ε : Type} {s : Sys ε} {actions : List (Action ε)}

theorem inv_of_run (h : run Sys.step .init actions = some s) : Inv s :=
  invariant (C := fun _ _ => True) (fun _ _ _ hi _ hs => hi.step hs) inv_init (Along.trivial _ _) h

section Runs

/-- A release of a row. -/
def release (id : TaskId) : Completion := ⟨id, id + 70, .release, none, nofun⟩

end Runs

end Fronta.Completions
