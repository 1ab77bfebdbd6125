import Fronta.Library.Runs
import Fronta.Library.Waits
import Mathlib.Data.Fintype.Basic
import Mathlib.Logic.Function.Basic

/-!
# Workers that publish their definitions

`_start_checks`: every worker upserts its definitions one after another, in the order in which it got them,
in one transaction. An upsert waits while another open transaction has upserted its row.
-/

namespace Fronta.Startup

variable {W N : Type} [DecidableEq W] [Fintype W] [DecidableEq N]

/-- The transaction of a worker: open with so many definitions published, or ended. -/
inductive Publication
  | published (count : ℕ)
  | ended
  deriving DecidableEq

abbrev Sys (W : Type) := W → Publication

inductive Action (W : Type)
  | publish (w : W)
  | commit (w : W)
  | abort (w : W)

namespace Sys

def init : Sys W := fun _ => .published 0

variable (definitions : W → List N) (s : Sys W)

/-- The rows that the transaction has locked. -/
def held (w : W) : List N :=
  match s w with
  | .published count => (definitions w).take count
  | .ended => []

/-- The row of its next upsert. -/
def next (w : W) : Option N :=
  match s w with
  | .published count => (definitions w)[count]?
  | .ended => none

/-- The next upsert of one worker waits for another worker. -/
def Waiting (w w' : W) : Prop :=
  w ≠ w' ∧ ∃ n ∈ s.next definitions w, n ∈ s.held definitions w'

instance (w w' : W) : Decidable (s.Waiting definitions w w') :=
  inferInstanceAs (Decidable (w ≠ w' ∧ ∃ n ∈ s.next definitions w, n ∈ s.held definitions w'))

def step (s : Sys W) : Action W → Option (Sys W)
  | .publish w =>
      match s w with
      | .published count =>
          if count < (definitions w).length ∧ ∀ w', ¬s.Waiting definitions w w' then
            some (Function.update s w (.published (count + 1)))
          else none
      | .ended => none
  | .commit w =>
      if s w = .published (definitions w).length then some (Function.update s w .ended) else none
  -- A failure or a cancellation rolls the transaction back.
  | .abort w => if s w = .ended then none else some (Function.update s w .ended)

end Sys

/-! ## Lists that cross -/

/-- The next name of one list, after so many of each, is among the names that another one has passed. -/
def Blocks (definitions : W → List N) (count : W → ℕ) (w w' : W) : Prop :=
  w ≠ w' ∧ ∃ n ∈ (definitions w)[count w]?, n ∈ (definitions w').take (count w')

/-- The lists have beginnings without a common name after which they block one another in a circle. -/
def Crossed (definitions : W → List N) : Prop :=
  ∃ count : W → ℕ, (∀ w, count w ≤ (definitions w).length) ∧
    (∀ w w', w ≠ w' → ((definitions w).take (count w)).Disjoint ((definitions w').take (count w'))) ∧
    Waits.Deadlock (Blocks definitions count)

end Fronta.Startup
