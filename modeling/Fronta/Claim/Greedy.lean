import Fronta.Claim.Query

/-!
# The plain greedy claim

What a claim is for, without rounds and skip lists: walk the waiting rows in queue order, skip a row
whose type or key has no place left, and stop at the byte bound or the cap.
-/

namespace Fronta.Claim

open Sql

namespace View

variable (w : View) (types : List Name)

/-- A due row of an accepted, published and unpaused type. -/
def waits (t : Row) : Bool :=
  w.due t && types.contains t.type && (w.catalog t.type).any fun ty => !ty.paused

/-- The waiting rows in queue order. -/
def waiting : List Candidate :=
  orderBy Candidate.order
    (w.tasks.entries.filterMap fun x =>
      if w.waits types x.2 then some (w.candidate x.1 x.2) else none)

/-- Running and admitted rows of the type reach `max_concurrency`. -/
def typeFull (admitted : List Candidate) (c : Candidate) : Bool :=
  (w.catalog c.type).any fun ty => ty.maxConcurrency.any fun n =>
    n ≤ running w.tasks c.type + (admitted.filter fun a => a.type = c.type).length

/-- Running and admitted rows of the type and key reach `max_concurrency_per_key`. -/
def keyFull (admitted : List Candidate) (c : Candidate) : Bool :=
  (w.catalog c.type).any fun ty => ty.maxConcurrencyPerKey.any fun n =>
    c.concurrencyKey.any fun key =>
      n ≤ runningKey w.tasks c.type key +
        (admitted.filter fun a => a.type = c.type && a.concurrencyKey = some key).length

/-- The row has no place next to the admitted ones. -/
def blocked (admitted : List Candidate) (c : Candidate) : Bool :=
  w.typeFull admitted c || w.keyFull admitted c

/-- The walk, from the rows admitted so far. -/
def greedy (cap : ℕ) (admitted : List Candidate) : List Candidate → List Candidate
  | [] => admitted
  | c :: cs =>
      if w.blocked admitted c then greedy cap admitted cs
      else if admitted ≠ [] ∧ 524288 < (admitted.map Candidate.bytes).sum + c.bytes then admitted
      else if cap ≤ admitted.length + 1 then admitted ++ [c]
      else greedy cap (admitted ++ [c]) cs

end View

end Fronta.Claim
