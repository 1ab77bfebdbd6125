import Fronta.Library.Runs
import Fronta.Library.Table

/-!
# Publications of one task type

An upsert takes its snapshot when it starts. It may then wait for another open transaction that has written the
row, and acts on the newest committed version after that. The subquery of RETURNING reads the snapshot.
-/

namespace Fronta.Publish

open Sql

abbrev Fingerprint := String

abbrev Ref := ℕ

/-- An upsert and its transaction. -/
structure Publication where
  fingerprint : Fingerprint
  /-- The number of committed versions in the snapshot. -/
  seen : ℕ
  /-- The number of committed versions when it wrote the row. -/
  before : Option ℕ := none
  ended : Bool := false

structure Sys where
  /-- The fingerprints of the committed versions, the newest one last. -/
  versions : List Fingerprint
  publications : Table Publication

inductive Action
  | start (fingerprint : Fingerprint)
  | write (p : Ref)
  | commit (p : Ref)
  | abort (p : Ref)

namespace Sys

def init : Sys := ⟨[], .empty⟩

variable (s : Sys)

/-- The row after so many commits. -/
def version (n : ℕ) : Option Fingerprint := (s.versions.take n).getLast?

/-- What a publication returns: `previous_fingerprint`. -/
def returned (x : Publication) : Option Fingerprint := s.version x.seen

/-- `previous is not None and previous != spec.fingerprint` -/
def warns (x : Publication) : Bool := (s.returned x).any fun previous => previous ≠ x.fingerprint

/-- Another transaction holds the row. -/
def locked : Bool := s.publications.entries.any fun e => e.2.before.isSome && !e.2.ended

def modify (p : Ref) (x : Publication) : Sys :=
  { s with publications := s.publications.modify p fun _ => x }

/-- The versions that were committed between the snapshot of a publication and its write. -/
def missed (x : Publication) : List Fingerprint := (s.versions.take (x.before.getD 0)).drop x.seen

def step : Action → Option Sys
  | .start fingerprint =>
      some { s with
        publications := s.publications.insert { fingerprint := fingerprint, seen := s.versions.length } }
  | .write p =>
      (s.publications.get p).bind fun x =>
        if x.before = none ∧ x.ended = false ∧ s.locked = false then
          some (s.modify p { x with before := some s.versions.length })
        else none
  | .commit p =>
      (s.publications.get p).bind fun x =>
        if x.before.isSome ∧ x.ended = false then
          some { s.modify p { x with ended := true } with versions := s.versions ++ [x.fingerprint] }
        else none
  | .abort p =>
      (s.publications.get p).bind fun x =>
        if x.ended = false then some (s.modify p { x with ended := true }) else none

end Sys

end Fronta.Publish
