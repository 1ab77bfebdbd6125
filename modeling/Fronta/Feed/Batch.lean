import Fronta.Feed.System

/-!
# Feeds and their batches

The objects of the consumers next to the system: `Feed` with its last batch and `Batch` with its activity
flag. An operation of a consumer is a step of its connection's transaction and a change of the flags.
-/

namespace Fronta.Feed

open Sql

abbrev BatchId := ℕ

/-- A `Batch`: what was pulled, in which transaction of its consumer's connection, and `_active`. -/
structure Batch where
  consumer : ConsumerId
  txn : TxnId
  events : List Seq
  active : Bool

/-- How `ack` fails: by its own check, or because the connection has lost its transaction. -/
inductive AckError
  | inactive
  | connection
  deriving DecidableEq, Repr

def AckError.message : AckError → String
  | inactive => "batch is no longer active"
  | connection => "the connection is closed"

structure Feeds where
  sys : Sys
  batches : Table Batch
  /-- `_batch` of each feed. -/
  current : ConsumerId → Option BatchId

namespace Feeds

inductive Action
  | sys (action : Feed.Action)
  | next (k : ConsumerId) (now : Time)
  | fetch (k : ConsumerId)
  | ack (b : BatchId)
  | commit (b : BatchId)
  | exit (k : ConsumerId)

def init (catalog : Catalog) : Feeds := ⟨.init catalog, .empty, fun _ => none⟩

variable (c : Feeds)

/-- The transaction of a consumer's connection, while it is open. -/
def conn (k : ConsumerId) : Option TxnId :=
  (c.sys.consumers.get k).bind fun y => y.txn.filter fun p => (c.sys.txns.get p).isSome

/-- `_rollback`: the last batch of the feed is not active any more. -/
def release (k : ConsumerId) : Feeds :=
  { c with
    batches := c.batches.update fun b x => if c.current k = some b then some { x with active := false } else none
    current := fun k' => if k' = k then none else c.current k' }

/-- `__anext__` up to its check of the registration. -/
def next (k : ConsumerId) (now : Time) : Option Feeds :=
  (c.sys.step (.pull k now)).map fun s => { c.release k with sys := s }

/-- `__anext__`: the pull and the batch that it returns. -/
def fetch (k : ConsumerId) : Option Feeds :=
  (c.conn k).bind fun p =>
    (c.sys.step (.within p .fetch)).bind fun s =>
      (s.txns.get p).bind fun x =>
        match x.role with
        | .pull ⟨_, _, _, _, some seqs, _⟩ => some
            { sys := s
              batches := c.batches.insert ⟨k, p, seqs, true⟩
              current := fun k' => if k' = k then some c.batches.next else c.current k' }
        | _ => none

/-- `ack` up to its commit. A second DELETE finds no row. -/
def ack (b : BatchId) : Except AckError Feeds :=
  match c.batches.get b with
  | some ⟨k, _, _, true⟩ =>
      match c.conn k with
      | some p => .ok { c with sys := (c.sys.step (.within p .ack)).getD c.sys }
      | none => .error .connection
  | _ => .error .inactive

/-- The commit of `ack`. -/
def commit (b : BatchId) : Option Feeds :=
  match c.batches.get b with
  | some ⟨k, _, _, true⟩ =>
      (c.conn k).bind fun p => (c.sys.step (.commit p)).map fun s =>
        { c with sys := s, batches := c.batches.modify b fun x => { x with active := false } }
  | _ => none

/-- The exit of `subscribe`: `_rollback`, and the connection goes. -/
def exit (k : ConsumerId) : Option Feeds :=
  (((c.conn k).elim c.sys c.sys.finish).step (.leave k)).map fun s => { c.release k with sys := s }

/-- The action is a step of a delivery. -/
def delivers : Feed.Action → Bool
  | .pull .. | .within _ .fetch | .within _ .ack => true
  | .commit p => (c.sys.txns.get p).any fun x =>
      match x.role with
      | .pull _ => true
      | _ => false
  | _ => false

/-- A step of the system or an operation of a consumer. A failed `ack` changes nothing. -/
def step : Action → Option Feeds
  | .sys action =>
      if c.delivers action then none else (c.sys.step action).map fun s => { c with sys := s }
  | .next k now => c.next k now
  | .fetch k => c.fetch k
  | .ack b => some (match c.ack b with
      | .ok c => c
      | .error _ => c)
  | .commit b => c.commit b
  | .exit k => c.exit k

end Feeds

/-- The batch's flag is up and its transaction is open. -/
def Feeds.Active (c : Feeds) (b : BatchId) (x : Batch) : Prop :=
  c.batches.get b = some x ∧ x.active = true ∧ (c.sys.txns.get x.txn).isSome

end Fronta.Feed
