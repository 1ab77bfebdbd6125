import Fronta.Feed.Transaction
import Fronta.Library.Runs

/-!
# Transactions, registrations and consumers at work at the same time

Every statement is a step of its own. A transaction sees the committed tables and its own writes, and
waits for the row locks of others; its writes reach the tables when it commits. Every write of a task
counts as an exclusive lock, since nothing takes a weaker one on tasks. A statement under repeatable read
keeps the first snapshot of its transaction and fails where a row that it wants has changed meanwhile, so
its steps here are among those of read committed. The history, the ledger and the windows only record
what happened.
-/

namespace Fronta.Feed

open Sql

/-- Where a consumer is in `subscribe` and in its iteration. -/
inductive Phase
  | starting
  | waiting (captured : List TxnId)
  | filling
  | ready
  | closed
  deriving DecidableEq, Repr

structure Consumer where
  name : Name
  generation : Generation
  batchSize : ℕ
  phase : Phase
  /-- The transaction of its last pull. -/
  txn : Option TxnId := none

/-- A registration with a backfill, its boundary and how much had happened when it committed. -/
structure Window where
  generation : Generation
  since : Option Time
  mark : ℕ

structure Sys where
  tasks : Table Row
  registrations : Table Registration
  events : Table Insertion
  catalog : Catalog
  txns : Table Txn
  locks : Locks Target TxnId
  consumers : Table Consumer
  /-- The committed changes, in the order of their commits. -/
  history : List Change
  /-- The committed insertions, in the order of their commits. -/
  ledger : List (Seq × Insertion)
  windows : List Window

/-- What a statement makes of its transaction, with the rows that it locks and the ids that it draws. -/
structure Outcome where
  txn : Txn
  locks : List (Target × Mode) := []
  tasks : ℕ := 0
  events : ℕ := 0

/-- The statements inside an open transaction. -/
inductive TxnAction
  | statement
  | enqueue (task : NewTask)
  | transition (id : TaskId) (op : RowOp)
  | purgeTask (id : TaskId) (retentionS : ℚ)
  | purgeEvent (seq : Seq) (retentionS : ℚ)
  | publish
  | fill (limit : ℕ)
  | fetch
  | ack
  | dropRegistration
  | seeEvents
  | dropEvent

inductive Action
  | begin (now : Time) (repeatable : Bool)
  | within (p : TxnId) (action : TxnAction)
  | commit (p : TxnId)
  | rollback (p : TxnId)
  | subscribe (name : Name) (states : List State) (types : Option (List Name))
      (backfill : Option (Option ℚ)) (batchSize : ℕ) (clock : Time)
  | capture (k : ConsumerId) (captured : List TxnId)
  | check (k : ConsumerId)
  | poll (k : ConsumerId)
  | chunk (k : ConsumerId) (now : Time)
  | pull (k : ConsumerId) (now : Time)
  | unsubscribe (name : Name) (now : Time)
  | leave (k : ConsumerId)
  | setPaused (name : Name) (paused : Bool)

namespace Sys

def init (catalog : Catalog) : Sys :=
  ⟨.empty, .empty, .empty, catalog, .empty, [], .empty, [], [], []⟩

variable (s : Sys) (p : TxnId) (x : Txn)

/-- The lock does not have to wait. -/
def free (r : Target) (m : Mode) : Bool := s.locks.grantable r p m

/-- The registration of a name and its generation. -/
def registered (name : Name) : Option (Generation × Registration) :=
  s.registrations.find fun r => r.name = name

/-! ## Statements on tasks -/

/-- The row that the transaction finds: its own version, else the committed one. -/
def rowOf (id : TaskId) : Option Row := (x.rows.lookup id).getD (s.tasks.get id)

/-- The transaction sees an active task with this type and key. -/
def taken (type : Name) (key : Option String) : Bool :=
  key.any fun k => ((s.tasks.overlay x.rows).find (Row.keyed type k)).isSome

/-- Another transaction has written such a task, so the unique index makes this one wait. -/
def contested (type : Name) (key : Option String) : Bool :=
  key.any fun k => s.txns.entries.any fun y =>
    y.1 ≠ p && y.2.rows.any fun w => w.2.any (Row.keyed type k)

/-- A new statement sees the subscriptions as they are now, unless the transaction is repeatable. -/
def statement : Option Outcome :=
  if x.hosts && x.notices.isEmpty then
    some { txn :=
      if x.repeatable && !x.snapshots.isEmpty then x
      else { x with snapshots := s.registrations :: x.snapshots } }
  else none

/-- `enqueue`: a task with the same type and key is left as it is. -/
def enqueue (task : NewTask) : Option Outcome :=
  match x.snapshots with
  | [] => none
  | snapshot :: _ =>
      if !(x.hosts && task.check.isOk) then none
      else if s.taken x task.type task.key then some { txn := x }
      else if s.contested p task.type task.key then none
      else some
        { txn := x.write snapshot s.tasks.next none (.enqueued x.now task) true
          locks := [(.task s.tasks.next, .update)]
          tasks := 1 }

/-- A transition of one row. A requeue fails where the row's key is taken. -/
def transition (id : TaskId) (op : RowOp) : Option Outcome :=
  match x.snapshots, s.rowOf x id with
  | snapshot :: _, some t =>
      if x.isPlain && op.now.all (· = x.now) && s.free p (.task id) .update &&
          !(op.isRequeue && (s.taken x t.type t.key || s.contested p t.type t.key)) then
        (op.apply t).map fun t' =>
          { txn := x.write snapshot id (some t) t' (op.publishes t')
            locks := [(.task id, .update)] }
      else none
  | _, _ => none

/-- `_PURGE_TASKS` -/
def purgeTask (id : TaskId) (retentionS : ℚ) : Option Outcome :=
  (s.rowOf x id).bind fun t =>
    if x.isPlain && t.purgeable x.now retentionS && s.free p (.task id) .update then
      some { txn := { x with rows := (id, none) :: x.rows }, locks := [(.task id, .update)] }
    else none

/-! ## Statements on events -/

/-- `purge_events` -/
def purgeEvent (seq : Seq) (retentionS : ℚ) : Option Outcome :=
  (s.events.get seq).bind fun n =>
    if x.isPlain && n.event.createdAt < x.now - retentionS && s.free p (.event seq) .update then
      some { txn := { x with deleted := seq :: x.deleted }, locks := [(.event seq, .update)] }
    else none

/-- `_PUBLISHED`: lock the subscription and insert the event. A deleted subscription is passed over, and
fails a repeatable transaction. -/
def publish : Option Outcome :=
  match x.notices with
  | [] => none
  | n :: rest =>
      match s.registrations.get n.generation with
      | none => if x.repeatable then none else some { txn := { x with notices := rest } }
      | some r =>
          if s.free p (.registration n.generation) .keyShare then
            some
              { txn := { x with
                  notices := rest
                  inserted := x.inserted ++
                    [(s.events.next, ⟨n.generation, n.applied.event r.name x.now,
                      .transition n.snapshot⟩)] }
                locks := [(.registration n.generation, .keyShare), (.event s.events.next, .update)]
                events := 1 }
          else none

/-- `backfill_chunk`: insert the chunk and prepare the marker's update. -/
def fill (limit : ℕ) : Option Outcome :=
  match x.role with
  | .chunk c =>
      if 1 ≤ limit && c.update.isNone then
        let next := Feed.chunk s.tasks c.types c.marker limit
        some
          { txn := { x with
              role := .chunk { c with update := some next.2 }
              inserted := next.1.zipIdx.map fun y =>
                (s.events.next + y.2,
                  ⟨c.generation, (y.1.2.applied y.1.1).event c.name x.now,
                    .backfill c.generation⟩) }
            locks := next.1.zipIdx.map fun y => (.event (s.events.next + y.2), .update)
            events := next.1.length }
      else none
  | _ => none

/-- The pull of `__anext__`: the first free events of the name in the order of their numbers. -/
def fetch : Option Outcome :=
  match x.role with
  | .pull f =>
      let seqs := ((s.events.entries.filter fun e =>
        e.2.event.subscription = f.name && s.free p (.event e.1) .update).take f.limit).map Prod.fst
      if f.batch.isNone && !seqs.isEmpty then
        some
          { txn := { x with role := .pull { f with batch := some seqs } }
            locks := seqs.map fun seq => (.event seq, .update) }
      else none
  | _ => none

/-- `ack`: delete the batch. The commit follows. -/
def ack : Option Outcome :=
  match x.role with
  | .pull f =>
      f.batch.bind fun seqs =>
        if f.acked then none
        else some { txn := { x with
          role := .pull { f with acked := true }
          deleted := seqs ++ x.deleted } }
  | _ => none

/-- The first DELETE of `unsubscribe`: wait for the row that it saw and pass over it if it has gone. -/
def dropRegistration : Option Outcome :=
  match x.role with
  | .unsubscribe u =>
      if u.dropped then none
      else
        match u.target.filter fun g => (s.registrations.get g).isSome with
        | none => some { txn := { x with role := .unsubscribe { u with target := none, dropped := true } } }
        | some g =>
            if s.free p (.registration g) .update then
              some { txn := { x with role := .unsubscribe { u with dropped := true } }
                     locks := [(.registration g, .update)] }
            else none
  | _ => none

/-- The second DELETE of `unsubscribe` sees the events that are committed under the name now. -/
def seeEvents : Option Outcome :=
  match x.role with
  | .unsubscribe u =>
      if u.dropped && u.visible.isNone then
        let seqs := (s.events.entries.filter fun e => e.2.event.subscription = u.name).map Prod.fst
        some { txn := { x with role := .unsubscribe { u with visible := some seqs } } }
      else none
  | _ => none

/-- The second DELETE of `unsubscribe`: wait for the next event and delete it, unless it has gone. -/
def dropEvent : Option Outcome :=
  match x.role with
  | .unsubscribe u =>
      match u.visible with
      | some (seq :: rest) =>
          let next := Role.unsubscribe { u with visible := some rest }
          if (s.events.get seq).isNone then some { txn := { x with role := next } }
          else if s.free p (.event seq) .update then
            some { txn := { x with role := next, deleted := seq :: x.deleted }
                   locks := [(.event seq, .update)] }
          else none
      | _ => none
  | _ => none

def act : TxnAction → Option Outcome
  | .statement => s.statement x
  | .enqueue task => s.enqueue p x task
  | .transition id op => s.transition p x id op
  | .purgeTask id retentionS => s.purgeTask p x id retentionS
  | .purgeEvent seq retentionS => s.purgeEvent p x seq retentionS
  | .publish => s.publish p x
  | .fill limit => s.fill x limit
  | .fetch => s.fetch p x
  | .ack => ack x
  | .dropRegistration => s.dropRegistration p x
  | .seeEvents => s.seeEvents x
  | .dropEvent => s.dropEvent p x

/-! ## Beginning and ending transactions -/

/-- The state after a statement of `p`. -/
def move (o : Outcome) : Sys :=
  { s with
    tasks := s.tasks.reserve o.tasks
    events := s.events.reserve o.events
    locks := s.locks.acquireAll p o.locks
    txns := s.txns.modify p fun _ => o.txn }

/-- Open a transaction that holds these locks. -/
def start (locks : List (Target × Mode)) : Sys :=
  { s with locks := s.locks.acquireAll s.txns.next locks, txns := s.txns.insert x }

/-- The end of a transaction. -/
def finish : Sys :=
  { s with locks := s.locks.release p, txns := s.txns.erase fun q _ => q = p }

/-- The registrations after a commit: a chunk stores its marker, an `unsubscribe` deletes its row. -/
def settle (registrations : Table Registration) : Role → Table Registration
  | .chunk c =>
      match c.update with
      | some marker => registrations.update fun _ r =>
          if r.name = c.name then some { r with backfill := marker } else none
      | none => registrations
  | .unsubscribe u => registrations.erase fun g _ => u.target = some g
  | _ => registrations

/-- A consumer whose chunk cleared the marker starts to pull. -/
def settleConsumers (consumers : Table Consumer) : Role → Table Consumer
  | .chunk c => consumers.update fun k consumer =>
      if k = c.consumer ∧ consumer.phase = .filling ∧ c.update.any Option.isNone then
        some { consumer with phase := .ready }
      else none
  | _ => consumers

def commit : Sys :=
  { s.finish p with
    tasks := s.tasks.overlay x.rows
    registrations := settle s.registrations x.role
    events := (s.events.overlay (x.inserted.map fun n => (n.1, some n.2))).erase
      fun seq _ => seq ∈ x.deleted
    consumers := settleConsumers s.consumers x.role
    history := s.history ++ x.changes
    ledger := s.ledger ++ x.inserted }

/-! ## Subscribing and consuming -/

/-- The checks of `subscribe` and `_normalize_backfill`. -/
def subscribable (name : Name) (types : Option (List Name)) (backfill : Option (Option ℚ))
    (batchSize : ℕ) : Bool :=
  (checkName name).isOk && types.all (fun ts => ts.all fun t => (checkName t).isOk) &&
    1 ≤ batchSize && batchSize ≤ 1000 && backfill.all fun w => w.all fun seconds => 0 ≤ seconds

/-- The INSERT of `register_subscription` and the consumer that waits for its backfill. -/
def create (name : Name) (states : List State) (types : Option (List Name)) (marker : Option Marker)
    (batchSize : ℕ) : Sys :=
  let g := s.registrations.next
  { s with
    registrations := s.registrations.insert ⟨name, states, types, marker⟩
    consumers := s.consumers.insert
      ⟨name, g, batchSize, if marker.isNone then .ready else .starting, none⟩
    windows := s.windows ++ (marker.map fun m => ⟨g, m.since, s.history.length⟩).toList }

/-- The UPDATE of `register_subscription`: generation and marker stay. -/
def refilter (g : Generation) (r : Registration) (states : List State) (types : Option (List Name))
    (batchSize : ℕ) : Sys :=
  { s with
    registrations := s.registrations.modify g fun r => { r with states := states, types := types }
    consumers := s.consumers.insert
      ⟨r.name, g, batchSize, if r.backfill.isNone then .ready else .starting, none⟩ }

def subscribe (name : Name) (states : List State) (types : Option (List Name))
    (backfill : Option (Option ℚ)) (batchSize : ℕ) (clock : Time) : Option Sys :=
  if !subscribable name types backfill batchSize then none
  else
    match s.registered name with
    | none =>
        let marker := backfill.map fun w => Marker.fresh (w.map fun seconds => clock - seconds) states
        some (s.create name states types marker batchSize)
    | some (g, r) =>
        if s.free s.txns.next (.registration g) .noKeyUpdate then
          some (s.refilter g r states types batchSize)
        else none

/-- The consumer in its new phase. -/
def enter (k : ConsumerId) (phase : Phase) (txn : Option TxnId) : Sys :=
  { s with consumers := s.consumers.modify k fun c => { c with phase := phase, txn := txn } }

/-- `backfill_blockers`: every open transaction that took a snapshot before the registration committed is
among the captured ones. -/
def captures (g : Generation) (captured : List TxnId) : Bool :=
  s.txns.entries.all fun y => !y.2.misses g || captured.contains y.1

/-- `backfill_chunk` up to the marker that it reads under its lock. -/
def beginChunk (k : ConsumerId) (now : Time) : Option Sys :=
  match s.consumers.get k with
  | some ⟨name, g, _, .filling, _⟩ =>
      match s.registered name with
      | none => some (s.enter k .closed none)
      | some (g', r) =>
          if !s.free s.txns.next (.registration g') .noKeyUpdate then none
          else if g' ≠ g then some (s.enter k .closed none)
          else
            match r.backfill with
            | none => some (s.enter k .ready none)
            | some m => some (s.start
                { now := now, repeatable := false, role := .chunk ⟨k, name, g, r.types, m, none⟩ }
                [(.registration g, .noKeyUpdate)])
  | _ => none

/-- `__anext__` up to its check of the registration, under the lock that the delivery keeps. -/
def beginPull (k : ConsumerId) (now : Time) : Option Sys :=
  match s.consumers.get k with
  | some ⟨name, g, batchSize, .ready, last⟩ =>
      let s := last.elim s s.finish
      match s.registered name with
      | none => some (s.enter k .closed none)
      | some (g', _) =>
          if !s.free s.txns.next (.registration g') .keyShare then none
          else if g' ≠ g then some (s.enter k .closed none)
          else some ((s.enter k .ready (some s.txns.next)).start
            { now := now, repeatable := false, role := .pull ⟨k, name, g, batchSize, none, false⟩ }
            [(.registration g, .keyShare)])
  | _ => none

def step : Action → Option Sys
  | .begin now repeatable =>
      some (s.start { now := now, repeatable := repeatable, role := .plain } [])
  | .within p action => (s.txns.get p).bind fun x => (s.act p x action).map (s.move p)
  | .commit p => (s.txns.get p).bind fun x => if x.complete then some (s.commit p x) else none
  | .rollback p => (s.txns.get p).map fun _ => s.finish p
  | .subscribe name states types backfill batchSize clock =>
      s.subscribe name states types backfill batchSize clock
  | .capture k captured =>
      match s.consumers.get k with
      | some ⟨_, g, _, .starting, _⟩ =>
          if s.captures g captured then some (s.enter k (.waiting captured) none) else none
      | _ => none
  | .check k =>
      match s.consumers.get k with
      | some ⟨name, g, _, .waiting _, _⟩ =>
          if (s.registered name).all fun y => y.1 ≠ g then some (s.enter k .closed none) else some s
      | _ => none
  | .poll k =>
      match s.consumers.get k with
      | some ⟨_, _, _, .waiting captured, _⟩ =>
          if captured.all fun p => (s.txns.get p).isNone then some (s.enter k .filling none) else none
      | _ => none
  | .chunk k now => s.beginChunk k now
  | .pull k now => s.beginPull k now
  | .unsubscribe name now =>
      if (checkName name).isOk then
        some (s.start
          { now := now
            repeatable := false
            role := .unsubscribe ⟨name, (s.registered name).map Prod.fst, false, none⟩ } [])
      else none
  | .leave k => some { s with consumers := s.consumers.erase fun k' _ => k' = k }
  | .setPaused name paused => (s.catalog name).map fun ty =>
      { s with catalog := fun n => if n = name then some { ty with paused := paused } else s.catalog n }

end Sys

end Fronta.Feed
