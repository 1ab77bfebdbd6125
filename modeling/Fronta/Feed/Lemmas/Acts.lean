import Fronta.Feed.System

/-!
# What a statement can do

`Acts` lists the outcomes of a statement with all that the statement has checked. What its transaction may
rely on, what it records and what it deletes split on it.
-/

namespace Fronta.Feed

open Sql

variable {s : Sys} {p : TxnId} {x : Txn} {o : Outcome} {action : TxnAction}

/-- The events that a delivery pulls. -/
def pulled (s : Sys) (p : TxnId) (f : Delivery) : List Seq :=
  ((s.events.entries.filter fun e =>
    e.2.event.subscription = f.name && s.free p (.event e.1) .update).take f.limit).map Prod.fst

inductive Acts (s : Sys) (p : TxnId) (x : Txn) : TxnAction → Outcome → Prop
  | again : Acts s p x .statement { txn := x }
  | look : x.notices = [] →
      Acts s p x .statement { txn := { x with snapshots := s.registrations :: x.snapshots } }
  | present {task : NewTask} : Acts s p x (.enqueue task) { txn := x }
  | insert {task : NewTask} {snapshot : Table Registration} {rest : List (Table Registration)} :
      x.snapshots = snapshot :: rest → s.taken x task.type task.key = false →
      s.contested p task.type task.key = false →
      Acts s p x (.enqueue task)
        { txn := x.write snapshot s.tasks.next none (.enqueued x.now task) true
          locks := [(.task s.tasks.next, .update)]
          tasks := 1 }
  | transition {id : TaskId} {op : RowOp} {snapshot : Table Registration}
      {rest : List (Table Registration)} {t t' : Row} : x.snapshots = snapshot :: rest →
      s.rowOf x id = some t → op.apply t = some t' → op.now.all (· = x.now) = true →
      x.isPlain = true → s.free p (.task id) .update = true →
      (op.isRequeue = true → s.taken x t.type t.key = false ∧ s.contested p t.type t.key = false) →
      Acts s p x (.transition id op)
        { txn := x.write snapshot id (some t) t' (op.publishes t'), locks := [(.task id, .update)] }
  | purgeTask {id : TaskId} {retentionS : ℚ} {t : Row} : s.rowOf x id = some t → x.isPlain = true →
      s.free p (.task id) .update = true →
      Acts s p x (.purgeTask id retentionS)
        { txn := { x with rows := (id, none) :: x.rows }, locks := [(.task id, .update)] }
  | purgeEvent {seq : Seq} {retentionS : ℚ} {n : Insertion} : s.events.get seq = some n →
      x.isPlain = true → n.event.createdAt < x.now - retentionS → s.free p (.event seq) .update = true →
      Acts s p x (.purgeEvent seq retentionS)
        { txn := { x with deleted := seq :: x.deleted }, locks := [(.event seq, .update)] }
  | skip {n : Notice} {rest : List Notice} : x.notices = n :: rest →
      s.registrations.get n.generation = none → Acts s p x .publish { txn := { x with notices := rest } }
  | publish {n : Notice} {rest : List Notice} {r : Registration} : x.notices = n :: rest →
      s.registrations.get n.generation = some r → s.free p (.registration n.generation) .keyShare = true →
      Acts s p x .publish
        { txn := { x with
            notices := rest
            inserted := x.inserted ++
              [(s.events.next, ⟨n.generation, n.applied.event r.name x.now, .transition n.snapshot⟩)] }
          locks := [(.registration n.generation, .keyShare), (.event s.events.next, .update)]
          events := 1 }
  | fill {c : ChunkCall} {limit : ℕ} : x.role = .chunk c → 1 ≤ limit → c.update = none →
      Acts s p x (.fill limit)
        { txn := { x with
            role := .chunk { c with update := some (chunk s.tasks c.types c.marker limit).2 }
            inserted := (chunk s.tasks c.types c.marker limit).1.zipIdx.map fun y =>
              (s.events.next + y.2,
                ⟨c.generation, (y.1.2.applied y.1.1).event c.name x.now, .backfill c.generation⟩) }
          locks := (chunk s.tasks c.types c.marker limit).1.zipIdx.map fun y =>
            (.event (s.events.next + y.2), .update)
          events := (chunk s.tasks c.types c.marker limit).1.length }
  | fetch {f : Delivery} : x.role = .pull f → f.batch = none →
      Acts s p x .fetch
        { txn := { x with role := .pull { f with batch := some (pulled s p f) } }
          locks := (pulled s p f).map fun seq => (.event seq, .update) }
  | ack {f : Delivery} {seqs : List Seq} : x.role = .pull f → f.batch = some seqs →
      Acts s p x .ack
        { txn := { x with role := .pull { f with acked := true }, deleted := seqs ++ x.deleted } }
  | passRegistration {u : Removal} : x.role = .unsubscribe u →
      Acts s p x .dropRegistration
        { txn := { x with role := .unsubscribe { u with target := none, dropped := true } } }
  | dropRegistration {u : Removal} {g : Generation} {r : Registration} : x.role = .unsubscribe u →
      u.target = some g → s.registrations.get g = some r → s.free p (.registration g) .update = true →
      Acts s p x .dropRegistration
        { txn := { x with role := .unsubscribe { u with dropped := true } }
          locks := [(.registration g, .update)] }
  | seeEvents {u : Removal} {seqs : List Seq} : x.role = .unsubscribe u →
      Acts s p x .seeEvents { txn := { x with role := .unsubscribe { u with visible := some seqs } } }
  | passEvent {u : Removal} {seq : Seq} {rest : List Seq} : x.role = .unsubscribe u →
      u.visible = some (seq :: rest) →
      Acts s p x .dropEvent { txn := { x with role := .unsubscribe { u with visible := some rest } } }
  | dropEvent {u : Removal} {seq : Seq} {rest : List Seq} {n : Insertion} : x.role = .unsubscribe u →
      u.visible = some (seq :: rest) → s.events.get seq = some n →
      s.free p (.event seq) .update = true →
      Acts s p x .dropEvent
        { txn := { x with
            role := .unsubscribe { u with visible := some rest }
            deleted := seq :: x.deleted }
          locks := [(.event seq, .update)] }

theorem acts_of_act (h : s.act p x action = some o) : Acts s p x action o := by
  cases action with
  | statement =>
      obtain ⟨hg, h⟩ := Option.ite_none_right_eq_some.mp h
      rw [Bool.and_eq_true, List.isEmpty_iff] at hg
      cases h
      by_cases hk : x.repeatable && !x.snapshots.isEmpty
      · rw [if_pos hk]; exact .again
      · rw [if_neg hk]; exact .look hg.2
  | enqueue task =>
      simp only [Sys.act, Sys.enqueue] at h
      split at h
      · cases h
      · rename_i hs
        obtain ⟨-, h⟩ := Option.ite_none_left_eq_some.mp h
        split at h
        · cases h; exact .present
        · rename_i ht
          obtain ⟨hc, h⟩ := Option.ite_none_left_eq_some.mp h
          rw [Bool.not_eq_true] at ht hc
          cases h
          exact .insert hs ht hc
  | transition id op =>
      simp only [Sys.act, Sys.transition] at h
      split at h
      · rename_i hs ht
        obtain ⟨hg, h⟩ := Option.ite_none_right_eq_some.mp h
        obtain ⟨t', ha, rfl⟩ := Option.map_eq_some_iff.mp h
        simp only [Bool.and_eq_true, Bool.not_eq_true', Bool.and_eq_false_iff,
          Bool.or_eq_false_iff] at hg
        exact .transition hs ht ha hg.1.1.2 hg.1.1.1 hg.1.2 fun hr => hg.2.resolve_left (by simp [hr])
      · cases h
  | purgeTask id retentionS =>
      obtain ⟨t, ht, h⟩ := Option.bind_eq_some_iff.mp h
      obtain ⟨hg, h⟩ := Option.ite_none_right_eq_some.mp h
      simp only [Bool.and_eq_true] at hg
      cases h
      exact .purgeTask ht hg.1.1 hg.2
  | purgeEvent seq retentionS =>
      obtain ⟨n, hn, h⟩ := Option.bind_eq_some_iff.mp h
      obtain ⟨hg, h⟩ := Option.ite_none_right_eq_some.mp h
      simp only [Bool.and_eq_true, decide_eq_true_eq] at hg
      cases h
      exact .purgeEvent hn hg.1.1 hg.1.2 hg.2
  | publish =>
      simp only [Sys.act, Sys.publish] at h
      split at h
      · cases h
      · rename_i hn
        split at h
        · rename_i hr
          obtain ⟨-, h⟩ := Option.ite_none_left_eq_some.mp h
          cases h
          exact .skip hn hr
        · rename_i hr
          obtain ⟨hg, h⟩ := Option.ite_none_right_eq_some.mp h
          cases h
          exact .publish hn hr hg
  | fill limit =>
      simp only [Sys.act, Sys.fill] at h
      split at h
      · rename_i c hc
        obtain ⟨hg, h⟩ := Option.ite_none_right_eq_some.mp h
        simp only [Bool.and_eq_true, decide_eq_true_eq, Option.isNone_iff_eq_none] at hg
        cases h
        exact .fill hc hg.1 hg.2
      · cases h
  | fetch =>
      simp only [Sys.act, Sys.fetch] at h
      split at h
      · rename_i f hf
        obtain ⟨hg, h⟩ := Option.ite_none_right_eq_some.mp h
        rw [Bool.and_eq_true, Option.isNone_iff_eq_none] at hg
        cases h
        exact .fetch hf hg.1
      · cases h
  | ack =>
      simp only [Sys.act, Sys.ack] at h
      split at h
      · rename_i f hf
        obtain ⟨seqs, hseqs, h⟩ := Option.bind_eq_some_iff.mp h
        obtain ⟨-, h⟩ := Option.ite_none_left_eq_some.mp h
        cases h
        exact .ack hf hseqs
      · cases h
  | dropRegistration =>
      simp only [Sys.act, Sys.dropRegistration] at h
      split at h
      · rename_i u hu
        obtain ⟨-, h⟩ := Option.ite_none_left_eq_some.mp h
        split at h
        · cases h; exact .passRegistration hu
        · rename_i g hg'
          obtain ⟨hg, h⟩ := Option.ite_none_right_eq_some.mp h
          obtain ⟨htarget, hr⟩ := Option.filter_eq_some_iff.mp hg'
          obtain ⟨r, hr⟩ := Option.isSome_iff_exists.mp hr
          cases h
          exact .dropRegistration hu htarget hr hg
      · cases h
  | seeEvents =>
      simp only [Sys.act, Sys.seeEvents] at h
      split at h
      · rename_i u hu
        obtain ⟨-, h⟩ := Option.ite_none_right_eq_some.mp h
        cases h
        exact .seeEvents hu
      · cases h
  | dropEvent =>
      simp only [Sys.act, Sys.dropEvent] at h
      split at h
      · rename_i u hu
        split at h
        · rename_i seq rest hv
          split at h
          · cases h; exact .passEvent hu hv
          · rename_i hn
            obtain ⟨hg, h⟩ := Option.ite_none_right_eq_some.mp h
            rw [Option.isNone_iff_eq_none] at hn
            obtain ⟨n, hn⟩ := Option.ne_none_iff_exists'.mp hn
            cases h
            exact .dropEvent hu hv hn hg
        · cases h
      · cases h

end Fronta.Feed
