import Fronta.Feed.Lemmas.Batches
import Fronta.Feed.Lemmas.Published
import Fronta.Feed.Lemmas.Stages
import Fronta.Feed.Lemmas.Windows

/-!
# The event feed

What consumers may rely on in every reachable state, however transactions, registrations and consumers
interleave.
-/

namespace Fronta.Feed

open Runs Sql

variable {catalog : Catalog} {s s' : Sys}

/-- A task with the default policy. -/
def plain : NewTask := { type := "t", inputJson := "{}", policy := default }

/-- A transaction that enqueues a task and publishes to so many subscriptions. -/
def enqueues (p : TxnId) (now : Time) (subscriptions : ℕ) : List Action :=
  [.begin now false, .within p .statement, .within p (.enqueue plain)] ++
    List.replicate subscriptions (.within p .publish) ++ [.commit p]

/-! ## Registration identity -/

/-- Every committed event belongs to a registration that is there and was inserted by a transition that
saw it or by its own backfill. Chunks and deliveries only touch events of the generation that their
consumer is bound to, only a chunk changes a marker, namely that of its own generation, and a consumer
that was closed never has a delivery again. -/
theorem registration_identity (h : Reachable Sys.step (Sys.init catalog) s) :
    (∀ seq n, s.events.get seq = some n → ∃ r, s.registrations.get n.generation = some r ∧
      r.name = n.event.subscription ∧ n.origin.Admits n.generation) ∧
    (∀ p x call, s.txns.get p = some x → x.role = .chunk call →
      (∀ c, s.consumers.get call.consumer = some c → c.generation = call.generation) ∧
      x.deleted = [] ∧
      ∀ n ∈ x.inserted, n.2.generation = call.generation ∧ n.2.origin = .backfill call.generation) ∧
    (∀ p x f, s.txns.get p = some x → x.role = .pull f →
      (∀ c, s.consumers.get f.consumer = some c → c.generation = f.generation) ∧
      (∀ n ∈ x.inserted, n.2.origin.isTransition = true) ∧
      (∀ seqs, f.batch = some seqs → ∀ seq ∈ seqs,
        ∃ n, s.events.get seq = some n ∧ n.generation = f.generation) ∧
      ∀ seq ∈ x.deleted, ∃ n, s.events.get seq = some n ∧ n.generation = f.generation) ∧
    (∀ action s' g r r', s.step action = some s' → s.registrations.get g = some r →
      s'.registrations.get g = some r' → r'.backfill ≠ r.backfill →
      ∃ p x call, action = .commit p ∧ s.txns.get p = some x ∧ x.role = .chunk call ∧
        call.generation = g) ∧
    ∀ k c s', s.consumers.get k = some c → c.phase = .closed → Reachable Sys.step s s' →
      (∀ c', s'.consumers.get k = some c' → c'.phase = .closed) ∧
      ∀ p x f, s'.txns.get p = some x → x.role = .pull f → f.consumer ≠ k := by
  have hb := base_of_reachable h
  have hbound := bound_of_reachable h
  refine ⟨fun seq n hn => ?_, fun p x call hx hr => ?_, fun p x f hx hr => ?_,
    fun action s' g r r' hs hr hr' hne => marker_step hb (steps_of_step hs) hr hr' hne, fun k c s' hc hp hs => ?_⟩
  · obtain ⟨⟨r, hr, hname⟩, ha⟩ := hb.events seq n hn
    exact ⟨r, hr, hname, ha⟩
  · have hrole := (hb.txns p x hx).role
    rw [hr] at hrole
    have hrole : ChunkOk s p x call := hrole
    have hbind := hbound.txns p x _ _ _ hx (by rw [hr]; rfl)
    exact ⟨fun c hc => (hbind.same c hc).2, hrole.idle.2.2.2.1, hrole.inserted⟩
  · have hrole := (hb.txns p x hx).role
    rw [hr] at hrole
    have hrole : DeliveryOk s p x f := hrole
    have hbind := hbound.txns p x _ _ _ hx (by rw [hr]; rfl)
    have hbatch : ∀ seqs, f.batch = some seqs → ∀ seq ∈ seqs,
        ∃ n, s.events.get seq = some n ∧ n.generation = f.generation :=
      fun seqs hs seq hseq => (hrole.batch seqs hs seq hseq).2
    refine ⟨fun c hc => (hbind.same c hc).2, hrole.inserted, hbatch, fun seq hseq => ?_⟩
    obtain ⟨seqs, hs, hmem⟩ := hrole.deleted seq hseq
    exact hbatch seqs hs seq hmem
  · have he := (hbound.ended hc hp).reachable hs
    exact ⟨he.closed, he.idle⟩

/-- A name is given up and taken again, and the consumer of its first registration finds out. -/
theorem registration_identity_recreated :
    let actions : List Action :=
      [.subscribe "s" [.queued] none none 256 0] ++ enqueues 1 1 1 ++
        [.unsubscribe "s" 2, .within 2 .dropRegistration, .within 2 .seeEvents,
          .within 2 .dropEvent, .commit 2, .subscribe "s" [.queued] none none 256 3, .pull 1 4]
    ∃ s c, run Sys.step (Sys.init fun _ => none) actions = some s ∧ s.consumers.get 1 = some c ∧
      c.phase = .closed ∧ ∀ s', Reachable Sys.step s s' →
        (∀ c', s'.consumers.get 1 = some c' → c'.phase = .closed) ∧
        ∀ p x f, s'.txns.get p = some x → x.role = .pull f → f.consumer ≠ 1 := by
  intro actions
  have hrun : (run Sys.step (Sys.init fun _ => none) actions).any (fun s =>
      (s.consumers.get 1).any fun c => c.phase = .closed) = true := by decide +kernel
  obtain ⟨s, hs, hp⟩ := Option.any_eq_true _ _ |>.mp hrun
  obtain ⟨c, hc, hphase⟩ := Option.any_eq_true _ _ |>.mp hp
  have hphase := of_decide_eq_true hphase
  exact ⟨s, c, hs, hc, hphase, fun s' h =>
    (registration_identity ⟨actions, hs⟩).2.2.2.2 1 c s' hc hphase h⟩

/-! ## Delivery -/

/-- A committed event goes with the commit of the `ack` of an active batch that contains it, with a purge
past its retention while no active batch holds it, or with an `unsubscribe`. Active batches are disjoint.
What was written on a batch's connection is shown by the commit of its `ack` and never seen when its
transaction ends otherwise. The `ack` of a batch that is not active fails and changes nothing. -/
theorem delete_on_ack {c : Feeds} (h : Reachable Feeds.step (Feeds.init catalog) c) :
    (∀ a c' seq n, c.step a = some c' → c.sys.events.get seq = some n →
      c'.sys.events.get seq = none →
      (∃ b x, a = .commit b ∧ c.Active b x ∧ seq ∈ x.events) ∨
      ∃ p z, a = .sys (.commit p) ∧ c.sys.txns.get p = some z ∧ seq ∈ z.deleted ∧
        ((z.role = .plain ∧ ∀ b x, c.Active b x → seq ∉ x.events) ∨ ∃ u, z.role = .unsubscribe u)) ∧
    (∀ p z st o seq, c.sys.txns.get p = some z → z.role = .plain → c.sys.act p z st = some o →
      seq ∈ o.txn.deleted → seq ∉ z.deleted →
      ∃ retentionS n, st = .purgeEvent seq retentionS ∧ c.sys.events.get seq = some n ∧
        n.event.createdAt < z.now - retentionS ∧ ∀ b x, c.Active b x → seq ∉ x.events) ∧
    (∀ b b' x x', c.Active b x → c.Active b' x' → b ≠ b' → ∀ seq ∈ x.events, seq ∉ x'.events) ∧
    (∀ b x z, c.Active b x → c.sys.txns.get x.txn = some z → Unseen z c.sys ∧
      ∀ a c', c.step a = some c' →
        (a = .commit b → Shown z c'.sys) ∧
        (a ≠ .commit b → c'.sys.txns.get x.txn = none →
          ∀ c'', Reachable Feeds.step c' c'' → Unseen z c''.sys)) ∧
    ∀ b x, c.batches.get b = some x → ¬ c.Active b x →
      c.ack b = .error (if x.active then .connection else .inactive) ∧ c.step (.ack b) = some c := by
  have hok := feedsOk_of_reachable h
  have hb := base_of_reachable hok.reachable
  refine ⟨fun a c' seq n hs hn hgone => hok.gone hs hn hgone, fun p z st o seq hz hr ho hd hnd => ?_,
    fun b b' x x' ha ha' hne seq hseq hseq' => hne ?_, fun b x z ha hz => ⟨hok.unseen ha hz, ?_⟩,
    fun b x hx hn => hok.refused hx hn⟩
  · rcases deleted_of_act ho hd with hd | ⟨-, f, -, hf, -⟩ | ⟨retentionS, n, hst, -, hn, hold, hfree⟩ |
      ⟨u, hu⟩
    · exact absurd hd hnd
    · rw [hr] at hf; cases hf
    · refine ⟨retentionS, n, hst, hn, hold, fun b x ha hseq => ?_⟩
      -- the lock of the purge excludes the lock of the batch
      obtain ⟨-, z', f, hz', hf, -⟩ := hok.active ha
      have hp : x.txn = p := by
        by_contra hne
        cases Locks.grantable_iff.mp hfree _ _ (hok.held ha hseq) hne
      subst hp
      cases hz.symm.trans hz'
      rw [hr] at hf; cases hf
    · rw [hr] at hu; cases hu
  · have hx := hok.held ha hseq
    have hx' := hok.held ha' hseq'
    exact hok.unique ha ha' (hb.locks.sound.exclusive hx' hx)
  · intro a c' hs
    exact ⟨fun he => hok.shown ha hz (by rw [he] at hs; exact hs),
      fun hne hend c'' hlater => hok.lost ha hz hs hend hne hlater⟩

/-- A batch enqueues a follow-up task on its connection and is acknowledged. -/
theorem delete_on_ack_followed :
    let before : List Action := [.subscribe "s" [.queued] none none 256 0] ++ enqueues 1 1 1
    let actions : List Feeds.Action := before.map Feeds.Action.sys ++
        [.next 1 2, .fetch 1, .sys (.within 2 .statement), .sys (.within 2 (.enqueue plain)),
          .sys (.within 2 .publish), .ack 1]
    ∃ c c' x z n, run Feeds.step (Feeds.init fun _ => none) actions = some c ∧
      c.step (.commit 1) = some c' ∧ c.Active 1 x ∧ c.sys.txns.get x.txn = some z ∧
      z.rows.length = 1 ∧ c.sys.events.get 1 = some n ∧ c'.sys.events.get 1 = none ∧
      Shown z c'.sys ∧
      ((∃ b x, Feeds.Action.commit 1 = .commit b ∧ c.Active b x ∧ 1 ∈ x.events) ∨
        ∃ p z, Feeds.Action.commit 1 = .sys (.commit p) ∧ c.sys.txns.get p = some z ∧
          1 ∈ z.deleted ∧
          ((z.role = .plain ∧ ∀ b x, c.Active b x → 1 ∉ x.events) ∨
            ∃ u, z.role = .unsubscribe u)) := by
  intro before actions
  have hrun : (run Feeds.step (Feeds.init fun _ => none) actions).any (fun c =>
      ((c.batches.get 1).any fun x => x.active ∧
        (c.sys.txns.get x.txn).any fun z => z.rows.length = 1) ∧
      (c.sys.events.get 1).isSome ∧
      (c.step (.commit 1)).any fun c' => (c'.sys.events.get 1).isNone) = true := by decide +kernel
  obtain ⟨c, hc, hp⟩ := Option.any_eq_true _ _ |>.mp hrun
  simp only [decide_eq_true_eq, Option.any_eq_true, Option.isNone_iff_eq_none,
    Option.isSome_iff_exists] at hp
  obtain ⟨⟨x, hx, hactive, z, hz, hlen⟩, ⟨n, hn⟩, c', hc', hgone⟩ := hp
  have ha : c.Active 1 x := ⟨hx, hactive, by rw [hz]; rfl⟩
  have h := delete_on_ack ⟨actions, hc⟩
  exact ⟨c, c', x, z, n, hc, hc', ha, hz, hlen, hn, hgone,
    ((h.2.2.2.1 1 x z ha hz).2 _ c' hc').1 rfl, h.1 _ c' 1 n hc' hn hgone⟩

/-! ## The ledger -/

/-- While a registration keeps its filters, the events inserted for a task are numbered in the order of
their commits and say, one for one, which of the task's changes the filters select. -/
theorem events_eq_changes {g : Generation} {r : Registration} {actions : List Action}
    (h : Reachable Sys.step (Sys.init catalog) s) (hidle : ∀ p, s.txns.get p = none)
    (hrun : run Sys.step s actions = some s')
    (hfixed : Along Sys.step (fun s a => s.serves g r = true ∧ s.backfills g a = false) s actions) :
    ∃ changes events, s'.history = s.history ++ changes ∧ s'.ledger = s.ledger ++ events ∧
      ∀ i, (eventsFor g i events).Pairwise (fun a b => a.1 < b.1) ∧
        (eventsFor g i events).map (fun n => n.2.event.applied) = selected r i changes := by
  have hinit : LiveSince s g r s :=
    ⟨⟨[], [], by simp, by simp, rfl, by simp⟩, fun p x hx => by rw [hidle p] at hx; cases hx⟩
  have hlive := invariant (I := fun t => Base t ∧ LiveSince s g r t) (fun t a t' hi hc hs =>
    ⟨hi.1.step (steps_of_step hs), hi.2.step hi.1 hc.1 hc.2 (steps_of_step hs)⟩)
    ⟨base_of_reachable h, hinit⟩ hfixed hrun
  obtain ⟨changes, events, hh, hl, he, ht⟩ := hlive.2.appended
  have hsorted := (ordered_of_reachable (h.run hrun)).ledger
  rw [hl, List.pairwise_append] at hsorted
  refine ⟨changes, events, hh, hl, fun i => ⟨?_, ?_⟩⟩
  · refine (hsorted.2.1.filter _).imp_of_mem fun {a b} ha hb hab => ?_
    have ha := List.mem_filter.mp ha
    have hb := List.mem_filter.mp hb
    simp only [Bool.and_eq_true, decide_eq_true_eq] at ha hb
    exact hab (ht a ha.1 ha.2.1) (ht b hb.1 hb.2.1) (ha.2.2.trans hb.2.2.symm)
  · rw [← filter_published, he, filter_matching]

/-- A task is enqueued, claimed and completed under a subscription to two of the three states. -/
theorem events_eq_changes_completed :
    let subscribed : List Action := [.subscribe "s" [.queued, .succeeded] none none 256 0]
    let actions : List Action := enqueues 1 1 1 ++
      [.begin 2 false, .within 2 .statement, .within 2 (.transition 1 (.claim 2 2 30 "w" 7)),
        .commit 2, .begin 3 false, .within 3 .statement,
        .within 3 (.transition 1 (.complete 3 0 ⟨1, 7, .succeed, some "1", by simp⟩)),
        .within 3 .publish, .commit 3]
    ∃ s s' r, run Sys.step (Sys.init fun _ => none) subscribed = some s ∧
      s.registrations.get 1 = some r ∧ run Sys.step s actions = some s' ∧ s'.history.length = 3 ∧
      ∃ changes events, s'.history = s.history ++ changes ∧ s'.ledger = s.ledger ++ events ∧
        ∀ i, (eventsFor 1 i events).Pairwise (fun a b => a.1 < b.1) ∧
          (eventsFor 1 i events).map (fun n => n.2.event.applied) = selected r i changes := by
  intro subscribed actions
  have hrun : (run Sys.step (Sys.init fun _ => none) subscribed).any (fun s =>
      s.txns.entries.isEmpty ∧ (s.registrations.get 1).any (fun r =>
        Along Sys.step (fun s a => s.serves 1 r = true ∧ s.backfills 1 a = false) s actions) ∧
      (run Sys.step s actions).any fun s' => s'.history.length = 3) = true := by decide +kernel
  obtain ⟨s, hs, hp⟩ := Option.any_eq_true _ _ |>.mp hrun
  simp only [decide_eq_true_eq, Option.any_eq_true, List.isEmpty_iff] at hp
  obtain ⟨hidle, ⟨r, hr, hfixed⟩, s', hs', hlen⟩ := hp
  refine ⟨s, s', r, hs, hr, hs', hlen, events_eq_changes ⟨subscribed, hs⟩ (fun p => ?_) hs' hfixed⟩
  refine Option.eq_none_iff_forall_ne_some.mpr fun x hx => ?_
  have := Table.mem_entries.mpr hx
  rw [hidle] at this; cases this

/-! ## Backfill -/

/-- In a run that leaves the filters as they are, every row that a registration with an unbounded backfill
selects is told of in the ledger whenever the marker is cleared. -/
theorem backfill_leaves_no_gap {w : Window} {r : Registration} {actions : List Action}
    (hrun : run Sys.step (Sys.init catalog) actions = some s)
    (hfixed : Along Sys.step (fun s a => s.steady w.generation a = true) (Sys.init catalog) actions)
    (hw : w ∈ s.windows) (hall : w.since = none)
    (hr : s.registrations.get w.generation = some r) (hcleared : r.backfill = none) :
    ∀ i t, s.tasks.get i = some t → r.selects t.type t.state = true →
      Covers s.ledger w.generation (t.applied i) := by
  have hwin : Windowed w s := invariant (fun t a t' hi hc hs => by
    refine hi.step (steps_of_step hs) hc ?_
    cases a with
    | commit p => simp [Sys.timely, hall, Option.all_eq_true]
    | _ => rfl) windowed_init hfixed hrun
  obtain ⟨-, hcov⟩ := hwin.covered hw r hr
  intro i t hi hsel
  have hin : inWindow w.since t = true := by rw [hall]; simp [inWindow, finishedSince]
  rcases hcov.rows i t hi hsel (Or.inl hin) with hc | ⟨ha, -⟩
  · exact hc
  · rw [hcleared] at ha; cases ha

/-- A repeatable transaction that began before the registration commits a task while a consumer waits,
and another task follows the backfill. -/
theorem backfill_leaves_no_gap_straddled :
    let actions : List Action := enqueues 1 0 0 ++
      [.begin 1 true, .within 2 .statement, .within 2 (.enqueue plain),
        .subscribe "s" [.queued] none (some none) 256 2, .capture 1 [2], .commit 2, .poll 1,
        .chunk 1 3, .within 3 (.fill 100), .commit 3] ++ enqueues 4 4 1
    ∃ s r, run Sys.step (Sys.init fun _ => none) actions = some s ∧
      s.registrations.get 1 = some r ∧ s.tasks.next = 4 ∧
      ∀ i t, s.tasks.get i = some t → r.selects t.type t.state = true →
        Covers s.ledger 1 (t.applied i) := by
  intro actions
  have hrun : (run Sys.step (Sys.init fun _ => none) actions).any (fun s =>
      (s.windows.head?.any fun w => w.generation = 1 ∧ w.since = none) ∧
      ((s.registrations.get 1).any fun r => r.backfill.isNone) ∧ s.tasks.next = 4) = true := by
    decide +kernel
  obtain ⟨s, hs, hp⟩ := Option.any_eq_true _ _ |>.mp hrun
  simp only [decide_eq_true_eq, Option.any_eq_true, Option.isNone_iff_eq_none] at hp
  obtain ⟨⟨w, hw, hg, hall⟩, ⟨r, hr, hcleared⟩, hn⟩ := hp
  refine ⟨s, r, hs, hr, hn, ?_⟩
  rw [← hg] at hr ⊢
  exact backfill_leaves_no_gap hs (by rw [hg]; decide +kernel) (List.mem_of_mem_head? hw) hall hr
    hcleared

/-- A transaction that began before a window of no length ends a task after the registration, in a
statement that did not see it: neither the transition nor the backfill inserts an event. -/
theorem window_gap :
    ∃ (actions : List Action) (s : Sys) (w : Window) (r : Registration) (c : Change) (t : Row),
      run Sys.step (Sys.init fun _ => none) actions = some s ∧
      Along Sys.step (fun s a => s.steady w.generation a = true) (Sys.init fun _ => none) actions ∧
      w ∈ s.windows ∧ s.registrations.get w.generation = some r ∧ r.backfill = none ∧
      c ∈ s.history.drop w.mark ∧ c.applied.state.terminal = true ∧
      r.selects c.applied.type c.applied.state = true ∧
      s.tasks.get c.applied.id = some t ∧ t.applied c.applied.id = c.applied ∧
      ¬ Covers s.ledger w.generation c.applied := by
  let task : NewTask := { type := "t", inputJson := "{}", policy := default }
  let actions : List Action :=
    [.begin 0 false, .within 1 .statement, .within 1 (.enqueue task), .commit 1,
      .begin 1 false, .within 2 .statement, .within 2 (.transition 1 (.claim 1 1 30 "w" 7)), .commit 2,
      .begin 5 false, .within 3 .statement, .subscribe "s" [.succeeded] none (some (some 0)) 256 10,
      .within 3 (.transition 1 (.complete 5 0 ⟨1, 7, .succeed, some "1", by simp⟩)),
      .capture 1 [3], .commit 3, .poll 1, .chunk 1 11, .within 4 (.fill 100), .commit 4]
  have hrun : (run Sys.step (Sys.init fun _ => none) actions).any (fun s =>
      (s.windows.head?.any fun w => w.generation = 1 ∧ w.mark = 2) ∧
      ((s.registrations.get 1).any fun r =>
        r.backfill.isNone ∧ r.selects "t" .succeeded = true) ∧
      ((s.history.drop 2).head?.any fun c => c.applied = ⟨1, "t", .succeeded, 1⟩) ∧
      ((s.tasks.get 1).any fun t => t.applied 1 = ⟨1, "t", .succeeded, 1⟩) ∧
      s.ledger.length = 0) = true := by decide +kernel
  obtain ⟨s, hs, hp⟩ := Option.any_eq_true _ _ |>.mp hrun
  simp only [decide_eq_true_eq, Option.any_eq_true, Option.isNone_iff_eq_none] at hp
  obtain ⟨⟨w, hw, hg, hm⟩, ⟨r, hr, hcleared, hsel⟩, ⟨c, hc, ha⟩, ⟨t, ht, hta⟩, hl⟩ := hp
  refine ⟨actions, s, w, r, c, t, hs, ?_, List.mem_of_mem_head? hw, ?_⟩
  · rw [hg]; decide +kernel
  rw [hg, hm, ha]
  refine ⟨hr, hcleared, List.mem_of_mem_head? hc, rfl, hsel, ht, hta, ?_⟩
  rintro ⟨n, hn, -⟩
  rw [List.length_eq_zero_iff.mp hl] at hn; cases hn

/-- In a run that leaves the filters as they are and in which every transaction that ends a selected task
without having seen the registration has begun within the window, no such transition is lost: those that
are committed when the marker is cleared and still show in their rows are told of in the ledger from then
on, and so are all that commit later. -/
theorem window_leaves_no_gap {w : Window} {s₀ : Sys} {r₀ r : Registration} {before after : List Action}
    (hbefore : run Sys.step (Sys.init catalog) before = some s₀)
    (hfixed : Along Sys.step (fun s a => s.steady w.generation a = true ∧ s.timely w a = true)
      (Sys.init catalog) before)
    (hw : w ∈ s₀.windows) (hr₀ : s₀.registrations.get w.generation = some r₀)
    (hcleared : r₀.backfill = none) (hafter : run Sys.step s₀ after = some s)
    (hkept : Along Sys.step (fun s a => s.steady w.generation a = true) s₀ after)
    (hr : s.registrations.get w.generation = some r) :
    (∀ c ∈ s₀.history.drop w.mark, r.selects c.applied.type c.applied.state = true →
      (∃ t, s₀.tasks.get c.applied.id = some t ∧ t.applied c.applied.id = c.applied) →
      Covers s.ledger w.generation c.applied) ∧
    ∀ c ∈ s.history.drop s₀.history.length, r.selects c.applied.type c.applied.state = true →
      Covers s.ledger w.generation c.applied := by
  have hwin : Windowed w s₀ := invariant (fun t a t' hi hc hs => hi.step (steps_of_step hs) hc.1 hc.2)
    windowed_init hfixed hbefore
  have hsince : FilledSince w r₀ s₀ s := by
    refine invariant (I := FilledSince w r₀ s₀) (fun t a t' hi hc hs => hi.step (steps_of_step hs) hc)
      ⟨hwin, hw, fun r hr => ?_⟩ hkept hafter
    cases hr.symm.trans hr₀
    exact ⟨⟨hcleared, [], [], by simp, by simp, fun c hc => by cases hc⟩, rfl, rfl⟩
  obtain ⟨⟨-, changes, events, hh, hl, hall⟩, hstates, htypes⟩ := hsince.filled r hr
  refine ⟨fun c hc hsel ⟨t, ht, hta⟩ => ?_, fun c hc hsel => ?_⟩
  · obtain ⟨-, hcov⟩ := hwin.covered hw r₀ hr₀
    rw [← hta] at hsel ⊢
    rw [selects_congr hstates htypes] at hsel
    have hdue : Due w s₀ c.applied.id t := Or.inr ⟨c, hc, rfl⟩
    rcases hcov.rows _ t ht hsel hdue with hc | ⟨ha, -⟩
    · exact hc.mono (hl ▸ List.subset_append_left _ _)
    · rw [hcleared] at ha; cases ha
  · rw [hh, List.drop_left] at hc
    exact hall c hc hsel

/-- The same transaction has begun within a window of ten seconds, so the backfill finds its task. -/
theorem window_leaves_no_gap_straddled :
    let before : List Action := enqueues 1 0 0 ++
      [.begin 1 false, .within 2 .statement, .within 2 (.transition 1 (.claim 1 1 30 "w" 7)),
        .commit 2, .begin 5 false, .within 3 .statement,
        .subscribe "s" [.succeeded] none (some (some 10)) 256 10,
        .within 3 (.transition 1 (.complete 5 0 ⟨1, 7, .succeed, some "1", by simp⟩)),
        .capture 1 [3], .commit 3, .poll 1, .chunk 1 11, .within 4 (.fill 100), .commit 4]
    ∃ s w r, run Sys.step (Sys.init fun _ => none) before = some s ∧ w ∈ s.windows ∧
      s.registrations.get w.generation = some r ∧ (s.history.drop w.mark).length = 1 ∧
      ∀ c ∈ s.history.drop w.mark, r.selects c.applied.type c.applied.state = true →
        (∃ t, s.tasks.get c.applied.id = some t ∧ t.applied c.applied.id = c.applied) →
        Covers s.ledger w.generation c.applied := by
  intro before
  have hrun : (run Sys.step (Sys.init fun _ => none) before).any (fun s =>
      (s.windows.head?.any fun w => (w.generation = 1 ∧ w.since = some 0 ∧ w.mark = 2) ∧
        (s.history.drop w.mark).length = 1) ∧
      (s.registrations.get 1).any fun r => r.backfill.isNone) = true := by decide +kernel
  obtain ⟨s, hs, hp⟩ := Option.any_eq_true _ _ |>.mp hrun
  simp only [decide_eq_true_eq, Option.any_eq_true, Option.isNone_iff_eq_none] at hp
  obtain ⟨⟨⟨g, since, mark⟩, hw, ⟨hg, hsince, hmark⟩, hlen⟩, r, hr, hcleared⟩ := hp
  subst hg hsince hmark
  have hw := List.mem_of_mem_head? hw
  have hfixed : Along Sys.step (fun s a => s.steady 1 a = true ∧ s.timely ⟨1, some 0, 2⟩ a = true)
      (Sys.init fun _ => none) before := by decide +kernel
  have hnow : run Sys.step s [] = some s := rfl
  exact ⟨s, ⟨1, some 0, 2⟩, r, hs, hw, hr, hlen,
    (window_leaves_no_gap hs hfixed hw hr hcleared hnow True.intro hr).1⟩

/-! ## Event identity -/

/-- In a run without a manual requeue, two live events that were ever inserted for a registration, or that
now lie in the table under one name, differ in the task, the attempt or the state. -/
theorem event_identity {actions : List Action} (hr : run Sys.step (Sys.init catalog) actions = some s)
    (hq : ∀ a ∈ actions, a.requeues = false) :
    (∀ seq seq' n n', (seq, n) ∈ s.ledger → (seq', n') ∈ s.ledger → n.origin.isTransition = true →
      n'.origin.isTransition = true → n.generation = n'.generation → n.key = n'.key →
      (seq, n) = (seq', n')) ∧
    ∀ seq seq' n n', s.events.get seq = some n → s.events.get seq' = some n' →
      n.origin.isTransition = true → n'.origin.isTransition = true →
      n.event.subscription = n'.event.subscription → n.key = n'.key → seq = seq' := by
  obtain ⟨hb, hs⟩ := staged_of_run hr hq
  have hledger : ∀ seq seq' n n', (seq, n) ∈ s.ledger → (seq', n') ∈ s.ledger →
      n.origin.isTransition = true → n'.origin.isTransition = true → n.generation = n'.generation →
      n.key = n'.key → (seq, n) = (seq', n') := by
    intro seq seq' n n' hn hn' ht ht' hg hk
    by_contra hne
    have hpair := hs.ledger
    rw [liveOf, List.pairwise_map] at hpair
    have hapart : (s.ledger.filter fun n => n.2.origin.isTransition).Pairwise fun a b =>
        a.2.generation = b.2.generation → a.2.key ≠ b.2.key := by
      refine hpair.imp fun {a b} h hg hk => ?_
      simp only [Insertion.key, Prod.mk.injEq] at hk
      have hlt := h hg hk.1
      simp [Event.applied, Applied.rank, hk.2.1, hk.2.2] at hlt
    have hsymm : Std.Symm fun a b : Seq × Insertion => a.2.generation = b.2.generation → a.2.key ≠ b.2.key :=
      ⟨fun a b h hg hk => h hg.symm hk.symm⟩
    exact hapart.forall (List.mem_filter.mpr ⟨hn, ht⟩) (List.mem_filter.mpr ⟨hn', ht'⟩) hne hg hk
  refine ⟨hledger, fun seq seq' n n' hn hn' ht ht' hname hk => ?_⟩
  have hg : n.generation = n'.generation :=
    hb.names _ _ n'.event.subscription (hname ▸ (hb.events seq n hn).1) (hb.events seq' n' hn').1
  cases hledger seq seq' n n' (hs.told seq n hn) (hs.told seq' n' hn') ht ht' hg hk
  rfl

/-- A task is queued twice, once by its enqueue and once by its release, and cancelled in the queue. -/
theorem event_identity_released :
    let actions : List Action := [.subscribe "s" [.queued, .running, .cancelled] none none 256 0] ++
      enqueues 1 1 1 ++
      [.begin 2 false, .within 2 .statement, .within 2 (.transition 1 (.claim 2 2 30 "w" 7)),
        .within 2 .publish, .commit 2,
        .begin 3 false, .within 3 .statement,
        .within 3 (.transition 1 (.complete 3 0 ⟨1, 7, .release, none, by simp⟩)), .within 3 .publish, .commit 3,
        .begin 4 false, .within 4 .statement, .within 4 (.transition 1 (.requestCancel 4)),
        .within 4 .publish, .commit 4]
    ∃ s, run Sys.step (Sys.init fun _ => none) actions = some s ∧
      s.ledger.map (fun n => n.2.key) =
        [(1, 0, .queued), (1, 1, .running), (1, 1, .queued), (1, 1, .cancelled)] ∧
      ∀ seq seq' n n', (seq, n) ∈ s.ledger → (seq', n') ∈ s.ledger → n.origin.isTransition = true →
        n'.origin.isTransition = true → n.generation = n'.generation → n.key = n'.key →
        (seq, n) = (seq', n') := by
  intro actions
  have hrun : (run Sys.step (Sys.init fun _ => none) actions).any (fun s =>
      s.ledger.map (fun n => n.2.key) =
        [(1, 0, .queued), (1, 1, .running), (1, 1, .queued), (1, 1, .cancelled)]) = true := by decide +kernel
  obtain ⟨s, hs, hp⟩ := Option.any_eq_true _ _ |>.mp hrun
  exact ⟨s, hs, of_decide_eq_true hp, (event_identity hs (by decide +kernel)).1⟩

end Fronta.Feed
