import Fronta.Dedupe.Lemmas.History

/-!
# One active task for a key

Calls of `enqueue` and `requeue` among all other statements, in any interleaving.
-/

namespace Fronta.Dedupe

open Runs Sql
open Feed (TxnId base_of_reachable unique_of_reachable)

variable {s s' : Sys} {as : List Action} {catalog : Catalog}

/-- A requeue that fails for a duplicate has found one. -/
theorem duplicate_of_requeue {caller : Option TxnId} {id : TaskId} {now : Time}
    (h : Reachable Sys.step (Sys.init catalog) s)
    (hr : s.requeue caller id now = some (.activeDuplicate, s')) :
    ∃ tasks t j u key, seen s.feed caller = some tasks ∧ tasks.get id = some t ∧ j ≠ id ∧
      tasks.get j = some u ∧ t.key = some key ∧ u.keyed t.type key = true := by
  have hf := feed_of_reachable h
  cases caller with
  | some p =>
      obtain ⟨-, hr⟩ := Option.ite_none_right_eq_some.mp hr
      obtain ⟨⟨e, f⟩, href, he⟩ := Option.map_eq_some_iff.mp hr
      cases he
      obtain ⟨x, hx, -, -, -, hdup⟩ := refuse_spec href
      obtain ⟨j, t, u, key, hj, ht, hk, hu, hkey⟩ := hdup rfl
      have ht' := (unique_of_reachable hf).rowOf (base_of_reachable hf) hx ht
      exact ⟨_, t, j, u, key, by rw [seen, hx, Option.map_some], ht', hj, hu, hk, hkey⟩
  | none =>
      simp only [Sys.requeue] at hr
      obtain ⟨f, hb, hr⟩ := Option.bind_eq_some_iff.mp hr
      obtain ⟨⟨e, f'⟩, href, he⟩ := Option.map_eq_some_iff.mp hr
      cases he
      obtain ⟨x, hx, -, -, -, hdup⟩ := refuse_spec href
      obtain ⟨j, t, u, key, hj, ht, hk, hu, hkey⟩ := hdup rfl
      cases hb
      obtain rfl := Option.some.inj (Table.get_insert_self.symm.trans hx)
      have hu' : s.feed.tasks.get j = some u := (Table.get_overlay_of_none (w := []) rfl).symm.trans hu
      exact ⟨_, t, j, u, key, rfl, ht, hj, hu', hk, hkey⟩

/-- At most one committed active task has a type and key. Every id that a call of `enqueue` returned is
the one under which it inserted its task, or was seen by the call as an active task with its type and
key, and then no step of the call wrote a row or published an event. A requeue that fails for an active
duplicate leaves tasks and events as they were. -/
theorem active_key_dedupe (hr : run Sys.step (Sys.init catalog) as = some s) :
    (∀ type key i j t u, s.feed.tasks.get i = some t → s.feed.tasks.get j = some u →
      t.keyed type key = true → u.keyed type key = true → i = j) ∧
    (∀ k c id inserted, s.calls.get k = some c → c.phase = .returned id inserted →
      if inserted then Past Sys.step (Entered k c id) (Sys.init catalog) as
      else Past Sys.step (Found k c id) (Sys.init catalog) as ∧ Quiet catalog k as) ∧
    ∀ caller id now s', s.requeue caller id now = some (.activeDuplicate, s') →
      (∃ tasks t j u key, seen s.feed caller = some tasks ∧ tasks.get id = some t ∧ j ≠ id ∧
        tasks.get j = some u ∧ t.key = some key ∧ u.keyed t.type key = true) ∧
      Silent s.feed s'.feed := by
  have hreach : Reachable Sys.step (Sys.init catalog) s := ⟨as, hr⟩
  refine ⟨(unique_of_reachable (feed_of_reachable hreach)).committed, fun k c id inserted hk hc => ?_,
    fun caller id now s' hq => ⟨duplicate_of_requeue hreach hq, (requeue_spec hq).2.1⟩⟩
  have h := (historyOk_of_run hr).calls k c hk
  unfold CallOk at h
  rw [hc] at h
  cases inserted with
  | true => exact h
  | false => exact h

/-- A task with a key. -/
def keyed : NewTask := { type := "t", inputJson := "{}", policy := default, key := some "k" }

/-- The task ends between the conflict of the second call and its lookup, so the call inserts another
one. The third call finds that one, and the first one cannot be requeued. -/
theorem active_key_dedupe_replaced :
    let actions : List Action :=
      [.enqueue keyed none, .enqueue keyed none, .enqueue keyed none, .insert 1 0, .reply 1, .insert 2 0,
        .sys (.begin 5 false), .sys (.within 3 .statement),
        .sys (.within 3 (.transition 1 (.requestCancel 5))), .sys (.commit 3), .find 2 false,
        .insert 2 6, .reply 2, .insert 3 7, .find 3 false]
    ∃ s c s', run Sys.step (Sys.init fun _ => none) actions = some s ∧ s.calls.get 3 = some c ∧
      c.phase = .returned 2 false ∧ s.requeue none 1 8 = some (.activeDuplicate, s') ∧
      Past Sys.step (Found 3 c 2) (Sys.init fun _ => none) actions ∧
      Quiet (fun _ => none) 3 actions ∧ Silent s.feed s'.feed := by
  intro actions
  have hrun : (run Sys.step (Sys.init fun _ => none) actions).any (fun s =>
      ((s.calls.get 3).any fun c => c.phase = .returned 2 false) &&
        (s.requeue none 1 8).any fun r => r.1 = .activeDuplicate) = true := by decide +kernel
  obtain ⟨s, hs, hp⟩ := Option.any_eq_true _ _ |>.mp hrun
  rw [Bool.and_eq_true] at hp
  obtain ⟨c, hc, hphase⟩ := Option.any_eq_true _ _ |>.mp hp.1
  obtain ⟨⟨e, s'⟩, hq, he⟩ := Option.any_eq_true _ _ |>.mp hp.2
  have hphase := of_decide_eq_true hphase
  obtain rfl := of_decide_eq_true he
  have h := active_key_dedupe hs
  obtain ⟨hfound, hquiet⟩ := h.2.1 3 c 2 false hc hphase
  exact ⟨s, c, s', hs, hc, hphase, hq, hfound, hquiet, (h.2.2 none 1 8 s' hq).2⟩

end Fronta.Dedupe
