import Fronta.Lease.Lemmas.Cancel
import Fronta.Lease.Lemmas.Deadlines

/-!
# Leases

What a worker may conclude from its own clock about the rows that run under its tokens, whatever becomes
of its claims and renewals.
-/

namespace Fronta.Lease

open Runs Sql
open Worker (Cause Ref)

variable {w : Env} {s : Sys}

/-- A default worker whose clock is a thousand seconds ahead. -/
def thirty : Env := ⟨30, 10, 1000, by decide +kernel, by decide +kernel⟩

/-- A claim whose rows are dispatched twenty seconds after it was issued. -/
def late : List Action :=
  [.statement (.enqueue 0 { type := "t", inputJson := "{}", policy := default }), .claim,
    .executeClaim 1 0 (fun _ => 0) "w" (fun _ => 7) [1], .advance 20, .dispatch 1, .begin 1]

/-- An attempt stopped with CANCEL ran under its own token on a row whose cancel was requested, whatever
hints came or were lost. Its `cancel` completion is applied while the token is valid and charges nothing.
A running row whose cancel was requested runs on or ends, and is never queued. -/
theorem cancellation_protocol {actions : List Action}
    (hrun : run (Sys.step w) Sys.init actions = some s) :
    (∀ x a, s.objects.get x = some a → a.cause = some .cancel →
      ∃ before after s₀ t, actions = before ++ after ∧
        run (Sys.step w) Sys.init before = some s₀ ∧ s₀.held a.row a.token = some t ∧
        t.cancelRequestedAt ≠ none) ∧
    (∀ x a t now jitter cs applied db' c, s.objects.get x = some a → a.cause = some .cancel →
      s.held a.row a.token = some t → s.store.db.complete now jitter cs = .ok (applied, db') →
      c ∈ cs → c.id = a.row → c.token = a.token → c.kind = .cancel →
      (∃ t', db'.tasks.get a.row = some t' ∧ t'.state = .cancelled ∧ t'.failures = t.failures) ∧
        ⟨a.row, t.type, .cancelled, t.attempt⟩ ∈ applied) ∧
    ∀ i t action s', s.store.db.tasks.get i = some t → t.state = .running →
      t.cancelRequestedAt ≠ none → s.step w action = some s' →
      ∃ t', s'.store.db.tasks.get i = some t' ∧
        ((t'.state = .running ∧ t'.token = t.token ∧ t'.cancelRequestedAt ≠ none) ∨
          t'.state.terminal = true) := by
  have hcancels : Cancels w actions s := by
    refine (history (I := fun actions s => (Core w s ∧ Bounded w s ∧ Keyed s) ∧ Cancels w actions s)
      ⟨⟨core_init, bounded_init, keyed_init⟩, (fun _ _ h => by cases h), fun _ _ _ _ _ _ h => by cases h⟩
      ?_ hrun).2
    rintro actions action s s' hrun ⟨⟨hc, hb, hk⟩, hcancels⟩ hs
    exact ⟨⟨hc.step hs, hb.step hc hs, hk.step hs⟩, hcancels.step hc hb hk hrun hs⟩
  refine ⟨fun x a ha hcause => ?_,
    fun x a t now jitter cs applied db' c ha hcause ht hok hmem hid htok hkind => ?_,
    fun i t action s' ht hr hc hs => ?_⟩
  · obtain ⟨⟨before, after, s₀, he, hs₀, t, ht, hc⟩, -⟩ := hcancels.attempts x a ha hcause
    exact ⟨before, after, s₀, t, he, hs₀, ht, hc⟩
  · obtain ⟨hg, hr, htk⟩ := held_eq_some.mp ht
    have hc := (hcancels.attempts x a ha hcause).2 t ht
    rw [← hid] at hg ⊢
    exact Db.complete_cancel hok hmem hkind hg hr (htok ▸ htk) hc
  · have hsame : ∃ t', s.store.db.tasks.get i = some t' ∧
        ((t'.state = .running ∧ t'.token = t.token ∧ t'.cancelRequestedAt ≠ none) ∨
          t'.state.terminal = true) := ⟨t, ht, Or.inl ⟨hr, rfl, hc⟩⟩
    cases rest_step hs with
    | same hst => rw [hst]; exact hsame
    | advance => exact hsame
    | executed _ hst => rw [hst]; exact Db.exec_cancel_pending ht hr hc
    | issue => exact hsame
    | answer hst => rw [hst]; exact hsame

/-- A cancelled task is requeued and claimed again, a hint comes late, and the second attempt is
cancelled on its own account. -/
theorem cancellation_protocol_requeued :
    let cancel : Completion := ⟨1, 8, .cancel, none, by simp⟩
    let actions : List Action := late.take 3 ++
      [.dispatch 1, .begin 1, .statement (.requestCancel 1 1), .hint 1, .collect [1], .send,
        .stamp 1 1, .commit 1, .reply 1, .statement (.complete 2 (fun _ => 0) [⟨1, 7, .cancel, none, by simp⟩]),
        .statement (.requeue 3 1), .settle 1, .attemptDone 1, .claim,
        .executeClaim 2 4 (fun _ => 0) "w" (fun _ => 8) [1], .dispatch 2, .begin 2, .hint 1, .send,
        .collect [2], .send, .stamp 2 1, .commit 2, .reply 2, .statement (.requestCancel 5 1), .hint 1,
        .send, .collect [2], .send, .stamp 3 1, .commit 3, .reply 3]
    ∃ s a t applied db', run (Sys.step thirty) Sys.init actions = some s ∧
      s.objects.get 2 = some a ∧ a.cause = some .cancel ∧ s.held 1 8 = some t ∧
      s.store.db.complete 6 (fun _ => 0) [cancel] = .ok (applied, db') ∧
      ∃ t', db'.tasks.get 1 = some t' ∧ t'.state = .cancelled ∧ t'.failures = t.failures := by
  intro cancel actions
  have hrun : (run (Sys.step thirty) Sys.init actions).any (fun s =>
      ((s.objects.get 2).any fun a => a.cause = some .cancel ∧ a.row = 1 ∧ a.token = 8) ∧
      (s.held 1 8).isSome) = true := by decide +kernel
  obtain ⟨s, hs, hp⟩ := Option.any_eq_true _ _ |>.mp hrun
  simp only [decide_eq_true_eq, Option.any_eq_true, Option.isSome_iff_exists] at hp
  obtain ⟨⟨⟨row, token, _, _, _, cause, _, _, _⟩, ha, rfl, rfl, rfl⟩, t, ht⟩ := hp
  have hok : s.store.db.complete 6 (fun _ => 0) [cancel] =
      .ok (s.store.db.applyOutcomes 6 (fun _ => 0) [cancel]) := Db.complete_singleton cancel
  obtain ⟨hdone, -⟩ := (cancellation_protocol hs).2.1 2 _ t _ _ _ _ _ cancel ha rfl ht hok
    (List.mem_singleton_self _) rfl rfl rfl
  exact ⟨s, _, t, _, _, hs, ha, rfl, ht, hok, hdone⟩

end Fronta.Lease
