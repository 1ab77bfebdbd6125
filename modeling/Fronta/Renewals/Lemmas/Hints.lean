import Fronta.Renewals.Lemmas.Turns

/-!
# Hints

A hinted attempt is requested while the event is set, or on a list of the loop, until its heartbeat is sent.
-/

namespace Fronta.Renewals

open Lease Runs Sql Wakeups
open Worker (Cause Ref)

namespace Sys

variable {w : Env} {s s' t : Sys} {action : Action} {actions bs : List Action} {i : TaskId} {x : Ref}

theorem step_lease (h : s.step w action = some s') : s.lease.step w.toEnv action = some s'.lease := by
  obtain ⟨lease, hl, rfl⟩ := Option.map_eq_some_iff.mp h
  exact hl

/-! ## The event -/

variable (w) in
/-- `_renew_now` -/
def event : Flag (step w) where
  isSet := renewNow
  sets := sets
  clears := clears
  isSet_of_sets hs ha := by
    obtain ⟨lease, -, rfl⟩ := Option.map_eq_some_iff.mp hs
    cases ‹Action› with
    | hint i => simp [show (_ : Option Ref).isSome = true from ha]
    | _ => cases ha
  isSet_kept hs hc hw := by
    obtain ⟨lease, -, rfl⟩ := Option.map_eq_some_iff.mp hs
    cases ‹Action› with
    | collect => cases hc
    | hint => simp [show Sys.renewNow _ = true from hw]
    | _ => exact hw

/-! ## Where a hint is -/

/-- Where a hinted attempt waits for its heartbeat. -/
inductive Pends (s : Sys) (x : Ref) : Prop
  | requested {a : Attempt} (hx : s.lease.objects.get x = some a) (hr : a.renewRequested = true)
      (hn : s.renewNow = true)
  | sending {due : List Ref} (hl : s.lease.loop = .sending due) (hx : x ∈ due)
  | waiting {c : CallId} {rest : List Ref} (ha : Awaits s.lease c rest) (hx : x ∈ rest)

theorem asleep_iff : s.asleep = true ↔ s.lease.loop = .idle ∧ s.renewNow = false := by
  unfold asleep
  cases s.lease.loop <;> simp

/-- The step sends a heartbeat for the attempt. -/
def Sends (w : Env) (s : Sys) (action : Action) (x : Ref) : Prop :=
  action = .send ∧ ∃ due, s.lease.loop = .sending due ∧ x ∈ s.lease.live w.toEnv (due.take 1000)

theorem Tracks.live {refs : List Ref} (h : s.Tracks w i x) (hx : x ∈ refs) : x ∈ s.lease.live w.toEnv refs := by
  obtain ⟨-, a, ha, hset, hlost, hdue⟩ := h
  refine List.mem_filter.mpr ⟨hx, ?_⟩
  rw [ha, Option.any_some, show a.overdue w.leaseS (s.lease.monotonic w.toEnv) = false from hdue, hset]
  simpa using hlost

theorem Tracks.due {a : Attempt} (h : s.Tracks w i x) (ha : s.lease.objects.get x = some a)
    (hr : a.renewRequested = true) : x ∈ s.lease.due w.toEnv := by
  obtain ⟨hl, b, hb, hset, hlost, -⟩ := h
  cases ha.symm.trans hb
  refine List.mem_filter.mpr ⟨mem_mapped.mpr ⟨i, hl⟩, ?_⟩
  rw [ha, Option.any_some, hset, hr]
  simpa using hlost

theorem pends_step (hlone : Lone s.lease) (hfresh : Refreshing w.toEnv s.lease) (ht : s.Tracks w i x)
    (hp : Pends s x) (hs : s.step w action = some s') : Pends s' x ∨ Sends w s action x ∨ ¬ s'.Tracks w i x := by
  have hlease := step_lease hs
  cases hp with
  | @requested a hx hr hn =>
      by_cases hcol : ∃ due, action = .collect due
      · obtain ⟨due, rfl⟩ := hcol
        obtain ⟨-, hp, he⟩ := collect_step hlease
        exact Or.inl (.sending (by rw [he]) (hp.mem_iff.mpr (ht.due hx hr)))
      by_cases ht' : s'.Tracks w i x
      · obtain ⟨-, a', ha', -⟩ := ht'
        have hn' : s'.renewNow = true := by
          refine (event w).isSet_kept hs ?_ hn
          cases action with
          | collect due => exact absurd ⟨due, rfl⟩ hcol
          | _ => rfl
        refine Or.inl (.requested ha' ?_ hn')
        rcases turned_step hfresh hlease (fun due he => hcol ⟨due, he⟩) ha' with ⟨hle, -⟩ | ⟨b, hb, hturn⟩
        · exact absurd (Table.lt_of_get hx) (Nat.not_lt.mpr hle)
        cases hx.symm.trans hb
        have hrenewed : ∀ started now beat, (a.renewed started now beat).renewRequested = true := by
          intro started now beat
          unfold Attempt.renewed
          split
          · exact hr
          · dsimp only
            split <;> exact hr
        cases hturn with
        | fades hf => exact hf.requested hr
        | start => exact hr
        | reply hc hw hx' hf =>
            rcases hf with hf | ⟨-, rfl⟩
            · exact hf.requested (hrenewed _ _ _)
            · exact hrenewed _ _ _
      · exact Or.inr (Or.inr ht')
  | @sending due hl hx =>
      cases flow_step hlease with
      | same hl' => exact Or.inl (.sending (hl'.trans hl) hx)
      | collect hl' => rw [hl] at hl'; cases hl'
      | sleep hl' => rw [hl] at hl'; cases hl'; cases hx
      | send hl' _ _ _ _ haw =>
          cases hl.symm.trans hl'
          rw [← List.take_append_drop 1000 due, List.mem_append] at hx
          rcases hx with hx | hx
          · exact Or.inr (Or.inl ⟨rfl, due, hl, ht.live hx⟩)
          · exact Or.inl (.waiting haw hx)
      | skip hl' hlive hl'' =>
          cases hl.symm.trans hl'
          rw [← List.take_append_drop 1000 due, List.mem_append] at hx
          rcases hx with hx | hx
          · have hmem := ht.live hx
            rw [hlive] at hmem
            cases hmem
          · exact Or.inl (.sending hl'' hx)
      | answer hd => rw [hlone.waiting _ _ hd] at hl; cases hl
  | @waiting c rest ha hx =>
      have hl := hlone.waiting _ _ ha
      cases flow_step hlease with
      | same _ hw => exact Or.inl (.waiting ((hw c rest).mpr ha) hx)
      | collect hl' => rw [hl] at hl'; cases hl'
      | sleep hl' => rw [hl] at hl'; cases hl'
      | send hl' => rw [hl] at hl'; cases hl'
      | skip hl' => rw [hl] at hl'; cases hl'
      | @answer _ d rest' _ hd _ hl' hw =>
          obtain rfl := hlone.unique _ _ _ _ ha hd
          obtain ⟨call, hc, -, hr⟩ := awaits_cases ha
          obtain ⟨call', hc', -, hr'⟩ := awaits_cases hd
          cases hc.symm.trans hc'
          rw [hr, Waiter.loop.injEq] at hr'
          exact Or.inl (.sending hl' (hr' ▸ hx))

end Sys

end Fronta.Renewals
