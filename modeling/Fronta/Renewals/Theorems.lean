import Fronta.Lease.Theorems
import Fronta.Renewals.Lemmas.Timing

/-!
# What the renewal loop guarantees

A loop that sleeps owes no hint a heartbeat. A loop that is hardly late renews every healthy attempt before its
deadline.
-/

namespace Fronta.Renewals

open Lease Runs Sql Sys
open Worker (Ref)

variable {w : Env} {s t : Sys} {actions : List Action}

/-- What every reachable state knows of its leases and of the loop's call. -/
structure Known (w : Env) (s : Sys) : Prop where
  core : Core w.toEnv s.lease
  bounded : Bounded w.toEnv s.lease
  refreshing : Refreshing w.toEnv s.lease
  lone : Lone s.lease

theorem Known.step {action : Action} (h : Known w s) (hs : s.step w action = some t) : Known w t := by
  have hlease := step_lease hs
  exact ⟨h.core.step hlease, h.bounded.step h.core hlease, h.refreshing.step h.core h.bounded hlease,
    h.lone.step hlease⟩

theorem known_of_run (h : run (step w) (init w) actions = some s) : Known w s :=
  invariant (C := fun _ _ => True) (fun _ _ _ hk _ hs => hk.step hs)
    ⟨core_init, bounded_init, refreshing_init, lone_init⟩ (Along.trivial _ _) h

/-! ## Hints -/

/-- Where the loop sleeps with its event unset, every hint for an attempt in the map has had a heartbeat of that
attempt sent after it, unless the attempt was meanwhile settled, lost, past its deadline or out of the map. -/
theorem hints_answered {before after : List Action} {i : TaskId} {x : Ref} {t' : Sys}
    (h : run (step w) (init w) before = some t) (hx : t.lease.attempts.lookup i = some x)
    (hs : t.step w (.hint i) = some t') (h' : run (step w) t' after = some s) (hasleep : s.asleep = true) :
    (∃ sent action rest u, after = sent ++ action :: rest ∧ run (step w) t' sent = some u ∧ Sends w u action x) ∨
      Past (step w) (fun u => ¬ u.Tracks w i x) t' after := by
  obtain ⟨hidle, hset⟩ := asleep_iff.mp hasleep
  have hknown : ∀ {as u}, run (step w) t' as = some u → Known w u := fun hu =>
    known_of_run (run_append.mpr ⟨t, h, run_cons.mpr ⟨t', hs, hu⟩⟩)
  have hpends : Pends t' x ∨ ¬ t'.Tracks w i x := by
    by_cases ht : t'.Tracks w i x
    · obtain ⟨-, a', ha', -⟩ := ht
      obtain ⟨lease, hlease, rfl⟩ := Option.map_eq_some_iff.mp hs
      cases steps_of_step hlease with
      | @hint _ y hl =>
          cases hx.symm.trans hl
          rcases Table.get_modify_cases ha' with ⟨hne, -⟩ | ⟨-, a, -, rfl⟩
          · exact absurd rfl hne
          · exact Or.inl (.requested ha' rfl (by simp [hx]))
      | miss hl => rw [hx] at hl; cases hl
    · exact Or.inr ht
  have hcover : ((∃ sent action rest u, after = sent ++ action :: rest ∧ run (step w) t' sent = some u ∧
      Sends w u action x) ∨ Past (step w) (fun u => ¬ u.Tracks w i x) t' after) ∨ Pends s x := by
    refine history (I := fun as u => ((∃ sent action rest v, as = sent ++ action :: rest ∧
      run (step w) t' sent = some v ∧ Sends w v action x) ∨ Past (step w) (fun v => ¬ v.Tracks w i x) t' as) ∨
        Pends u x) (hpends.symm.imp_left fun hn => Or.inr (.now rfl hn)) (fun as action u u' hu hi hstep => ?_) h'
    rcases hi with (⟨sent, b, rest, v, rfl, hv, hsend⟩ | hp) | hp
    · exact Or.inl (Or.inl ⟨sent, b, rest ++ [action], v, by simp, hv, hsend⟩)
    · exact Or.inl (Or.inr (hp.append _))
    · by_cases ht : u.Tracks w i x
      · have hk := hknown hu
        rcases pends_step hk.lone hk.refreshing ht hp hstep with hp | hsend | hn
        · exact Or.inr hp
        · exact Or.inl (Or.inl ⟨as, action, [], u, rfl, hu, hsend⟩)
        · exact Or.inl (Or.inr (.now (run_append.mpr ⟨u, hu, run_cons.mpr ⟨u', hstep, rfl⟩⟩) hn))
      · exact Or.inl (Or.inr ((Past.now hu ht).append _))
  refine hcover.resolve_right fun hp => ?_
  cases hp with
  | requested _ _ hn => rw [hset] at hn; cases hn
  | sending hl => rw [hidle] at hl; cases hl
  | waiting haw => rw [(hknown h').lone.waiting _ _ haw] at hidle; cases hidle

section Runs

/-- The default settings. -/
def thirty : Env := ⟨Lease.thirty, 30, by decide +kernel⟩

/-- One claimed attempt, started at once. -/
def claimed : List Action :=
  [.statement (.enqueue 0 { type := "t", inputJson := "{}", policy := default }), .claim,
    .executeClaim 1 0 (fun _ => 0) "w" (fun _ => 7) [1], .dispatch 1, .begin 1]

/-- A hint comes while the loop waits for its call: the next pass sends another one. -/
theorem hints_answered_busy :
    let before : List Action := claimed ++ [.advance 5, .collect [1], .send]
    let after : List Action := [.stamp 1 1, .commit 1, .reply 1, .send, .collect [1], .send, .stamp 2 1, .commit 2,
      .reply 2, .send]
    ∃ t t' s, run (step thirty) (init thirty) before = some t ∧ t.step thirty (.hint 1) = some t' ∧
      run (step thirty) t' after = some s ∧
      ((∃ sent action rest u, after = sent ++ action :: rest ∧ run (step thirty) t' sent = some u ∧
        Sends thirty u action 1) ∨ Past (step thirty) (fun u => ¬ u.Tracks thirty 1 1) t' after) := by
  intro before after
  have hrun : (run (step thirty) (init thirty) before).any (fun t =>
      t.lease.attempts.lookup 1 = some 1 ∧ ((t.step thirty (.hint 1)).any fun t' =>
        (run (step thirty) t' after).any fun s => s.asleep)) = true := by decide +kernel
  obtain ⟨t, ht, hp⟩ := Option.any_eq_true _ _ |>.mp hrun
  simp only [decide_eq_true_eq, Option.any_eq_true] at hp
  obtain ⟨hx, t', ht', s, hs, hasleep⟩ := hp
  exact ⟨t, t', s, ht, ht', hs, hints_answered ht hx ht' hs hasleep⟩

end Runs

/-! ## Deadlines -/

/-- With a tenth of a second between a heartbeat and a lease, and a loop that is late by less than half a heartbeat
and sends one call in a pass, at once, which is answered within its budget like every other renewal: a healthy
attempt is stopped as lost only because the database refuses its heartbeat or its progress, never by the worker's
own deadline. -/
theorem lost_by_database {lag : ℚ} {action : Action} {s' : Sys} {x : Ref} {a a' : Attempt} (hslack : w.Slack lag)
    (hpunctual : Along (step w) (fun s action => s.punctual w lag action = true) (init w) (actions ++ [action]))
    (h : run (step w) (init w) actions = some s) (hs : s.step w action = some s') (ha : Healthy s x a)
    (ha' : s'.lease.objects.get x = some a') (hl : a'.cause = some .lost) : Refused s.lease x a action := by
  obtain ⟨hbefore, hlast⟩ := hpunctual.append h
  have hi : Known w s ∧ Prompt w lag s := by
    refine invariant (I := fun s => Known w s ∧ Prompt w lag s) (fun s action s' hi hpunctual hs => ?_)
      ⟨known_of_run run_nil, prompt_init hslack⟩ hbefore h
    obtain ⟨hk, hp⟩ := hi
    exact ⟨hk.step hs, hp.step hslack hk.lone hk.refreshing hk.bounded hpunctual hs⟩
  exact hi.2.refused_of_lost hslack hi.1.lone hi.1.refreshing hlast.1 hs ha ha' hl

/-- The row goes to another party, and the reply to the next heartbeat says so. -/
theorem lost_by_database_released :
    let actions : List Action := claimed ++
      [.statement (.complete 2 (fun _ => 0) [⟨1, 7, .release, none, by simp⟩]), .advance 5, .collect [1], .send,
        .advance 14, .commit 1]
    ∃ s s' a a', run (step thirty) (init thirty) actions = some s ∧ s.step thirty (.reply 1) = some s' ∧
      s.lease.objects.get 1 = some a ∧ a.cause = none ∧ s'.lease.objects.get 1 = some a' ∧ a'.cause = some .lost ∧
      Refused s.lease 1 a (.reply 1) := by
  intro actions
  have hrun : (run (step thirty) (init thirty) actions).any (fun s =>
      ((s.lease.objects.get 1).any fun a => a.phase = .running ∧ a.cause = none) ∧
        ((s.step thirty (.reply 1)).any fun s' => (s'.lease.objects.get 1).any fun a' => a'.cause = some .lost)) =
      true := by decide +kernel
  obtain ⟨s, hs, hp⟩ := Option.any_eq_true _ _ |>.mp hrun
  simp only [decide_eq_true_eq, Option.any_eq_true] at hp
  obtain ⟨⟨a, ha, hphase, hcause⟩, s', hs', a', ha', hl⟩ := hp
  have hslack : thirty.Slack 1 := ⟨by decide +kernel, by decide +kernel, by decide +kernel⟩
  have hpunctual : Along (step thirty) (fun s action => s.punctual thirty 1 action = true) (init thirty)
      (actions ++ [.reply 1]) := by decide +kernel
  exact ⟨s, s', a, a', hs, hs', ha, hcause, ha', hl,
    lost_by_database hslack hpunctual hs hs' ⟨ha, hphase, hcause⟩ ha' hl⟩

end Fronta.Renewals
