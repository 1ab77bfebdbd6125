import Fronta.Claim.Lemmas.Admission

/-!
# Rounds follow the walk to its end

A round takes the first ready rows. The waiting rows that are not ready are blocked, so the walk over
the rows that a round leaves is the walk over the rows that the next round sees.
-/

namespace Fronta.Claim

open Sql

variable {r : Request} {w : View} {clock : ℕ → Time} {v v' : Vars} {admitted : List Candidate}
  {c : Candidate} {limited : Bool}

/-- No other transaction is at work. -/
structure View.Alone (w : View) : Prop where
  busy : ∀ i, w.busy i = false
  typeBusy : ∀ type m, w.typeBusy type m = false

/-- The waiting rows that no round has seen. -/
def View.unseen (w : View) (types : List Name) (skip : List TaskId) : List Candidate :=
  (w.waiting types).filter fun c => !skip.contains c.id

theorem lockLimits_eq (ha : w.Alone) (type : Name) (limited : Bool) :
    lockLimits w type limited = w.catalog type := by
  have hrow : ∀ m, w.lockRow type m = w.catalog type := fun m => by
    simp [View.lockRow, ha.typeBusy]
  cases limited with
  | true => simp [lockLimits, hrow]
  | false =>
      simp only [lockLimits, hrow, Bool.false_eq_true, ↓reduceIte]
      cases w.catalog type with
      | none => rfl
      | some ty => simp

theorem locked_eq_true (ha : w.Alone) (hc : c ∈ w.waiting r.types) : w.locked c = true := by
  obtain ⟨t, ht, hw, he⟩ := View.mem_waiting.mp hc
  simp only [View.waits, Bool.and_eq_true] at hw
  have htype : t.type = c.type := by rw [he]; rfl
  simp [View.locked, ha.busy, ht, hw.1.1, htype]

/-- Seen rows that are not ready again: what excludes a waiting row blocks it. -/
theorem Represents.blocked_of_not_ready (h : Represents w v admitted) (hc : c ∈ w.waiting r.types)
    (hs : v.skip.contains c.id = false) (hr : w.ready r.types v.skips c = false) :
    w.blocked admitted c = true := by
  obtain ⟨htypes, ty, hcat, hp⟩ := View.type_of_waiting hc
  by_cases he : (w.eligible r.types v.skips c.type).isSome = true
  · have hu : w.unsaturated r.types v.skips c = false := by
      have hs' : v.skips.ids.contains c.id = false := hs
      simpa only [View.ready, he, hs', Bool.not_false, Bool.true_and] using hr
    rw [View.unsaturated] at hu
    cases hk : c.concurrencyKey with
    | none => simp [hk] at hu
    | some key =>
        simp only [hk, Option.all_some, Bool.not_eq_false', View.saturated, Bool.or_eq_true,
          Bool.and_eq_true, decide_eq_true_eq, hcat, Option.any_some, Vars.skips,
          List.contains_iff_mem, Option.any_eq_true] at hu
        rcases hu with hu | ⟨-, n, hn, hle⟩
        · exact h.keys c key hu hk
        · have : w.keyFull admitted c = true := by
            simp only [View.keyFull, hcat, Option.any_some, hn, hk, decide_eq_true_eq]
            omega
          simp [View.blocked, this]
  · rw [View.eligible_isSome] at he
    by_cases hskip : c.type ∈ v.skipTypes
    · exact h.types c hskip
    · cases hmax : ty.maxConcurrency with
      | none =>
          refine absurd ⟨htypes, ?_, ty, hcat, hp, by simp [hmax]⟩ he
          simpa [Vars.skips] using hskip
      | some n =>
          by_cases hn : running w.tasks c.type < n
          · refine absurd ⟨htypes, ?_, ty, hcat, hp, by simp [hmax, hn]⟩ he
            simpa [Vars.skips] using hskip
          · have : w.typeFull admitted c = true := by
              simp only [View.typeFull, hcat, Option.any_some, hmax, decide_eq_true_eq]
              omega
            simp [View.blocked, this]

/-- The walk over the ready rows is the walk over all rows not seen. -/
theorem Represents.greedy_ready (h : Represents w v admitted) :
    w.greedy r.cap admitted (w.readyRows r.types v.skips) =
      w.greedy r.cap admitted (w.unseen r.types v.skip) := by
  have he : w.readyRows r.types v.skips =
      (w.unseen r.types v.skip).filter (w.ready r.types v.skips) := by
    rw [View.readyRows, View.unseen, List.filter_filter]
    refine List.filter_congr fun c _ => ?_
    rw [View.ready, Vars.skips]
    cases v.skip.contains c.id <;> simp
  rw [he, View.greedy_filter]
  intro c hc hr
  obtain ⟨hc, hs⟩ := List.mem_filter.mp hc
  exact h.blocked_of_not_ready hc (by simpa using hs) hr

section

variable (ha : w.Alone) (hclock : ∀ n, clock n < clock 0 + r.deadlineS)
include ha hclock

theorem follows_visit (limited : Bool) (h : Represents w v admitted) (hc : c ∈ w.waiting r.types)
    (hcap : admitted.length < r.cap) :
    Follows w r.cap (v.skip ++ [c.id]) admitted c (visit r w clock v c limited) := by
  have hsee := h.see c.id
  have hskip : (v.see c.id).skip = v.skip ++ [c.id] := rfl
  rw [visit, ← hskip]
  split
  · rename_i hor
    have hmem : c.type ∈ (v.see c.id).skipTypes := by
      rcases hor with hl | hm
      · rw [locked_eq_true ha hc] at hl; cases hl
      · exact hm
    exact follows_blocked hsee rfl (hsee.types c hmem) hcap
  · split
    · rename_i e he
      exact follows_checkRow hclock hsee he hcap
    · rename_i hn
      obtain ⟨-, ty, hcat, hp⟩ := View.type_of_waiting hc
      have hlock : lockType w (v.see c.id) c limited =
          ((v.see c.id).enter c.type ty (running w.tasks c.type),
            ((v.see c.id).enter c.type ty (running w.tasks c.type)).entry c.type) := by
        simp [lockType, lockLimits_eq ha, hcat, hp]
      rw [hlock]
      split
      · rename_i heq
        rw [Prod.mk.injEq, Represents.entry_enter hn] at heq
        cases heq.2
      · rename_i v' e heq
        obtain ⟨rfl, he⟩ := Prod.mk.inj heq
        exact follows_checkRow hclock (hsee.enter hn hcat) he hcap

/-- The inner loop does what the walk does with the rows of the round. -/
theorem visitAll_spec {cs : List Candidate} {f : Candidate → Candidate × Bool}
    (hf : ∀ c, (f c).1 = c) (h : Represents w v admitted) (hcs : ∀ c ∈ cs, c ∈ w.waiting r.types)
    (hcap : admitted.length < r.cap) :
    match visitAll r w clock v (cs.map f) with
    | (v', .exit) =>
        ∀ more, v'.ids = (w.greedy r.cap admitted (cs ++ more)).map Candidate.id
    | (v', .continue) => v'.skip = v.skip ++ cs.map Candidate.id ∧
        ∃ admitted', admitted <+: admitted' ∧ admitted'.length < r.cap ∧
          Represents w v' admitted' ∧
          ∀ more, w.greedy r.cap admitted (cs ++ more) = w.greedy r.cap admitted' more := by
  induction cs generalizing v admitted with
  | nil => exact ⟨by simp, admitted, List.prefix_rfl, hcap, h, fun _ => rfl⟩
  | cons c cs ih =>
      have hfollows := follows_visit ha hclock (f c).2 h (hcs c List.mem_cons_self) hcap
      have hrest := fun d hd => hcs d (List.mem_cons_of_mem c hd)
      simp only [List.map_cons, visitAll, hf]
      cases hv : visit r w clock v c (f c).2 with
      | mk v₁ next =>
          rw [hv] at hfollows
          cases next with
          | exit => exact fun more => hfollows (cs ++ more)
          | «continue» =>
              obtain ⟨hskip, adm₁, hpre, hcap₁, h₁, hwalk⟩ := hfollows
              have := ih h₁ hrest hcap₁
              dsimp only
              split at this
              · intro more
                rw [List.cons_append, hwalk]
                exact this more
              · obtain ⟨hskip₂, adm₂, hpre₂, hcap₂, h₂, hwalk₂⟩ := this
                refine ⟨by rw [hskip₂, hskip]; simp, adm₂, hpre.trans hpre₂, hcap₂, h₂, ?_⟩
                intro more
                rw [List.cons_append, hwalk, hwalk₂]

/-- Enough rounds end the loop with the rows of the walk. -/
theorem rounds_spec {fuel : ℕ} (h : Represents w v admitted) (hcap : admitted.length < r.cap)
    (hfuel : (w.unseen r.types v.skip).length < fuel) :
    ∃ v', rounds r w clock fuel v = some v' ∧
      v'.ids = (w.greedy r.cap admitted (w.unseen r.types v.skip)).map Candidate.id := by
  induction fuel generalizing v admitted with
  | zero => exact absurd hfuel (Nat.not_lt_zero _)
  | succ fuel ih =>
      let n := r.cap - v.ids.length
      have hn : 0 < n := by simp only [n, h.ids, List.length_map]; omega
      have hchosen := View.chosen_eq ha.busy r.types v.skips n
      have hmem : ∀ c ∈ (w.readyRows r.types v.skips).take n, c ∈ w.waiting r.types :=
        fun c hc => (List.mem_filter.mp (List.mem_of_mem_take hc)).1
      have hspec := visitAll_spec (f := w.flag r.types v.skips) ha hclock (fun _ => rfl) h hmem hcap
      rw [← hchosen] at hspec
      have hready := h.greedy_ready (r := r)
      rw [← List.take_append_drop n (w.readyRows r.types v.skips)] at hready
      simp only [rounds]
      split at hspec
      · rename_i v' hv
        refine ⟨v', by simp only [n] at hv; rw [hv], ?_⟩
        rw [hspec ((w.readyRows r.types v.skips).drop n), hready]
      · rename_i v' hv
        obtain ⟨hskip, adm', hpre, hcap', h', hwalk⟩ := hspec
        simp only [n] at hv
        simp only [hv]
        by_cases hnil : (w.readyRows r.types v.skips).take n = []
        · have hc : w.chosen r.types v.skips (r.cap - v.ids.length) = [] := by
            rw [hchosen, hnil, List.map_nil]
          rw [if_pos (Or.inl hc)]
          rw [hc] at hv
          obtain ⟨rfl, -⟩ := Prod.mk.inj hv
          refine ⟨_, rfl, ?_⟩
          have hempty : w.readyRows r.types v.skips = [] := by
            rcases List.take_eq_nil_iff.mp hnil with hz | hz
            · omega
            · exact hz
          rw [← hready, hempty]
          simp [View.greedy, h.ids]
        · have hc : w.chosen r.types v.skips (r.cap - v.ids.length) ≠ [] := by
            rw [hchosen]; simpa using hnil
          rw [if_neg (by simp [hc, late_eq_false hclock])]
          have hread := h'.read
          have hunseen : w.unseen r.types v'.read.skip =
              (w.unseen r.types v.skip).filter fun c =>
                !((w.readyRows r.types v.skips).take n |>.map Candidate.id).contains c.id := by
            rw [View.unseen, View.unseen, List.filter_filter]
            refine List.filter_congr fun c _ => ?_
            have : v'.read.skip = v'.skip := rfl
            rw [this, hskip, List.contains_append, Bool.not_or, Bool.and_comm]
          obtain ⟨c, hctake⟩ := List.exists_mem_of_ne_nil _ hnil
          have hshrink : (w.unseen r.types v'.read.skip).length < fuel := by
            refine Nat.lt_of_lt_of_le ?_ (Nat.lt_succ_iff.mp hfuel)
            rw [hunseen, List.length_filter_lt_length_iff_exists]
            obtain ⟨hcw, hcr⟩ := List.mem_filter.mp (List.mem_of_mem_take hctake)
            simp only [View.ready, Vars.skips, Bool.and_eq_true] at hcr
            refine ⟨c, List.mem_filter.mpr ⟨hcw, hcr.1.1⟩, ?_⟩
            rw [Bool.not_eq_true, Bool.not_eq_false', List.contains_iff_mem]
            exact List.mem_map_of_mem hctake
          obtain ⟨v'', hv'', hids⟩ := ih hread hcap' hshrink
          refine ⟨v'', hv'', ?_⟩
          rw [hids, ← hready, hwalk]
          -- the rows left by this round, with the blocked ones among them taken out
          have hdrop : (w.readyRows r.types v.skips).drop n =
              (w.unseen r.types v'.read.skip).filter (w.ready r.types v.skips) := by
            rw [hunseen, View.unseen, List.filter_filter, List.filter_filter]
            have hnd : ((w.readyRows r.types v.skips).map Candidate.id).Nodup :=
              View.waiting_nodup.sublist (List.filter_sublist.map _)
            rw [← filter_notMem_take hnd, View.readyRows, List.filter_filter]
            refine List.filter_congr fun c _ => ?_
            simp only [View.ready, Vars.skips]
            cases v.skip.contains c.id <;> simp [Bool.and_comm]
          rw [hdrop, View.greedy_filter]
          intro c hc hr
          rw [hunseen] at hc
          obtain ⟨hcw, hcs⟩ := List.mem_filter.mp (List.mem_filter.mp hc).1
          obtain ⟨more, rfl⟩ := hpre
          exact View.blocked_append (h.blocked_of_not_ready hcw (by simpa using hcs) hr)

end

end Fronta.Claim
