import Fronta.Claim.Lemmas.Rounds

/-!
# A claim that runs out of time

Readings of the clock only end the loops earlier: what a claim has admitted by then, a claim that is never late
admits first.
-/

namespace Fronta.Claim

open Sql

variable {r : Request} {w : View} {clock : ℕ → Time} {v : Vars} {c : Candidate} {limited : Bool}
  {cs : List (Candidate × Bool)} {fuel : ℕ}

/-- The same request on a clock that stands still. -/
def Request.patient (r : Request) : Request := { r with deadlineS := 1 }

def still : ℕ → Time := fun _ => 0

theorem still_early : ∀ n, still n < still 0 + r.patient.deadlineS := fun _ => by
  simp [still, Request.patient]

/-! ## Admitted rows stay -/

theorem checkRow_prefix {e : Entry} : v.ids <+: (checkRow r w clock v c e).1.ids := by
  have hadmit : v.ids <+: (checkRow.admitRow r clock v c).1.ids := by
    rw [checkRow.admitRow]
    split
    · exact List.prefix_rfl
    · exact List.prefix_append _ _
  rw [checkRow]
  split
  · exact List.prefix_rfl
  · split
    · split
      · exact List.prefix_rfl
      · exact hadmit
    · exact hadmit

theorem lockType_ids : (lockType w v c limited).1.ids = v.ids := by
  rw [lockType]
  split
  · rfl
  · split <;> rfl

theorem visit_prefix : v.ids <+: (visit r w clock v c limited).1.ids := by
  have hsee : (v.see c.id).ids = v.ids := rfl
  rw [visit]
  split
  · exact List.prefix_rfl
  · split
    · exact hsee ▸ checkRow_prefix
    · have hlock : (lockType w (v.see c.id) c limited).1.ids = (v.see c.id).ids := lockType_ids
      split
      · rename_i heq
        rw [heq] at hlock
        exact hlock ▸ List.prefix_rfl
      · rename_i heq
        rw [heq] at hlock
        exact hlock ▸ checkRow_prefix

theorem prefix_visit_visitAll (h : ∀ v, v.ids <+: (visitAll r w clock v cs).1.ids) :
    (visit r w clock v c limited).1.ids <+: (visitAll r w clock v ((c, limited) :: cs)).1.ids := by
  rw [visitAll]
  split
  · rename_i heq
    change visit r w clock v c limited = _ at heq
    exact heq ▸ List.prefix_rfl
  · rename_i heq
    change visit r w clock v c limited = _ at heq
    rw [heq]
    exact h _

theorem visitAll_prefix : v.ids <+: (visitAll r w clock v cs).1.ids := by
  induction cs generalizing v with
  | nil => exact List.prefix_rfl
  | cons c cs ih => exact visit_prefix.trans (prefix_visit_visitAll fun _ => ih)

/-- What the first round has admitted by its end stays. -/
theorem prefix_visitAll_rounds {v' : Vars}
    (hmore : ∀ {v v' : Vars}, rounds r w clock fuel v = some v' → v.ids <+: v'.ids)
    (h : rounds r w clock (fuel + 1) v = some v') :
    (visitAll r w clock v (w.chosen r.types v.skips (r.cap - v.ids.length))).1.ids <+: v'.ids := by
  rw [rounds] at h
  split at h
  · rename_i heq
    cases h
    exact heq ▸ List.prefix_rfl
  · rename_i v₁ heq
    rw [heq]
    split_ifs at h
    · cases h
      exact List.prefix_rfl
    · exact hmore (v := v₁.read) h

theorem rounds_prefix {v' : Vars} (h : rounds r w clock fuel v = some v') : v.ids <+: v'.ids := by
  induction fuel generalizing v v' with
  | zero => cases h
  | succ fuel ih => exact visitAll_prefix.trans (prefix_visitAll_rounds ih h)

/-! ## In time and late -/

theorem checkRow_patient {e : Entry} :
    checkRow r.patient w still v c e = checkRow r w clock v c e ∨
      checkRow r w clock v c e = ((checkRow r.patient w still v c e).1, .exit) := by
  have hcap : r.patient.cap = r.cap := rfl
  have hadmit : checkRow.admitRow r.patient still v c = checkRow.admitRow r clock v c ∨
      checkRow.admitRow r clock v c = ((checkRow.admitRow r.patient still v c).1, .exit) := by
    simp only [checkRow.admitRow, hcap, late_eq_false still_early]
    split_ifs <;> simp_all
  simp only [checkRow]
  split
  · exact Or.inl rfl
  · split
    · split
      · exact Or.inl rfl
      · exact hadmit
    · exact hadmit

theorem visit_patient : visit r.patient w still v c limited = visit r w clock v c limited ∨
    visit r w clock v c limited = ((visit r.patient w still v c limited).1, .exit) := by
  simp only [visit]
  split
  · exact Or.inl rfl
  · split
    · exact checkRow_patient
    · split
      · exact Or.inl rfl
      · exact checkRow_patient

/-- The inner loop is the same, or it ends early. -/
theorem visitAll_patient : visitAll r.patient w still v cs = visitAll r w clock v cs ∨
    (visitAll r w clock v cs).2 = .exit ∧
      (visitAll r w clock v cs).1.ids <+: (visitAll r.patient w still v cs).1.ids := by
  induction cs generalizing v with
  | nil => exact Or.inl rfl
  | cons c cs ih =>
      have hrest : (visit r.patient w still v c.1 c.2).1.ids <+:
          (visitAll r.patient w still (visit r.patient w still v c.1 c.2).1 cs).1.ids := visitAll_prefix
      simp only [visitAll]
      rcases @visit_patient r w clock v c.1 c.2 with h | h
      · rw [h]
        split
        · exact Or.inl rfl
        · exact ih
      · rw [h]
        cases hv : visit r.patient w still v c.1 c.2 with
        | mk v₁ next =>
            rw [hv] at hrest
            cases next with
            | exit => exact Or.inl rfl
            | «continue» => exact Or.inr ⟨rfl, hrest⟩

theorem rounds_patient {v' : Vars} (h : rounds r.patient w still fuel v = some v') :
    ∃ v'', rounds r w clock fuel v = some v'' ∧ v''.ids <+: v'.ids := by
  induction fuel generalizing v with
  | zero => cases h
  | succ fuel ih =>
      have hmore := prefix_visitAll_rounds rounds_prefix h
      have htypes : r.patient.types = r.types := rfl
      have hcap : r.patient.cap = r.cap := rfl
      simp only [htypes, hcap] at hmore
      simp only [rounds, late_eq_false still_early, htypes, hcap, Bool.false_eq_true, or_false] at h ⊢
      generalize w.chosen r.types v.skips (r.cap - v.ids.length) = chosen at h hmore ⊢
      have hall := @visitAll_patient r w clock v chosen
      cases hlate : visitAll r w clock v chosen with
      | mk v₁ next =>
          rw [hlate] at hall
          rcases hall with he | ⟨hn, hpre⟩
          · rw [he] at h
            cases next with
            | exit =>
                cases h
                exact ⟨_, rfl, List.prefix_rfl⟩
            | «continue» =>
                dsimp only at h ⊢
                by_cases hc : chosen = []
                · rw [if_pos hc] at h
                  cases h
                  exact ⟨_, if_pos (Or.inl hc), List.prefix_rfl⟩
                · rw [if_neg hc] at h
                  by_cases hl : late r clock v₁ = true
                  · exact ⟨v₁, if_pos (Or.inr hl), rounds_prefix (v := v₁.read) h⟩
                  · rw [if_neg (not_or.mpr ⟨hc, hl⟩)]
                    exact ih h
          · obtain rfl : next = .exit := hn
            exact ⟨v₁, rfl, hpre.trans hmore⟩

/-! ## The first row -/

/-- Before any row is admitted, the query leaves out exactly what the loop would block. -/
theorem unblocked_of_ready {types : List Name}
    (hpos : ∀ name ty n, w.catalog name = some ty → ty.maxConcurrencyPerKey = some n → 0 < n)
    (hc : w.ready types Vars.init.skips c = true) : w.blocked [] c = false := by
  simp only [View.ready, Bool.and_eq_true] at hc
  obtain ⟨⟨-, he⟩, hu⟩ := hc
  obtain ⟨htypes, -, ty, hcat, -, hall⟩ := View.eligible_isSome.mp he
  have htype : w.typeFull [] c = false := by
    cases hmax : ty.maxConcurrency with
    | none => simp [View.typeFull, hcat, hmax]
    | some n =>
        simp only [hmax, Option.all_some, decide_eq_true_eq] at hall
        simp [View.typeFull, hcat, hmax, hall]
  have hkey : w.keyFull [] c = false := by
    cases hk : c.concurrencyKey with
    | none => simp [View.keyFull, hk]
    | some key =>
        cases hmax : ty.maxConcurrencyPerKey with
        | none => simp [View.keyFull, hcat, hmax]
        | some n =>
            have hn := hpos _ ty n hcat hmax
            simp only [View.unsaturated, hk, Option.all_some, Bool.not_eq_true', View.saturated, htypes, hcat, hmax,
              Option.any_some, Vars.skips, Vars.init, Bool.or_eq_false_iff, Bool.and_eq_false_iff,
              decide_eq_false_iff_not, Bool.true_and] at hu
            have hlt : runningKey w.tasks c.type key < n := by omega
            simp [View.keyFull, hcat, hmax, hk, hlt]
  simp [View.blocked, htype, hkey]

theorem greedy_single {cap : ℕ} (hb : w.blocked [] c = false) : w.greedy cap [] [c] = [c] := by
  simp [View.greedy, hb]

/-- The first row of the first round is admitted. -/
theorem visit_first (ha : w.Alone) (hcap : 0 < r.cap) (hc : c ∈ w.waiting r.types)
    (hb : w.blocked [] c = false) : (visit r w clock .init c limited).1.ids = [c.id] := by
  have hpatient : (visit r.patient w still .init c limited).1.ids = [c.id] := by
    have hfollows := follows_visit (r := r.patient) ha still_early limited .init hc hcap
    have hcap' : r.patient.cap = r.cap := rfl
    cases hv : visit r.patient w still .init c limited with
    | mk v₁ next =>
        rw [hv] at hfollows
        cases next with
        | exit => exact (hfollows []).trans (by rw [greedy_single hb]; rfl)
        | «continue» =>
            obtain ⟨-, admitted, -, -, hrep, hwalk⟩ := hfollows
            have h := hwalk []
            rw [greedy_single hb, View.greedy] at h
            rw [hrep.ids, ← h]
            rfl
  rcases @visit_patient r w clock .init c limited with h | h
  · rw [← h, hpatient]
  · rw [h, hpatient]

/-- A claim that finds a ready row returns with one. -/
theorem rounds_admits {v' : Vars} (ha : w.Alone) (hcap : 0 < r.cap)
    (hpos : ∀ name ty n, w.catalog name = some ty → ty.maxConcurrencyPerKey = some n → 0 < n)
    (hready : w.readyRows r.types Vars.init.skips ≠ []) (h : rounds r w clock fuel .init = some v') :
    v'.ids ≠ [] := by
  cases fuel with
  | zero => cases h
  | succ fuel =>
      obtain ⟨c, cs, hcs⟩ := List.exists_cons_of_ne_nil hready
      have hc : c ∈ w.readyRows r.types Vars.init.skips := hcs ▸ List.mem_cons_self
      obtain ⟨hwaits, hr⟩ := List.mem_filter.mp hc
      have hchosen : w.chosen r.types Vars.init.skips (r.cap - Vars.init.ids.length) =
          w.flag r.types Vars.init.skips c :: (cs.take (r.cap - 1)).map (w.flag r.types Vars.init.skips) := by
        obtain ⟨n, hn⟩ := Nat.exists_eq_add_of_le' hcap
        rw [View.chosen_eq ha.busy, hcs, hn]
        rfl
      have hfirst : ∀ limited, (visit r w clock .init c limited).1.ids = [c.id] := fun limited =>
        visit_first ha hcap hwaits (unblocked_of_ready hpos hr)
      have hall := (prefix_visit_visitAll fun _ => visitAll_prefix).trans
        (hchosen ▸ prefix_visitAll_rounds rounds_prefix h)
      rw [hfirst] at hall
      exact fun hnil => by simp [hnil] at hall

end Fronta.Claim
