import Mathlib.Data.List.Basic

/-!
# Row locks

The four row-lock modes, their conflicts, and a table of the locks that transactions hold. A
transaction never conflicts with itself, so a holder may strengthen its own lock.
-/

namespace Sql

/-- Row-lock modes from the weakest to the strongest. -/
inductive Mode
  | keyShare
  | share
  | noKeyUpdate
  | update
  deriving DecidableEq, Repr

/-- Whether two transactions may hold these modes on one row. -/
def Mode.compatible : Mode → Mode → Bool
  | .keyShare, .update | .update, .keyShare => false
  | .keyShare, _ | _, .keyShare => true
  | .share, .share => true
  | _, _ => false

theorem Mode.compatible_comm (m n : Mode) : m.compatible n = n.compatible m := by
  cases m <;> cases n <;> rfl

@[simp] theorem Mode.compatible_update (m : Mode) : m.compatible .update = false := by
  cases m <;> rfl

@[simp] theorem Mode.update_compatible (m : Mode) : Mode.update.compatible m = false := by
  cases m <;> rfl

universe u v

/-- The locks held: row, transaction and mode. -/
abbrev Locks (ρ : Type u) (τ : Type v) := List (ρ × τ × Mode)

namespace Locks

variable {ρ : Type u} {τ : Type v} {L : Locks ρ τ} {r r' : ρ} {t t' : τ} {m n : Mode}

/-- `t` holds mode `m` on the row. -/
def Holds (L : Locks ρ τ) (r : ρ) (t : τ) (m : Mode) : Prop := (r, t, m) ∈ L

/-- Different transactions hold only compatible modes on a row. -/
def Sound (L : Locks ρ τ) : Prop :=
  ∀ r t m t' n, L.Holds r t m → L.Holds r t' n → t ≠ t' → m.compatible n = true

/-- Record a granted request. -/
def acquire (L : Locks ρ τ) (r : ρ) (t : τ) (m : Mode) : Locks ρ τ := (r, t, m) :: L

@[simp] theorem holds_acquire :
    (L.acquire r t m).Holds r' t' n ↔ (r' = r ∧ t' = t ∧ n = m) ∨ L.Holds r' t' n := by
  simp [Holds, acquire]

/-- Record the granted requests of one statement. -/
def acquireAll (L : Locks ρ τ) (t : τ) (rows : List (ρ × Mode)) : Locks ρ τ :=
  rows.foldl (fun L r => L.acquire r.1 t r.2) L

theorem holds_acquireAll {rows : List (ρ × Mode)} :
    (L.acquireAll t rows).Holds r' t' n ↔ (t' = t ∧ (r', n) ∈ rows) ∨ L.Holds r' t' n := by
  induction rows generalizing L with
  | nil => simp [acquireAll]
  | cons r rows ih =>
      have h := ih (L := L.acquire r.1 t r.2)
      rw [acquireAll, List.foldl_cons, ← acquireAll, h, holds_acquire, List.mem_cons]
      constructor
      · rintro (⟨h₁, h₂⟩ | ⟨h₁, h₂, h₃⟩ | h)
        · exact Or.inl ⟨h₁, Or.inr h₂⟩
        · exact Or.inl ⟨h₂, Or.inl (Prod.ext h₁ h₃)⟩
        · exact Or.inr h
      · rintro (⟨h₁, rfl | h₂⟩ | h)
        · exact Or.inr (Or.inl ⟨rfl, h₁, rfl⟩)
        · exact Or.inl ⟨h₁, h₂⟩
        · exact Or.inr (Or.inr h)

theorem sound_nil : Sound ([] : Locks ρ τ) := by
  intro r t m t' n h
  simp [Holds] at h

/-- Nobody else holds anything on a row under an exclusive lock. -/
theorem Sound.exclusive (hs : L.Sound) (hu : L.Holds r t .update) (h : L.Holds r t' m) : t' = t := by
  by_contra hne
  have := hs _ _ _ _ _ h hu hne
  simp at this

/-- A conflict between two holders identifies them. -/
theorem Sound.eq_of_conflict (hs : L.Sound) (h₁ : L.Holds r t m) (h₂ : L.Holds r t' n)
    (hc : m.compatible n = false) : t = t' := by
  by_contra hne
  simp [hs _ _ _ _ _ h₁ h₂ hne] at hc

/-- The end of a transaction drops its locks. -/
def release [DecidableEq τ] (L : Locks ρ τ) (t : τ) : Locks ρ τ := L.filter fun x => x.2.1 ≠ t

@[simp] theorem holds_release [DecidableEq τ] :
    (L.release t).Holds r t' n ↔ L.Holds r t' n ∧ t' ≠ t := by
  simp [Holds, release]

theorem Sound.release [DecidableEq τ] (hs : L.Sound) (t : τ) : (L.release t).Sound := by
  intro r₁ t₁ m₁ t₂ m₂ h₁ h₂ hne
  exact hs _ _ _ _ _ (holds_release.mp h₁).1 (holds_release.mp h₂).1 hne

variable [DecidableEq ρ] [DecidableEq τ]

instance : Decidable (L.Holds r t m) := inferInstanceAs (Decidable ((r, t, m) ∈ L))

/-- No other transaction holds a conflicting mode, so the request does not wait. -/
def grantable (L : Locks ρ τ) (r : ρ) (t : τ) (m : Mode) : Bool :=
  L.all fun x => x.1 ≠ r || x.2.1 = t || x.2.2.compatible m

theorem grantable_iff :
    L.grantable r t m = true ↔ ∀ t' n, L.Holds r t' n → t' ≠ t → n.compatible m = true := by
  simp only [grantable, List.all_eq_true, Bool.or_eq_true, decide_eq_true_eq, ne_eq,
    decide_not, Bool.not_eq_true', decide_eq_false_iff_not, Holds]
  constructor
  · intro h t' n hh ht
    rcases h _ hh with (h | h) | h
    · exact absurd rfl h
    · exact absurd h ht
    · exact h
  · rintro h ⟨r', t', n⟩ hx
    by_cases hr : r' = r
    · by_cases ht : t' = t
      · exact Or.inl (Or.inr ht)
      · exact Or.inr (h t' n (hr ▸ hx) ht)
    · exact Or.inl (Or.inl hr)

theorem Sound.acquire (hs : L.Sound) (hg : L.grantable r t m = true) : (L.acquire r t m).Sound := by
  rw [grantable_iff] at hg
  intro r₁ t₁ m₁ t₂ m₂ h₁ h₂ hne
  rw [holds_acquire] at h₁ h₂
  rcases h₁ with ⟨rfl, rfl, rfl⟩ | h₁ <;> rcases h₂ with ⟨hr, rfl, rfl⟩ | h₂
  · exact absurd rfl hne
  · rw [Mode.compatible_comm]; exact hg _ _ h₂ hne.symm
  · exact hg _ _ (hr ▸ h₁) hne
  · exact hs _ _ _ _ _ h₁ h₂ hne

theorem grantable_of_free (h : ∀ t' n, ¬ L.Holds r t' n) : L.grantable r t m = true :=
  grantable_iff.mpr fun t' n hn _ => absurd hn (h t' n)

theorem Sound.acquireAll {rows : List (ρ × Mode)} (hs : L.Sound)
    (hg : ∀ r m, (r, m) ∈ rows → L.grantable r t m = true) : (L.acquireAll t rows).Sound := by
  intro r₁ t₁ m₁ t₂ m₂ h₁ h₂ hne
  rw [holds_acquireAll] at h₁ h₂
  rcases h₁ with ⟨rfl, h₁⟩ | h₁ <;> rcases h₂ with ⟨rfl, h₂⟩ | h₂
  · exact absurd rfl hne
  · rw [Mode.compatible_comm]; exact grantable_iff.mp (hg _ _ h₁) _ _ h₂ hne.symm
  · exact grantable_iff.mp (hg _ _ h₂) _ _ h₁ hne
  · exact hs _ _ _ _ _ h₁ h₂ hne

end Locks

end Sql
