import Mathlib.Data.List.Basic
import Mathlib.Data.List.TakeWhile

/-!
# Readers

A reader takes a value off the front of a list of symbols and leaves the rest. It reads back what a writer wrote if
nothing that may follow can be taken for more of it.
-/

namespace Reading

variable {σ α : Type}

abbrev Reader (σ α : Type) := List σ → Option (α × List σ)

/-! ## Runs of symbols -/

section Spans

variable {f : σ → Bool} {ws rest : List σ} {p : σ}

/-- No symbol that meets `f` comes first. -/
def Stops (f : σ → Bool) (rest : List σ) : Prop := ∀ p ∈ rest.head?, f p = false

theorem stops_nil : Stops f [] := fun _ hp => by cases hp

theorem stops_cons : Stops f (p :: rest) ↔ f p = false := by simp [Stops]

theorem Stops.mono {g : σ → Bool} (h : Stops f rest) (hfg : ∀ p, g p = true → f p = true) : Stops g rest := by
  intro p hp
  cases hg : g p with
  | false => rfl
  | true => exact absurd (hfg p hg) (by simp [h p hp])

theorem takeWhile_append (hws : ∀ p ∈ ws, f p = true) (hr : Stops f rest) :
    (ws ++ rest).takeWhile f = ws := by
  rw [List.takeWhile_append_of_pos hws]
  cases rest with
  | nil => simp
  | cons p rest => simp [stops_cons.mp hr]

theorem dropWhile_append (hws : ∀ p ∈ ws, f p = true) (hr : Stops f rest) :
    (ws ++ rest).dropWhile f = rest := by
  rw [List.dropWhile_append_of_pos hws]
  cases rest with
  | nil => rfl
  | cons p rest => simp [stops_cons.mp hr]

theorem dropWhile_of_stops (h : Stops f rest) : rest.dropWhile f = rest := by
  have hnone : ∀ p ∈ ([] : List σ), f p = true := fun _ hp => absurd hp List.not_mem_nil
  exact dropWhile_append hnone h

end Spans

/-! ## Separated items -/

section Separated

/-- `w` is read back as `a` in front of either mark. -/
def ReadsBack (blank : σ → Bool) (comma close : σ) (item : Reader σ α) (a : α) (w : List σ) : Prop :=
  (∃ p w', w = p :: w' ∧ blank p = false) ∧
    ∀ p rest, p = comma ∨ p = close → item (w ++ p :: rest) = some (a, p :: rest)

/-- Commas between the texts, none after the last. -/
def commas (comma : σ) : List (List σ) → List σ
  | [] => []
  | [w] => w
  | w :: ws => w ++ comma :: commas comma ws

variable {blank : σ → Bool} {comma close : σ} {item : Reader σ α} {fuel : ℕ} {items : List α}
  {ws : List (List σ)} {rest : List σ}

theorem length_le_commas : ws.length ≤ (commas comma ws).length + 1 := by
  induction ws with
  | nil => exact Nat.zero_le _
  | cons w ws ih =>
      cases ws with
      | nil => simp
      | cons w' ws =>
          simp only [commas, List.length_append, List.length_cons] at ih ⊢
          omega

theorem length_le_of_mem_commas {w : List σ} (h : w ∈ ws) : w.length ≤ (commas comma ws).length := by
  induction ws with
  | nil => exact absurd h List.not_mem_nil
  | cons w' ws ih =>
      cases ws with
      | nil => exact List.mem_singleton.mp h ▸ Nat.le_refl _
      | cons w'' ws =>
          rw [commas, List.length_append, List.length_cons]
          · rcases List.mem_cons.mp h with rfl | h
            · exact Nat.le_add_right _ _
            · exact Nat.le_trans (ih h) (by omega)
          · exact fun h => by cases h

theorem stops_of_readsBack {a : α} {w : List σ} (h : ReadsBack blank comma close item a w) :
    Stops blank (w ++ rest) := by
  obtain ⟨⟨p, w', rfl, hp⟩, -⟩ := h
  exact stops_cons.mpr hp

theorem stops_commas (h : List.Forall₂ (ReadsBack blank comma close item) items ws) (hne : items ≠ []) :
    Stops blank (commas comma ws ++ rest) := by
  cases h with
  | nil => exact absurd rfl hne
  | @cons a w items ws ha hs =>
      cases ws with
      | nil => exact stops_of_readsBack ha
      | cons w' ws =>
          rw [commas, List.append_assoc]
          · exact stops_of_readsBack ha
          · exact fun h => by cases h

/-- At least one item, up to the closing mark, with blanks around each of the marks. -/
def separated [DecidableEq σ] (blank : σ → Bool) (comma close : σ) (item : Reader σ α) :
    (fuel : ℕ) → Reader σ (List α)
  | 0, _ => none
  | fuel + 1, t => do
      let (a, t) ← item t
      match t.dropWhile blank with
      | [] => none
      | p :: t =>
          if p = close then some ([a], t)
          else if p = comma then do
            let (items, t) ← separated blank comma close item fuel (t.dropWhile blank)
            return (a :: items, t)
          else none

theorem separated_commas [DecidableEq σ] (hcomma : blank comma = false) (hclose : blank close = false)
    (hmarks : comma ≠ close) (h : List.Forall₂ (ReadsBack blank comma close item) items ws) (hne : items ≠ [])
    (hfuel : items.length ≤ fuel) :
    separated blank comma close item fuel (commas comma ws ++ close :: rest) = some (items, rest) := by
  induction h generalizing fuel with
  | nil => exact absurd rfl hne
  | @cons a w items ws ha hs ih =>
      obtain ⟨fuel, rfl⟩ := Nat.exists_eq_add_of_le' (Nat.lt_of_lt_of_le (Nat.succ_pos _) hfuel)
      cases hs with
      | nil => simp [separated, commas, ha.2 close rest (Or.inr rfl), hclose]
      | @cons a' w' items ws ha' hs =>
          have hrest := ih (List.cons_ne_nil _ _) (Nat.le_of_succ_le_succ hfuel)
          have hskip : (commas comma (w' :: ws) ++ close :: rest).dropWhile blank = _ :=
            dropWhile_of_stops (stops_commas (List.Forall₂.cons ha' hs) (List.cons_ne_nil _ _))
          have hitem := ha.2 comma (commas comma (w' :: ws) ++ close :: rest) (Or.inl rfl)
          simp only [commas, List.append_assoc, List.cons_append, separated, hitem, Option.bind_eq_bind,
            Option.bind_some, List.dropWhile_cons, hcomma, Bool.false_eq_true, if_false, if_true,
            if_neg hmarks, hskip, hrest]
          rfl

end Separated

end Reading
