import Fronta.Codec.Graph
import Fronta.Codec.Lemmas.Encode
import Mathlib.Logic.Relation

/-!
# Graphs and their trees

The checks of a graph are those of its unfolding. An object that has a finite tree is not inside of itself, so
the unfolding that stops where an object comes back is that tree.
-/

namespace Fronta.Codec.Graph

open Unicode Relation

variable {heap : Heap} {v w : Node} {tree : Value} {n : ℕ} {path : List Ref} {r : Ref}

theorem forM_map {α β : Type} {f : β → Except Raised Unit} {g : α → β} {items : List α} :
    (items.map g).forM f = items.forM fun a => f (g a) := by
  induction items with
  | nil => rfl
  | cons a items ih =>
      have hcons : ((a :: items).map g).forM f = (f (g a) >>= fun _ => (items.map g).forM f) := rfl
      rw [hcons, ih]
      rfl

theorem check_eq : check heap n path v = Codec.check n (unfold heap n path v) := by
  induction n generalizing path v with
  | zero => cases v <;> rfl
  | succ n ih =>
      cases v with
      | container r =>
          have hchecks : check heap n (r :: path) = fun v => Codec.check n (unfold heap n (r :: path) v) :=
            funext fun _ => ih
          simp only [check, unfold]
          split_ifs
          · rfl
          · cases heap r with
            | list items => simp only [Codec.check, forM_map, hchecks]
            | tuple items => simp only [Codec.check, forM_map, hchecks]
            | dict items => simp only [Codec.check, forM_map, hchecks]
      | _ => rfl

theorem encode_eq : encode heap v = Codec.encode (unfold heap maxDepth [] v) := by
  rw [encode, check_eq]
  rfl

/-! ## Unfoldings -/

theorem unfolds_of_storable (h : (unfold heap n path v).Storable n) :
    Unfolds heap v (unfold heap n path v) := by
  induction n generalizing path v with
  | zero =>
      cases v with
      | null => exact .null
      | bool b => exact .bool
      | int k => exact .int
      | float d => exact .float
      | text t => exact .text
      | container r => exact absurd h id
  | succ n ih =>
      cases v with
      | null => exact .null
      | bool b => exact .bool
      | int k => exact .int
      | float d => exact .float
      | text t => exact .text
      | container r =>
          by_cases hr : r ∈ path
          · simp only [unfold, hr, if_true] at h
            exact absurd h id
          · cases hi : heap r with
            | list items =>
                simp only [unfold, hr, if_false, hi] at h ⊢
                exact .list _ hi fun v hv => ih (h _ (List.mem_map_of_mem hv))
            | tuple items =>
                simp only [unfold, hr, if_false, hi] at h ⊢
                exact .tuple _ hi fun v hv => ih (h _ (List.mem_map_of_mem hv))
            | dict items =>
                simp only [unfold, hr, if_false, hi] at h ⊢
                exact .dict _ hi fun e he => ih (h _ (List.mem_map.mpr ⟨e, he, rfl⟩)).2

/-- The values inside of a container. -/
def Container.parts : Container → List Node
  | .list items | .tuple items => items
  | .dict items => items.map Prod.snd

/-- A value is directly inside of a container. -/
def Part (heap : Heap) (v w : Node) : Prop := ∃ r, w = .container r ∧ v ∈ (heap r).parts

theorem Unfolds.acc (h : Unfolds heap v tree) : Acc (Part heap) v := by
  induction h with
  | null | bool | int | float | text => exact ⟨_, fun _ ⟨_, hr, _⟩ => by cases hr⟩
  | list f hi _ ih | tuple f hi _ ih =>
      refine ⟨_, fun v ⟨r, hr, hv⟩ => ?_⟩
      cases hr
      rw [hi] at hv
      exact ih v hv
  | dict f hi _ ih =>
      refine ⟨_, fun v ⟨r, hr, hv⟩ => ?_⟩
      cases hr
      rw [hi] at hv
      obtain ⟨e, he, rfl⟩ := List.mem_map.mp hv
      exact ih e he

theorem not_transGen_self {α : Type} {R : α → α → Prop} {a : α} (h : Acc R a) : ¬TransGen R a a := by
  have hacc : Acc (TransGen R) a := h.transGen
  induction hacc with
  | intro a _ ih => exact fun haa => ih a haa (h.inv_of_transGen haa) haa

/-- What is inside of an object is inside of all that the object is in. -/
theorem inside (hw : w ∈ (heap r).parts)
    (hp : ∀ p ∈ path, TransGen (Part heap) (.container r) (.container p)) :
    ∀ p ∈ r :: path, TransGen (Part heap) w (.container p) := by
  intro p hm
  have hone : TransGen (Part heap) w (.container r) := .single ⟨r, rfl, hw⟩
  rcases List.mem_cons.mp hm with rfl | hm
  · exact hone
  · exact hone.trans (hp p hm)

theorem unfold_eq (h : Unfolds heap v tree) (hs : tree.Storable n)
    (hp : ∀ p ∈ path, TransGen (Part heap) v (.container p)) : unfold heap n path v = tree := by
  have hacc := h.acc
  induction h generalizing n path with
  | null | bool | int | float | text => cases n <;> rfl
  | @list r items f hi hu ih | @tuple r items f hi hu ih =>
      cases n with
      | zero => exact absurd hs id
      | succ n =>
          have hr : r ∉ path := fun hm => not_transGen_self hacc (hp r hm)
          simp only [unfold, hr, if_false, hi]
          congr 1
          refine List.map_congr_left fun v hv => ?_
          have hpart : v ∈ (heap r).parts := hi ▸ hv
          exact ih v hv (hs _ (List.mem_map_of_mem hv)) (inside hpart hp) (hu v hv).acc
  | @dict r items f hi hu ih =>
      cases n with
      | zero => exact absurd hs id
      | succ n =>
          have hr : r ∉ path := fun hm => not_transGen_self hacc (hp r hm)
          simp only [unfold, hr, if_false, hi]
          congr 1
          refine List.map_congr_left fun e he => ?_
          have hpart : e.2 ∈ (heap r).parts := by
            rw [hi]
            exact List.mem_map_of_mem he
          have hstore := (hs _ (List.mem_map.mpr ⟨e, he, rfl⟩)).2
          rw [ih e he hstore (inside hpart hp) (hu e he).acc]

end Fronta.Codec.Graph
