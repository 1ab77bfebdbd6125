import Fronta.Codec.Lemmas.Truncate

/-!
# What cutting leaves of an error

Every turn of the loop cuts one text to a part of it. When no text is left to cut, the error has come down to
its keys and its other values.
-/

namespace Fronta.Codec

open Unicode

variable {str : Value → Except Raised Text} {d data error : Dict} {k name t u : Text} {v v' : Value} {cap : ℕ}
  {keepTail : List Text} {items items' : List (Text × Value)}

/-! ## Lookups -/

theorem lookup_cons_of_ne {e : Text × Value} (h : (k == e.1) = false) :
    (e :: items).lookup k = items.lookup k := by
  obtain ⟨name, v⟩ := e
  rw [List.lookup_cons, h]

theorem lookup_map_self (h : k ∈ items.map Prod.fst) :
    (items.map fun e => if e.1 = k then (k, v) else e).lookup k = some v := by
  induction items with
  | nil => cases h
  | cons e items ih =>
      rw [List.map_cons]
      by_cases he : e.1 = k
      · simp [he]
      · have hk : k ∈ items.map Prod.fst := (List.mem_cons.mp h).resolve_left fun hk => he hk.symm
        have hne : (k == e.1) = false := beq_eq_false_iff_ne.mpr (Ne.symm he)
        rw [if_neg he, lookup_cons_of_ne hne]
        exact ih hk

theorem lookup_map_ne (h : k ≠ name) :
    (items.map fun e => if e.1 = name then (name, v) else e).lookup k = items.lookup k := by
  induction items with
  | nil => rfl
  | cons e items ih =>
      rw [List.map_cons]
      by_cases he : e.1 = name
      · have hk : (k == name) = false := beq_eq_false_iff_ne.mpr h
        have hne : (k == e.1) = false := he ▸ hk
        rw [if_pos he, lookup_cons_of_ne hk, lookup_cons_of_ne hne]
        exact ih
      · obtain ⟨name', v'⟩ := e
        rw [if_neg he, List.lookup_cons, List.lookup_cons, ih]

namespace Dict

theorem get_set_self : (d.set k v).get k = some v := by
  unfold set get
  split_ifs with hk
  · exact lookup_map_self hk
  · have hnone : d.items.lookup k = none := by
      rw [List.lookup_eq_none_iff]
      intro e he
      refine bne_iff_ne.mpr fun hek => hk ?_
      rw [hek]
      exact List.mem_map_of_mem he
    rw [List.lookup_append, hnone, Option.none_or]
    simp

theorem get_set_ne (h : k ≠ name) : (d.set name v).get k = d.get k := by
  unfold set get
  split_ifs with hk
  · exact lookup_map_ne h
  · have hne : (k == name) = false := beq_eq_false_iff_ne.mpr h
    rw [List.lookup_append]
    simp [List.lookup_cons, hne]

end Dict

/-! ## Parts -/

/-- A text that was cut is a part of it, another value stays. -/
def Shorter (keepTail : List Text) (k : Text) : Value → Value → Prop
  | .text t, v => ∃ u, v = .text u ∧ if k ∈ keepTail then u <:+ t else u <+: t
  | v, v' => v' = v

theorem Shorter.refl : Shorter keepTail k v v := by
  cases v with
  | text t =>
      refine ⟨t, rfl, ?_⟩
      split_ifs
      · exact List.suffix_rfl
      · exact List.prefix_rfl
  | _ => rfl

theorem cut_suffix : cut true t <:+ t := by
  simp only [cut, if_true]
  split_ifs
  · exact List.nil_suffix
  · exact List.drop_suffix _ _

theorem cut_prefix : cut false t <+: t := by
  simp only [cut, Bool.false_eq_true, if_false]
  split_ifs
  · exact List.nil_prefix
  · exact List.take_prefix _ _

theorem Shorter.cut (h : Shorter keepTail k v (.text t)) :
    Shorter keepTail k v (.text (Codec.cut (k ∈ keepTail) t)) := by
  cases v with
  | text t₀ =>
      obtain ⟨u, hu, hpart⟩ := h
      cases hu
      refine ⟨_, rfl, ?_⟩
      by_cases hk : k ∈ keepTail
      · simp only [hk, if_true, decide_true] at hpart ⊢
        exact cut_suffix.trans hpart
      · simp only [hk, if_false, decide_false] at hpart ⊢
        exact cut_prefix.trans hpart
  | _ => cases h

/-- The same keys, with parts of the texts. -/
def CutOf (keepTail : List Text) (items items' : List (Text × Value)) : Prop :=
  List.Forall₂ (fun e e' => e'.1 = e.1 ∧ Shorter keepTail e.1 e.2 e'.2) items items'

theorem CutOf.refl : CutOf keepTail items items := List.forall₂_same.mpr fun _ _ => ⟨rfl, .refl⟩

theorem CutOf.lookup (h : CutOf keepTail items items') (hk : items.lookup k = some v) :
    ∃ v', items'.lookup k = some v' ∧ Shorter keepTail k v v' := by
  induction h with
  | nil => cases hk
  | @cons e e' items items' he _ ih =>
      obtain ⟨name, w⟩ := e
      obtain ⟨name', w'⟩ := e'
      obtain ⟨rfl, hshort⟩ := he
      by_cases hek : k = name'
      · subst hek
        rw [List.lookup_cons_self, Option.some.injEq] at hk
        subst hk
        exact ⟨w', List.lookup_cons_self, hshort⟩
      · have hne : (k == name') = false := beq_eq_false_iff_ne.mpr hek
        rw [lookup_cons_of_ne hne] at hk ⊢
        exact ih hk

theorem CutOf.keys (h : CutOf keepTail items items') : items'.map Prod.fst = items.map Prod.fst := by
  induction h with
  | nil => rfl
  | cons he _ ih => rw [List.map_cons, List.map_cons, he.1, ih]

theorem CutOf.set (h : CutOf keepTail items data.items) (hm : (name, .text t) ∈ data.items) :
    CutOf keepTail items (data.set name (.text (cut (name ∈ keepTail) t))).items := by
  have hname : name ∈ data.items.map Prod.fst := List.mem_map.mpr ⟨_, hm, rfl⟩
  have hone : ∀ e ∈ data.items, e.1 = name → e = (name, .text t) := fun e he hek =>
    List.inj_on_of_nodup_map data.nodup he hm hek
  simp only [Dict.set, hname, dif_pos, CutOf, List.forall₂_map_right_iff]
  rw [CutOf] at h
  generalize data.items = items' at h hone
  induction h with
  | nil => exact .nil
  | @cons e e' items items' he _ ih =>
      obtain ⟨hkey, hshort⟩ := he
      refine .cons ?_ (ih fun e he => hone e (List.mem_cons_of_mem _ he))
      by_cases hek : e'.1 = name
      · have he' := hone e' List.mem_cons_self hek
        subst he'
        obtain rfl : name = e.1 := hkey
        simp only [if_true]
        exact ⟨trivial, hshort.cut⟩
      · simp only [hek, if_false]
        exact ⟨hkey, hshort⟩

/-! ## Empty texts -/

namespace Dict

/-- An error without the letters of its texts. -/
def empty : Value → Value
  | .text _ => .text []
  | v => v

def emptied (d : Dict) : Dict where
  items := d.items.map fun e => (e.1, empty e.2)
  nodup := by
    rw [List.map_map]
    exact d.nodup

theorem longestOf_none (h : longestOf items = none) : ∀ t, (k, Value.text t) ∈ items → t = [] := by
  induction items with
  | nil => exact fun _ hm => absurd hm List.not_mem_nil
  | cons e items ih =>
      obtain ⟨k', v⟩ := e
      intro t hm
      rcases List.mem_cons.mp hm with he | hm
      · cases he
        simp only [longestOf] at h
        split_ifs at h with ht
        · exact ht
        · split at h
          · split_ifs at h
          · cases h
      · refine ih ?_ t hm
        cases v with
        | text u =>
            simp only [longestOf] at h
            split_ifs at h with hu
            · exact h
            · split at h
              · split_ifs at h
              · cases h
        | _ => exact h

theorem eq_emptied (h : CutOf keepTail d.items data.items) (hl : data.longest = none) :
    data.items = d.emptied.items := by
  have hempty : ∀ e ∈ data.items, empty e.2 = e.2 := by
    rintro ⟨k, v⟩ he
    cases v with
    | text t => rw [longestOf_none hl t he]; rfl
    | _ => rfl
  rw [CutOf] at h
  have hitems : d.emptied.items = d.items.map fun e => (e.1, empty e.2) := rfl
  rw [hitems]
  generalize data.items = items' at h hempty ⊢
  generalize d.items = items at h ⊢
  induction h with
  | nil => rfl
  | @cons e e' items items' he _ ih =>
      obtain ⟨hkey, hshort⟩ := he
      rw [List.map_cons, ih fun e he => hempty e (List.mem_cons_of_mem _ he)]
      congr 1
      refine Prod.ext hkey ?_
      have he' := hempty e' List.mem_cons_self
      cases hv : e.2 with
      | text t =>
          rw [hv] at hshort
          obtain ⟨u, hu, -⟩ := hshort
          rw [← he', hu]
          rfl
      | _ =>
          rw [hv] at hshort
          exact hshort

end Dict

/-! ## The loop -/

instance : Decidable (Fits d cap) :=
  decidable_of_iff (((encode d.value).toOption.any fun text => utf8Len text ≤ cap) = true) (by
    unfold Fits
    cases encode d.value <;> simp [Except.toOption])

theorem storable_of_fits (h : Fits d cap) : d.Storable := by
  obtain ⟨text, htext, -⟩ := h
  exact Dict.encode_ok.mp ⟨text, htext⟩

theorem fits_congr (h : d.items = data.items) : Fits d cap ↔ Fits data cap := by
  unfold Fits Dict.value
  rw [h]

/-- The loop goes on while the encoding is too long. -/
theorem shrink_of_not_fits (hd : data.Storable) (h : ¬Fits data cap) :
    (∀ name t, data.longest = some (name, t) → shrink str error cap keepTail data =
      shrink str error cap keepTail (data.set name (.text (cut (name ∈ keepTail) t)))) ∧
    (data.longest = none → shrink str error cap keepTail data = do
      return minimal (← strOf str ((error.get typeKey).getD (.text [])))) := by
  obtain ⟨text, htext⟩ := Dict.encode_ok.mpr hd
  have hlen : ¬utf8Len text ≤ cap := fun hle => h ⟨text, htext, hle⟩
  constructor
  · intro name t hl
    rw [shrink, htext, Except.bind, if_neg hlen]
    split
    · rename_i hn
      rw [hn] at hl
      cases hl
    · rename_i name' t' hn
      rw [hn] at hl
      cases hl
      rfl
  · intro hl
    rw [shrink, htext, Except.bind, if_neg hlen]
    split
    · rfl
    · rename_i hn
      rw [hn] at hl
      cases hl

theorem shrink_of_fits (h : Fits data cap) : shrink str error cap keepTail data = .ok data := by
  obtain ⟨text, htext, hle⟩ := h
  rw [shrink, htext, Except.bind, if_pos hle]
  rfl

theorem shrink_cutOf (hfit : Fits d.emptied cap) (hd : data.Storable) (hc : CutOf keepTail d.items data.items) :
    ∃ e, shrink str error cap keepTail data = .ok e ∧ Fits e cap ∧ CutOf keepTail d.items e.items := by
  induction data using shrink.induct keepTail with
  | case1 data ih =>
      by_cases h : Fits data cap
      · exact ⟨data, shrink_of_fits h, h, hc⟩
      · cases hl : data.longest with
        | none => exact absurd ((fits_congr (Dict.eq_emptied hc hl)).mpr hfit) h
        | some e =>
            obtain ⟨name, t⟩ := e
            have hm := (Dict.longestOf_mem hl).1
            rw [(shrink_of_not_fits hd h).1 name t hl]
            exact ih name t hl (hd.set (hd _ hm).1 (clean_cut (hd _ hm).2)) (hc.set hm)

def truncatedKey : Text := ofString "truncated"

theorem truncate_of_fits (h : Fits error cap) : truncate str error cap keepTail = .ok error := by
  obtain ⟨text, htext, hle⟩ := h
  simp [truncate, htext, hle, bind, Except.bind, pure, Except.pure]

theorem truncate_of_not_fits (hd : error.Storable) (h : ¬Fits error cap) :
    truncate str error cap keepTail =
      shrink str error cap keepTail (error.set truncatedKey (.bool true)) := by
  obtain ⟨text, htext⟩ := Dict.encode_ok.mpr hd
  have hlen : ¬utf8Len text ≤ cap := fun hle => h ⟨text, htext, hle⟩
  simp [truncate, htext, hlen, bind, Except.bind, truncatedKey]

end Fronta.Codec
