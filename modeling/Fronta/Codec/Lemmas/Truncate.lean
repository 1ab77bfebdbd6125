import Fronta.Codec.Errors
import Fronta.Codec.Lemmas.Encode

/-!
# Errors that fit

Cutting keeps an error storable and ends with an encoding under the cap, at the latest with the first letters
of the type alone.
-/

namespace Fronta.Codec

open Unicode

variable {str : Value → Except Raised Text} {d error : Dict} {k t u : Text} {v : Value} {cap : ℕ}
  {keepTail : List Text}

/-! ## Sizes -/

/-- The bytes of a text inside of the quotes. -/
def quotedLen (t : Text) : ℕ := (t.map fun p => utf8Len (escape p)).sum

theorem utf8Len_flatMap_escape : utf8Len (t.flatMap escape) = quotedLen t := by
  induction t with
  | nil => rfl
  | cons p t ih => simp only [List.flatMap_cons, utf8Len_append, ih, quotedLen, List.map_cons, List.sum_cons]

theorem utf8Len_quote : utf8Len (quote t) = quotedLen t + 2 := by
  have hq : Point.utf8Size 0x22 = 1 := by decide
  simp only [quote, List.cons_append, utf8Len_cons, utf8Len_append, utf8Len_flatMap_escape, utf8Len_nil, hq]
  omega

theorem hexDigit_size {n : ℕ} (h : n < 16) : (hexDigit n).utf8Size = 1 := by
  decide +kernel +revert

theorem utf8Len_escape_le (p : Point) : utf8Len (escape p) ≤ 6 := by
  unfold escape
  split
  case h_8 =>
    split_ifs with hn
    · have hu : utf8Len (ofString "\\u00") = 4 := by decide
      have h₁ : (hexDigit (p.val / 16)).utf8Size = 1 := hexDigit_size (by omega)
      have h₂ : (hexDigit (p.val % 16)).utf8Size = 1 := hexDigit_size (by omega)
      simp only [utf8Len_append, utf8Len_cons, utf8Len_nil, hu, h₁, h₂]
      decide
    · have := Point.utf8Size_le p
      simp only [utf8Len_cons, utf8Len_nil]
      omega
  all_goals decide

theorem quotedLen_le : quotedLen t ≤ 6 * t.length := by
  induction t with
  | nil => exact Nat.le_refl _
  | cons p t ih =>
      have := utf8Len_escape_le p
      simp only [quotedLen, List.map_cons, List.sum_cons, List.length_cons] at ih ⊢
      omega

theorem quotedLen_take_le (n : ℕ) : quotedLen (t.take n) ≤ 6 * n :=
  quotedLen_le.trans (Nat.mul_le_mul_left 6 (List.length_take_le n t))

theorem utf8Len_join {t : Text} {items : List Text} :
    utf8Len (join (t :: items)) = utf8Len t + (items.map fun u => utf8Len u + 1).sum := by
  induction items generalizing t with
  | nil => rfl
  | cons u items ih =>
      have hc : Point.utf8Size 0x2C = 1 := by decide
      simp only [join, utf8Len_append, utf8Len_cons, ih, hc, List.map_cons, List.sum_cons]
      omega

/-- The text of an object, from its keys and the texts of its values. -/
def object (items : List (Text × Text)) : Text :=
  0x7B :: join (items.map fun e => quote e.1 ++ 0x3A :: e.2) ++ [0x7D]

theorem dumpsDict_eq {items : List (Text × Value)} {ts : List (Text × Text)}
    (h : List.Forall₂ (fun e e' => e.1 = e'.1 ∧ dumps e.2 = .ok e'.2) items ts) :
    dumpsDict (items.map fun e => (.text e.1, e.2)) = .ok (ts.map fun e => quote e.1 ++ 0x3A :: e.2) := by
  induction h with
  | nil => rfl
  | cons he _ ih =>
      obtain ⟨hk, hv⟩ := he
      simp only [List.map_cons, dumpsDict, hv, ih, hk]
      rfl

theorem dumps_value {ts : List (Text × Text)}
    (h : List.Forall₂ (fun e e' => e.1 = e'.1 ∧ dumps e.2 = .ok e'.2) d.items ts) :
    dumps d.value = .ok (object ts) := by
  simp only [Dict.value, dumps, dumpsDict_eq h]
  rfl

theorem utf8Len_object {e : Text × Text} {items : List (Text × Text)} :
    utf8Len (object (e :: items)) =
      ((e :: items).map fun e => quotedLen e.1 + utf8Len e.2 + 4).sum + 1 := by
  have h₁ : Point.utf8Size 0x7B = 1 := by decide
  have h₂ : Point.utf8Size 0x7D = 1 := by decide
  have h₃ : Point.utf8Size 0x3A = 1 := by decide
  have hsum : ((items.map fun e => quote e.1 ++ 0x3A :: e.2).map fun u => utf8Len u + 1) =
      items.map fun e => quotedLen e.1 + utf8Len e.2 + 4 := by
    rw [List.map_map]
    refine List.map_congr_left fun e _ => ?_
    simp only [Function.comp_apply, utf8Len_append, utf8Len_quote, utf8Len_cons, h₃]
    omega
  simp only [object, List.map_cons, List.cons_append, utf8Len_cons, utf8Len_append, utf8Len_join, hsum,
    utf8Len_quote, utf8Len_nil, List.sum_cons, h₁, h₂, h₃]
  omega

/-! ## Dictionaries -/

def Dict.Storable (d : Dict) : Prop := ∀ e ∈ d.items, Clean e.1 ∧ e.2.Storable (maxDepth - 1)

theorem Dict.encode_ok : (∃ t, encode d.value = .ok t) ↔ d.Storable := by
  rw [Codec.encode_ok]
  constructor
  · intro h e he
    obtain ⟨⟨k, hk, hc⟩, hv⟩ := h (.text e.1, e.2) (List.mem_map.mpr ⟨e, he, rfl⟩)
    cases hk
    exact ⟨hc, hv⟩
  · rintro h e' he'
    obtain ⟨e, he, rfl⟩ := List.mem_map.mp he'
    exact ⟨⟨e.1, rfl, (h e he).1⟩, (h e he).2⟩

theorem Dict.Storable.set (h : d.Storable) (hk : Clean k) (hv : v.Storable (maxDepth - 1)) :
    (d.set k v).Storable := by
  unfold Dict.set
  split_ifs
  · intro e' he'
    obtain ⟨e, he, rfl⟩ := List.mem_map.mp he'
    split_ifs
    · exact ⟨hk, hv⟩
    · exact h e he
  · intro e he
    rcases List.mem_append.mp he with he | he
    · exact h e he
    · obtain rfl := List.mem_singleton.mp he
      exact ⟨hk, hv⟩

theorem clean_cut {tail : Bool} (h : Clean t) : Clean (cut tail t) := by
  simp only [cut]
  split_ifs
  · exact clean_nil
  · exact h.drop _
  · exact h.take _

/-! ## Cutting -/

/-- An error that can be stored and is small enough. -/
def Fits (d : Dict) (cap : ℕ) : Prop := ∃ text, encode d.value = .ok text ∧ utf8Len text ≤ cap

theorem fits_of_dumps {text : Text} (hd : d.Storable) (h : dumps d.value = .ok text)
    (hl : utf8Len text ≤ cap) : Fits d cap := by
  obtain ⟨text', ht⟩ := Dict.encode_ok.mpr hd
  obtain ⟨_, -, hdumps⟩ := bind_ok.mp ht
  cases h.symm.trans hdumps
  exact ⟨text, ht, hl⟩

theorem fits_minimal (ht : Clean t) (hcap : 1024 ≤ cap) : Fits (minimal t) cap := by
  have hd : (minimal t).Storable := by
    intro e he
    simp only [minimal, List.mem_cons, List.not_mem_nil, or_false] at he
    rcases he with rfl | rfl
    · exact ⟨show Clean typeKey by decide, ht.take 64⟩
    · exact ⟨show Clean (ofString "truncated") by decide, trivial⟩
  have htext : dumps (minimal t).value =
      .ok (object [(typeKey, quote (t.take 64)), (ofString "truncated", ofString "true")]) := rfl
  refine fits_of_dumps hd htext ?_
  have hlen := quotedLen_take_le (t := t) 64
  have h₁ : quotedLen typeKey = 4 := by decide
  have h₂ : quotedLen (ofString "truncated") = 9 := by decide
  have h₃ : utf8Len (ofString "true") = 4 := by decide
  simp only [utf8Len_object, List.map_cons, List.map_nil, List.sum_cons, List.sum_nil, utf8Len_quote, h₁, h₂,
    h₃]
  omega

theorem shrink_fits {data : Dict} (hd : data.Storable) (ht : error.get typeKey = some (.text t))
    (hc : Clean t) (hcap : 1024 ≤ cap) :
    ∃ e, shrink str error cap keepTail data = .ok e ∧ Fits e cap := by
  induction data using shrink.induct keepTail with
  | case1 data ih =>
      obtain ⟨text, htext⟩ := Dict.encode_ok.mpr hd
      rw [shrink, htext, Except.bind]
      split_ifs with hfit
      · exact ⟨data, rfl, text, htext, hfit⟩
      · split
        · refine ⟨minimal t, ?_, fits_minimal hc hcap⟩
          rw [ht]
          rfl
        · rename_i name u hl
          have hm := (Dict.longestOf_mem hl).1
          refine ih name u hl (hd.set (hd _ hm).1 ?_)
          exact clean_cut (hd _ hm).2

theorem Dict.mem_of_get (h : d.get k = some v) : (k, v) ∈ d.items := by
  obtain ⟨l, l', he, -⟩ := List.lookup_eq_some_iff.mp h
  rw [he]
  exact List.mem_append_right _ List.mem_cons_self

theorem truncate_fits (hd : error.Storable) (ht : error.get typeKey = some (.text t)) (hcap : 1024 ≤ cap) :
    ∃ e, truncate str error cap keepTail = .ok e ∧ Fits e cap := by
  have hc : Clean t := (hd _ (Dict.mem_of_get ht)).2
  obtain ⟨text, htext⟩ := Dict.encode_ok.mpr hd
  by_cases hfit : utf8Len text ≤ cap
  · exact ⟨error, by simp [truncate, htext, hfit, bind, Except.bind, pure, Except.pure], text, htext, hfit⟩
  · have hflag : (error.set (ofString "truncated") (.bool true)).Storable := hd.set (by decide) trivial
    obtain ⟨e, he, hf⟩ := @shrink_fits str _ _ _ keepTail _ hflag ht hc hcap
    exact ⟨e, by simpa [truncate, htext, hfit, bind, Except.bind] using he, hf⟩

end Fronta.Codec
