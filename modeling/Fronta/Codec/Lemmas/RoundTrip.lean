import Fronta.Codec.Lemmas.Reader

/-!
# Values that were encoded are read back

By induction on the levels of a value: its items are read back in front of a comma or the closing mark, as their
texts begin with no blank and with no closing mark.
-/

namespace Fronta.Codec

open Unicode Reading

variable {t rest : Text} {v : Value} {levels n : ℕ}

/-! ## Parts -/

theorem join_eq {ts : List Text} : join ts = commas 0x2C ts := by
  induction ts with
  | nil => rfl
  | cons t ts ih =>
      cases ts with
      | nil => rfl
      | cons t' ts => simp only [join, commas, ih]

/-- A text begins with a mark that is neither blank nor closes a list. -/
def Begins (t : Text) : Prop := ∃ p u, t = p :: u ∧ blank p = false ∧ p ≠ 0x5D

theorem begins_append {u : Text} (h : Begins t) : Begins (t ++ u) := by
  obtain ⟨p, u', rfl, hp⟩ := h
  exact ⟨p, u' ++ u, rfl, hp⟩

theorem begins_whole {w : Text} (h : Whole w) : Begins w := by
  obtain ⟨p, ds, rfl, hp⟩ := h.cons
  have hne : ∀ q, isDigit q = false → p ≠ q := fun q => ne_of_isDigit hp
  refine ⟨p, ds, rfl, ?_, hne _ (by decide)⟩
  simp [blank, hne 0x20 (by decide), hne 0x09 (by decide), hne 0x0A (by decide), hne 0x0D (by decide)]

theorem begins_parts {m w f e : Text} (h : Parts m w f e) : Begins (m ++ w ++ f ++ e) := by
  refine begins_append (begins_append ?_)
  rcases h.minus with rfl | rfl
  · exact begins_whole h.whole
  · exact ⟨0x2D, w, rfl, by decide, by decide⟩

theorem parts_decimal {k : ℤ} :
    ∃ m, Parts m (digits k.natAbs) [] [] ∧ decimal k = m ++ digits k.natAbs ++ [] ++ [] := by
  have hparts : ∀ m, m = [] ∨ m = [0x2D] → Parts m (digits k.natAbs) [] [] := fun m hm =>
    ⟨hm, whole_digits, Or.inl rfl, Or.inl rfl⟩
  unfold decimal
  split_ifs
  · exact ⟨[0x2D], hparts _ (Or.inr rfl), by simp⟩
  · exact ⟨[], hparts _ (Or.inl rfl), by simp⟩

theorem Value.Literal.float {d : Decimal} (h : Value.Literal n (.float (some d))) : d.Literal := by
  cases n <;> exact h

theorem dumps_begins (hl : v.Literal n) (ht : dumps v = .ok t) : Begins t := by
  cases v with
  | null => cases ht; exact ⟨_, _, rfl, by decide, by decide⟩
  | bool b => cases ht; cases b <;> exact ⟨_, _, rfl, by decide, by decide⟩
  | int k =>
      rw [dumps] at ht
      split_ifs at ht
      cases ht
      obtain ⟨m, hp, he⟩ := parts_decimal (k := k)
      exact he ▸ begins_parts hp
  | float d =>
      cases d with
      | none => cases ht
      | some d =>
          cases ht
          obtain ⟨m, w, f, e, hp, -, he⟩ := hl.float
          exact he ▸ begins_parts hp
  | text s => cases ht; exact ⟨_, _, rfl, by decide, by decide⟩
  | list items =>
      obtain ⟨ts, -, h⟩ := bind_ok.mp (by rwa [dumps] at ht)
      cases h
      exact ⟨_, _, rfl, by decide, by decide⟩
  | dict items =>
      obtain ⟨ts, -, h⟩ := bind_ok.mp (by rwa [dumps] at ht)
      cases h
      exact ⟨_, _, rfl, by decide, by decide⟩
  | circular => cases ht
  | object typeName => cases ht

/-! ## Scalars -/

theorem value_number {m w f e : Text} (h : Parts m w f e) :
    value levels (m ++ w ++ f ++ e ++ rest) = number (m ++ w ++ f ++ e ++ rest) := by
  obtain ⟨p, u, hu, hp⟩ : ∃ p u, m ++ w ++ f ++ e ++ rest = p :: u ∧ (isDigit p = true ∨ p = 0x2D) := by
    obtain ⟨p, ds, hw, hp⟩ := h.whole.cons
    rcases h.minus with rfl | rfl
    · exact ⟨p, _, by simp only [hw]; rfl, Or.inl hp⟩
    · exact ⟨0x2D, _, rfl, Or.inr rfl⟩
  have hne : ∀ q, isDigit q = false → 0x2D ≠ q → p ≠ q := fun q hq hm => by
    rcases hp with hp | rfl
    · exact ne_of_isDigit hp hq
    · exact hm
  have hkey : keyword (p :: u) = none := by
    simp [keyword, List.isPrefixOf?, ofString, Point.ofChar, (hne 0x6E (by decide) (by decide)).symm,
      (hne 0x74 (by decide) (by decide)).symm, (hne 0x66 (by decide) (by decide)).symm]
  have hopen : ¬ (p = 0x5B ∨ p = 0x7B) :=
    not_or.mpr ⟨hne _ (by decide) (by decide), hne _ (by decide) (by decide)⟩
  rw [hu, value.eq_def]
  simp only [if_neg (hne 0x22 (by decide) (by decide)), if_neg hopen, hkey]
  rfl

theorem value_null : value levels (ofString "null" ++ rest) = some (.null, rest) := by
  rw [value.eq_def]
  rfl

theorem value_bool {b : Bool} :
    value levels (ofString (if b then "true" else "false") ++ rest) = some (.bool b, rest) := by
  rw [value.eq_def]
  cases b <;> rfl

theorem value_text {s : Text} : value levels (quote s ++ rest) = some (.text s, rest) := by
  have h : quote s ++ rest = 0x22 :: (s.flatMap escape ++ 0x22 :: rest) := by simp [quote]
  rw [h, value.eq_def]
  simp only [if_true, string_quote]
  rfl

/-! ## Containers -/

section Containers

variable {α : Type} {close : Point} {item : Reader Point α} {items : List α} {ws : List Text}

theorem container_commas (h : List.Forall₂ (ReadsBack blank 0x2C close item) items ws)
    (hw : ∀ w ∈ ws, w.head? ≠ some close) (hb : blank close = false) (hc : 0x2C ≠ close) :
    container close item (commas 0x2C ws ++ close :: rest) = some (items, rest) := by
  cases h with
  | nil => simp [container, commas, hb]
  | @cons a w items ws ha hs =>
      have hne : a :: items ≠ [] := List.cons_ne_nil _ _
      have hall := List.Forall₂.cons ha hs
      have hskip : (commas 0x2C (w :: ws) ++ close :: rest).dropWhile blank = commas 0x2C (w :: ws) ++ close :: rest :=
        dropWhile_of_stops (stops_commas hall hne)
      have hlen : (a :: items).length ≤ (commas 0x2C (w :: ws) ++ close :: rest).length := by
        have : (w :: ws).length ≤ (commas 0x2C (w :: ws)).length + 1 := length_le_commas
        have := hall.length_eq
        simp only [List.length_append, List.length_cons] at *
        omega
      obtain ⟨p, u, hu⟩ : ∃ p u, commas 0x2C (w :: ws) ++ close :: rest = p :: u ∧ p ≠ close := by
        obtain ⟨⟨p, u, rfl, -⟩, -⟩ := ha
        have hp : p ≠ close := fun h => hw _ List.mem_cons_self (by simp [h])
        cases ws <;> exact ⟨p, _, rfl, hp⟩
      have hread : separated blank 0x2C close item _ (commas 0x2C (w :: ws) ++ close :: rest) =
          some (a :: items, rest) :=
        separated_commas (by decide) hb hc hall hne hlen
      rw [hu.1] at hread hskip
      rw [container, hu.1, hskip]
      simp only [if_neg hu.2]
      exact hread

theorem member_append {value : Reader Point Value} {k : Text} {v : Value} (h : Begins t)
    (hv : value (t ++ rest) = some (v, rest)) :
    member value (quote k ++ 0x3A :: t ++ rest) = some ((.text k, v), rest) := by
  have htext : quote k ++ 0x3A :: t ++ rest = 0x22 :: (k.flatMap escape ++ 0x22 :: 0x3A :: (t ++ rest)) := by
    simp [quote]
  have hskip : (t ++ rest).dropWhile blank = t ++ rest := by
    obtain ⟨p, u, rfl, hp, -⟩ := h
    exact dropWhile_of_stops (stops_cons.mpr hp)
  have hcolon : blank 0x3A = false := by decide
  rw [htext]
  simp [member, string_quote, hcolon, hskip, hv]

end Containers

theorem value_list :
    value (levels + 1) (0x5B :: t) = (container 0x5D (value levels) t).map fun r => (.list r.1, r.2) := by
  have h : (0x5B : Point) ≠ 0x22 := by decide
  rw [value.eq_def]
  simp [h]

theorem value_dict :
    value (levels + 1) (0x7B :: t) = (container 0x7D (member (value levels)) t).map fun r => (.dict r.1, r.2) := by
  have h : (0x7B : Point) ≠ 0x22 ∧ (0x7B : Point) ≠ 0x5B := by decide
  rw [value.eq_def]
  simp [h.1, h.2]

theorem dumpsList_forall₂ {items : List Value} {ts : List Text} (h : dumpsList items = .ok ts) :
    List.Forall₂ (fun v t => dumps v = .ok t) items ts := by
  induction items generalizing ts with
  | nil => cases h; exact .nil
  | cons v items ih =>
      obtain ⟨t, ht, h⟩ := bind_ok.mp h
      obtain ⟨ts', hts, h⟩ := bind_ok.mp h
      cases h
      exact .cons ht (ih hts)

theorem dumpsDict_forall₂ {items : List (Key × Value)} {ts : List Text} (h : dumpsDict items = .ok ts) :
    List.Forall₂ (fun e u => ∃ k t, e.1 = .text k ∧ dumps e.2 = .ok t ∧ u = quote k ++ 0x3A :: t) items ts := by
  induction items generalizing ts with
  | nil => cases h; exact .nil
  | cons e items ih =>
      obtain ⟨key, v⟩ := e
      cases key with
      | other typeName => cases h
      | text k =>
          obtain ⟨t, ht, h⟩ := bind_ok.mp h
          obtain ⟨ts', hts, h⟩ := bind_ok.mp h
          cases h
          exact .cons ⟨k, t, rfl, ht, rfl⟩ (ih hts)


/-! ## Every value -/

theorem forall₂_mem {α β : Type} {R S : α → β → Prop} {as : List α} {bs : List β} (h : List.Forall₂ R as bs)
    (himp : ∀ a ∈ as, ∀ b ∈ bs, R a b → S a b) : List.Forall₂ S as bs := by
  obtain ⟨hlen, hzip⟩ := List.forall₂_iff_zip.mp h
  refine List.forall₂_iff_zip.mpr ⟨hlen, fun {a b} hab => ?_⟩
  obtain ⟨ha, hb⟩ := List.of_mem_zip hab
  exact himp a ha b hb (hzip hab)

theorem exists_left {α β : Type} {R : α → β → Prop} {as : List α} {bs : List β} (h : List.Forall₂ R as bs) {b : β}
    (hb : b ∈ bs) : ∃ a, R a b := by
  induction h with
  | nil => exact absurd hb List.not_mem_nil
  | cons hab _ ih =>
      rcases List.mem_cons.mp hb with rfl | hb
      · exact ⟨_, hab⟩
      · exact ih hb

theorem mark_stops {p : Point} (h : p = 0x2C ∨ p = 0x5D ∨ p = 0x7D) : Stops numeric (p :: rest) := by
  rcases h with rfl | rfl | rfl <;> exact stops_cons.mpr (by decide)

/-- `value` reads `t` back as `v` in front of whatever ends a number. -/
def Back (levels : ℕ) (v : Value) (t : Text) : Prop :=
  Begins t ∧ ∀ rest, Stops numeric rest → value levels (t ++ rest) = some (v, rest)

theorem list_append {items : List Value} {ts : List Text} (h : List.Forall₂ (Back levels) items ts) :
    value (levels + 1) (0x5B :: join ts ++ [0x5D] ++ rest) = some (.list items, rest) := by
  have hitems : List.Forall₂ (ReadsBack blank 0x2C 0x5D (value levels)) items ts := by
    refine h.imp fun v t hb => ⟨?_, fun p rest hp => hb.2 _ (mark_stops (hp.imp_right Or.inl))⟩
    obtain ⟨p, u, rfl, hp, -⟩ := hb.1
    exact ⟨p, u, rfl, hp⟩
  have hheads : ∀ t ∈ ts, t.head? ≠ some 0x5D := fun t ht he => by
    obtain ⟨v, hb⟩ := exists_left h ht
    obtain ⟨p, u, rfl, -, hp⟩ := hb.1
    exact hp (Option.some.inj he)
  rw [List.append_assoc, List.cons_append, value_list, join_eq, List.singleton_append,
    container_commas hitems hheads (by decide) (by decide)]
  rfl

theorem dict_append {items : List (Key × Value)} {ts : List Text}
    (h : List.Forall₂ (fun e u => ∃ k t, e.1 = .text k ∧ Back levels e.2 t ∧ u = quote k ++ 0x3A :: t) items ts) :
    value (levels + 1) (0x7B :: join ts ++ [0x7D] ++ rest) = some (.dict items, rest) := by
  have hitems : List.Forall₂ (ReadsBack blank 0x2C 0x7D (member (value levels))) items ts := by
    refine h.imp fun e u ⟨k, t, hk, hb, hu⟩ => ?_
    obtain ⟨key, v⟩ := e
    obtain rfl : key = .text k := hk
    refine ⟨⟨0x22, _, by rw [hu]; rfl, by decide⟩, fun p rest hp => ?_⟩
    rw [hu]
    exact member_append hb.1 (hb.2 _ (mark_stops (hp.imp_right Or.inr)))
  have hheads : ∀ u ∈ ts, u.head? ≠ some 0x7D := fun u hu he => by
    obtain ⟨e, k, t, -, -, rfl⟩ := exists_left h hu
    exact absurd (Option.some.inj he) (by decide)
  rw [List.append_assoc, List.cons_append, value_dict, join_eq, List.singleton_append,
    container_commas hitems hheads (by decide) (by decide)]
  rfl

theorem length_item {ts : List Text} {w : Text} {a b : Point} (hw : w ∈ ts)
    (hlen : (a :: join ts ++ [b]).length ≤ levels + 1) : w.length ≤ levels := by
  have : w.length ≤ (commas 0x2C ts).length := length_le_of_mem_commas hw
  rw [← join_eq] at this
  simp only [List.length_append, List.length_cons, List.length_nil] at hlen
  omega

theorem value_dumps {n : ℕ} {v : Value} {t rest : Text} {levels : ℕ} (hs : v.Storable n) (hl : v.Literal n)
    (ht : dumps v = .ok t) (hlen : t.length ≤ levels) (hr : Stops numeric rest) :
    value levels (t ++ rest) = some (v, rest) := by
  cases v with
  | null => cases ht; exact value_null
  | bool b => cases ht; exact value_bool
  | int k =>
      rw [dumps] at ht
      split_ifs at ht with hk
      cases ht
      obtain ⟨m, hp, he⟩ := parts_decimal (k := k)
      rw [he, value_number hp, ← he, number_int hk hr]
  | float d =>
      cases d with
      | none => cases ht
      | some d =>
          cases ht
          obtain ⟨m, w, f, e, hp, -, he⟩ := hl.float
          rw [he, value_number hp, ← he, number_float hl.float hr]
  | text s => cases ht; exact value_text
  | list items =>
      obtain ⟨ts, hts, h⟩ := bind_ok.mp (by rwa [dumps] at ht)
      cases h
      cases n with
      | zero => exact absurd hs id
      | succ n =>
          cases levels with
          | zero => exact absurd hlen (by simp)
          | succ levels =>
              exact list_append (forall₂_mem (dumpsList_forall₂ hts) fun v hv w hw hd =>
                ⟨dumps_begins (hl v hv) hd, fun rest => value_dumps (hs v hv) (hl v hv) hd (length_item hw hlen)⟩)
  | dict items =>
      obtain ⟨ts, hts, h⟩ := bind_ok.mp (by rwa [dumps] at ht)
      cases h
      cases n with
      | zero => exact absurd hs id
      | succ n =>
          cases levels with
          | zero => exact absurd hlen (by simp)
          | succ levels =>
              refine dict_append (forall₂_mem (dumpsDict_forall₂ hts) fun e he w hw ⟨k, t, hk, hd, hu⟩ => ?_)
              have hlen' : t.length ≤ levels := by
                have := length_item hw hlen
                simp only [hu, List.length_append, List.length_cons] at this
                omega
              exact ⟨k, t, hk, ⟨dumps_begins (hl e he) hd, fun rest => value_dumps (hs e he).2 (hl e he) hd hlen'⟩, hu⟩
  | circular => cases ht
  | object typeName => cases ht
termination_by n

theorem loads_dumps (hs : v.Storable n) (hl : v.Literal n) (ht : dumps v = .ok t) : loads t = some v := by
  have hskip : t.dropWhile blank = t := by
    obtain ⟨p, u, rfl, hp, -⟩ := dumps_begins hl ht
    exact dropWhile_of_stops (stops_cons.mpr hp)
  have hread : value t.length (t ++ []) = some (v, []) := value_dumps hs hl ht (Nat.le_refl _) stops_nil
  rw [List.append_nil] at hread
  rw [loads, hskip, hread]
  simp only [Option.bind_eq_bind, Option.bind_some, List.dropWhile_nil, if_true]
  rfl

end Fronta.Codec
