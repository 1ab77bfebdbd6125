import Fronta.Codec.Lemmas.Encode
import Fronta.Codec.Reader

/-!
# What was encoded is read back

Each part of the text is read back in front of a comma, a closing mark or the end, where no number goes on.
-/

namespace Fronta.Codec

open Unicode Reading

variable {t w f e rest : Text} {n : ℕ}

/-! ## Numbers -/

/-- What a number may go on with. -/
def numeric (p : Point) : Bool := isDigit p || p = 0x2E || p = 0x65 || p = 0x45

theorem isDigit_ofChar {c : Char} (h : c.isDigit = true) : isDigit (Point.ofChar c) = true := by
  simp only [Char.isDigit, Bool.and_eq_true, decide_eq_true_eq] at h
  simp only [isDigit, Bool.and_eq_true, decide_eq_true_eq]
  exact ⟨h.1, h.2⟩

theorem digits_isDigit : ∀ p ∈ digits n, isDigit p = true := by
  intro p hp
  obtain ⟨c, hc, rfl⟩ := List.mem_map.mp hp
  exact isDigit_ofChar (Nat.isDigit_of_mem_toDigits (by decide) (by decide) hc)

theorem natOf_digits : natOf (digits n) = n := by
  have h : natOf (digits n) = Nat.ofDigitChars 10 (Nat.toDigits 10 n) 0 := by
    rw [natOf, digits, List.foldl_map, Nat.ofDigitChars_eq_foldl]
    rfl
  rw [h, Nat.ofDigitChars_ten_toDigits]

theorem digits_of_lt (h : n < 10) : digits n = [Point.ofChar n.digitChar] := by
  rw [digits, Nat.toDigits_of_lt_base h]
  rfl

theorem digits_of_le (h : 10 ≤ n) : digits n = digits (n / 10) ++ [Point.ofChar (n % 10).digitChar] := by
  rw [digits, digits, Nat.toDigits_of_base_le (by decide) h, List.map_append]
  rfl

theorem digitChar_ne_zero : ∀ k < 10, 0 < k → Point.ofChar k.digitChar ≠ 0x30 := by decide

/-- No leading zero. -/
theorem digits_head (h : 0 < n) : ∃ p ds, digits n = p :: ds ∧ p ≠ 0x30 := by
  induction n using Nat.strongRecOn with
  | ind n ih =>
      by_cases hn : n < 10
      · exact ⟨_, [], digits_of_lt hn, digitChar_ne_zero n hn h⟩
      · obtain ⟨p, ds, hds, hp⟩ := ih (n / 10) (by omega) (by omega)
        exact ⟨p, _, by rw [digits_of_le (by omega), hds]; rfl, hp⟩

theorem whole_digits : Whole (digits n) := by
  rcases Nat.eq_zero_or_pos n with rfl | h
  · exact Or.inl (by decide)
  · obtain ⟨p, ds, hds, hp⟩ := digits_head h
    exact Or.inr ⟨p, ds, hds, hp, digits_isDigit⟩

theorem Whole.cons (h : Whole w) : ∃ p ds, w = p :: ds ∧ isDigit p = true := by
  rcases h with rfl | ⟨p, ds, rfl, -, hd⟩
  · exact ⟨0x30, [], rfl, by decide⟩
  · exact ⟨p, ds, rfl, hd p List.mem_cons_self⟩

theorem ne_of_isDigit {p q : Point} (hp : isDigit p = true) (hq : isDigit q = false) : p ≠ q := by
  rintro rfl
  simp [hp] at hq

theorem whole_append (h : Whole w) (hr : Stops isDigit rest) : whole (w ++ rest) = some (w, rest) := by
  rcases h with rfl | ⟨p, ds, rfl, hp, hd⟩
  · rfl
  · have hds : ∀ q ∈ ds, isDigit q = true := fun q hq => hd q (List.mem_cons_of_mem _ hq)
    rw [List.cons_append, whole, if_neg hp, if_pos (hd p List.mem_cons_self), takeWhile_append hds hr,
      dropWhile_append hds hr]

theorem minus_append {m : Text} (hm : m = [] ∨ m = [0x2D]) (h : Whole w) :
    minus (m ++ (w ++ rest)) = (m, w ++ rest) := by
  obtain ⟨p, ds, rfl, hp⟩ := h.cons
  rcases hm with rfl | rfl
  · exact if_neg (ne_of_isDigit hp (by decide))
  · rfl

theorem takeWhile_digits {ds : Text} (hd : Digits ds) (hr : Stops isDigit rest) :
    (ds ++ rest).takeWhile isDigit = ds ∧ (ds ++ rest).dropWhile isDigit = rest :=
  ⟨takeWhile_append hd.2 hr, dropWhile_append hd.2 hr⟩

theorem fraction_append (hf : f = [] ∨ ∃ ds, f = 0x2E :: ds ∧ Digits ds)
    (hr : Stops (fun p => isDigit p || p = 0x2E) rest) : fraction (f ++ rest) = (f, rest) := by
  rcases hf with rfl | ⟨ds, rfl, hd⟩
  · cases rest with
    | nil => rfl
    | cons p rest =>
        have hp := stops_cons.mp hr
        simp only [Bool.or_eq_false_iff, decide_eq_false_iff_not] at hp
        exact if_neg fun h => hp.2 h.1
  · have hstop : Stops isDigit rest := hr.mono fun p hp => by simp [hp]
    obtain ⟨ht, hdrop⟩ := takeWhile_digits hd hstop
    rw [List.cons_append, fraction, ht, hdrop, if_pos ⟨rfl, hd.1⟩]

theorem exponent_append (he : e = [] ∨ ∃ s ds, e = 0x65 :: s :: ds ∧ (s = 0x2B ∨ s = 0x2D) ∧ Digits ds)
    (hr : Stops numeric rest) : exponent (e ++ rest) = (e, rest) := by
  rcases he with rfl | ⟨s, ds, rfl, hs, hd⟩
  · cases rest with
    | nil => rfl
    | cons p rest =>
        have hp := stops_cons.mp hr
        simp only [numeric, Bool.or_eq_false_iff, decide_eq_false_iff_not] at hp
        exact if_neg fun h => h.1.elim hp.1.2 hp.2
  · have hstop : Stops isDigit rest := hr.mono fun p hp => by simp [numeric, hp]
    obtain ⟨ht, hdrop⟩ := takeWhile_digits hd hstop
    have hsign : sign (s :: (ds ++ rest)) = ([s], ds ++ rest) := if_pos hs
    simp only [List.cons_append, exponent, hsign, ht, hdrop, true_or, ne_eq, hd.1, not_false_eq_true, and_self,
      if_true]
    rfl

/-- The text of a number is taken apart as it was put together. -/
theorem number_append {m : Text} (h : Parts m w f e) (hr : Stops numeric rest) :
    number (m ++ w ++ f ++ e ++ rest) =
      if f = [] ∧ e = [] then
        if w.length ≤ maxDigits then some (.int (if m = [] then natOf w else -natOf w), rest) else none
      else (floatOf (m ++ w ++ f ++ e)).map fun v => (v, rest) := by
  have hexp : Stops (fun p => isDigit p || p = 0x2E) (e ++ rest) := by
    rcases h.exponent with rfl | ⟨s, ds, rfl, -, -⟩
    · exact hr.mono fun p hp => by simp only [numeric]; simp [hp]
    · exact stops_cons.mpr (by decide)
  have hfrac : Stops isDigit (f ++ (e ++ rest)) := by
    rcases h.fraction with rfl | ⟨ds, rfl, -⟩
    · exact hexp.mono fun p hp => by simp [hp]
    · exact stops_cons.mpr (by decide)
  have htext : m ++ w ++ f ++ e ++ rest = m ++ (w ++ (f ++ (e ++ rest))) := by simp only [List.append_assoc]
  rw [htext, number, minus_append h.minus h.whole]
  simp only [whole_append h.whole hfrac, Option.bind_eq_bind, Option.bind_some,
    fraction_append h.fraction hexp, exponent_append h.exponent hr]
  split_ifs
  · rfl
  · rfl
  · rfl
  · exact Option.map_eq_bind.symm

theorem number_int {k : ℤ} (hlen : (digits k.natAbs).length ≤ maxDigits) (hr : Stops numeric rest) :
    number (decimal k ++ rest) = some (.int k, rest) := by
  have hparts : ∀ m, m = [] ∨ m = [0x2D] → Parts m (digits k.natAbs) [] [] := fun m hm =>
    ⟨hm, whole_digits, Or.inl rfl, Or.inl rfl⟩
  have hnum := fun m hm => number_append (hparts m hm) hr
  simp only [List.append_nil, and_self, if_true, if_pos hlen, natOf_digits] at hnum
  unfold decimal
  split_ifs with hk
  · have hneg : -(k.natAbs : ℤ) = k := by omega
    have h := hnum [0x2D] (Or.inr rfl)
    rw [hneg] at h
    simpa using h
  · have hpos : (k.natAbs : ℤ) = k := by omega
    have h := hnum [] (Or.inl rfl)
    rw [hpos] at h
    simpa using h

theorem floatOf_text (d : Decimal) : floatOf d.text = some (.float (some d)) := dif_pos ⟨d.short, d.ascii⟩

theorem number_float {d : Decimal} (h : d.Literal) (hr : Stops numeric rest) :
    number (d.text ++ rest) = some (.float (some d), rest) := by
  obtain ⟨m, w, f, e, hp, hne, ht⟩ := h
  rw [ht, number_append hp hr, if_neg (not_and_or.mpr hne), ← ht, floatOf_text]
  rfl

/-! ## Texts -/

theorem codePoint_control (h : n < 0x20) :
    codePoint 0x30 0x30 (hexDigit (n / 16)) (hexDigit (n % 16)) = some (Fin.ofNat _ n) := by
  decide +revert

/-- A backslash and a letter. -/
theorem string_letter {c q : Point} (hc : c ≠ 0x75) (hq : unescape c = some q) :
    string (0x5C :: c :: t) = (string t).map fun r => (q :: r.1, r.2) := by
  have hquote : (0x5C : Point) ≠ 0x22 := by decide
  rw [string.eq_def]
  simp only [if_neg hquote, if_true, if_neg hc, hq]
  exact Option.map_eq_bind.symm

theorem string_control {p : Point} (h : p.val < 0x20) :
    string (0x5C :: 0x75 :: 0x30 :: 0x30 :: hexDigit (p.val / 16) :: hexDigit (p.val % 16) :: t) =
      (string t).map fun r => (p :: r.1, r.2) := by
  have hp : (Fin.ofNat _ p.val : Point) = p := Fin.ext (Nat.mod_eq_of_lt p.isLt)
  have hcode := codePoint_control h
  have hquote : (0x5C : Point) ≠ 0x22 := by decide
  rw [string.eq_def]
  simp only [if_neg hquote, if_true, hcode, hp]
  exact Option.map_eq_bind.symm

theorem string_plain {p : Point} (hquote : p ≠ 0x22) (hback : p ≠ 0x5C) (h : ¬ p.val < 0x20) :
    string (p :: t) = (string t).map fun r => (p :: r.1, r.2) := by
  rw [string.eq_def]
  simp only [if_neg hquote, if_neg hback, if_neg h]
  exact Option.map_eq_bind.symm

theorem string_escape {p : Point} : string (escape p ++ t) = (string t).map fun r => (p :: r.1, r.2) := by
  have hval : ∀ {q : Point}, p.val = q.val → p = q := Fin.ext
  unfold escape
  split
  case h_8 hquote hback _ _ _ _ _ =>
    split_ifs with hn
    · exact string_control hn
    · exact string_plain (fun h => hquote (congrArg Fin.val h)) (fun h => hback (congrArg Fin.val h)) hn
  case h_1 h => exact hval (q := 0x22) h ▸ string_letter (by decide) (by decide)
  case h_2 h => exact hval (q := 0x5C) h ▸ string_letter (by decide) (by decide)
  case h_3 h => exact hval (q := 0x0A) h ▸ string_letter (by decide) (by decide)
  case h_4 h => exact hval (q := 0x0D) h ▸ string_letter (by decide) (by decide)
  case h_5 h => exact hval (q := 0x09) h ▸ string_letter (by decide) (by decide)
  case h_6 h => exact hval (q := 0x0C) h ▸ string_letter (by decide) (by decide)
  case h_7 h => exact hval (q := 0x08) h ▸ string_letter (by decide) (by decide)

theorem string_quote : string (t.flatMap escape ++ 0x22 :: rest) = some (t, rest) := by
  induction t with
  | nil => simp [string.eq_def]
  | cons p t ih =>
      rw [List.flatMap_cons, List.append_assoc, string_escape, ih]
      rfl

end Fronta.Codec
