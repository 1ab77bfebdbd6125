import Fronta.Codec.Json

/-!
# What the encoder accepts

The encoder accepts exactly the values that can be stored, and its text is clean.
-/

namespace Fronta.Codec

open Unicode

variable {t u : Text} {v : Value} {n : ℕ} {failure : Raised}

/-! ## Texts -/

theorem checkText_ok : checkText t = .ok () ↔ Clean t := by
  unfold checkText
  split_ifs with h₁ h₂
  · obtain ⟨p, hp, h⟩ := List.any_eq_true.mp h₁
    exact iff_of_false nofun fun hc => (hc p hp).1 (of_decide_eq_true h)
  · obtain ⟨p, hp, h⟩ := List.any_eq_true.mp h₂
    exact iff_of_false nofun fun hc => by simp [(hc p hp).2] at h
  · simp only [List.any_eq_true, not_exists, not_and, decide_eq_true_eq, Bool.not_eq_true] at h₁ h₂
    exact iff_of_true rfl fun p hp => ⟨h₁ p hp, h₂ p hp⟩

theorem clean_sanitize : Clean (sanitize t) := by
  refine clean_replaceWhere fun p hp hs => ⟨?_, hs⟩
  obtain ⟨q, -, rfl⟩ := List.mem_map.mp hp
  split_ifs with h
  · decide
  · simpa using h

theorem clean_digits : Clean (digits n) := by
  intro p hp
  obtain ⟨c, hc, rfl⟩ := List.mem_map.mp hp
  have hd : c.isDigit = true := Nat.isDigit_of_mem_toDigits (by decide) (by decide) hc
  simp only [Char.isDigit, Bool.and_eq_true, decide_eq_true_eq] at hd
  have h₁ : 48 ≤ c.val.toNat := hd.1
  have h₂ : c.val.toNat ≤ 57 := hd.2
  refine ⟨Nat.ne_of_gt (Nat.lt_of_lt_of_le (by decide) h₁), ?_⟩
  rw [Point.surrogate, Bool.and_eq_false_iff]
  exact Or.inl (decide_eq_false (Nat.not_le.mpr (Nat.lt_of_le_of_lt h₂ (by decide))))

theorem clean_decimal {n : ℤ} : Clean (decimal n) := by
  unfold decimal
  split_ifs
  · exact clean_cons.mpr ⟨by decide, clean_digits⟩
  · exact clean_digits

theorem Decimal.clean (d : Decimal) : Clean d.text := fun p hp => by
  have h : Clean (ofString "0123456789.e+-") := by decide
  exact h p (List.contains_iff_mem.mp (List.all_eq_true.mp d.ascii p hp))

theorem hexDigit_clean {k : ℕ} (h : k < 16) :
    (hexDigit k).val ≠ 0 ∧ (hexDigit k).surrogate = false := by
  decide +kernel +revert

theorem escape_clean {p : Point} (h : p.val ≠ 0 ∧ p.surrogate = false) : Clean (escape p) := by
  unfold escape
  split
  case h_8 =>
    split_ifs with hn
    · simp only [clean_append, clean_cons, clean_nil, and_true]
      exact ⟨by decide, hexDigit_clean (by omega), hexDigit_clean (by omega)⟩
    · simpa using h
  all_goals decide

theorem clean_quote (h : Clean t) : Clean (quote t) := by
  have hesc : Clean (t.flatMap escape) := fun p hp => by
    obtain ⟨q, hq, hp⟩ := List.mem_flatMap.mp hp
    exact escape_clean (h q hq) p hp
  simp only [quote, clean_cons, List.cons_append, clean_append, clean_nil]
  exact ⟨by decide, hesc, by decide, trivial⟩

theorem clean_join {items : List Text} (h : ∀ t ∈ items, Clean t) : Clean (join items) := by
  induction items with
  | nil => exact clean_nil
  | cons t items ih =>
      have hrest := ih fun t ht => h t (List.mem_cons_of_mem _ ht)
      cases items with
      | nil => exact h t List.mem_cons_self
      | cons t' items =>
          exact clean_append.mpr ⟨h t List.mem_cons_self, clean_cons.mpr ⟨by decide, hrest⟩⟩

/-! ## Values -/

theorem bind_ok {α β : Type} {x : Except Raised α} {f : α → Except Raised β} {b : β} :
    x >>= f = .ok b ↔ ∃ a, x = .ok a ∧ f a = .ok b := by
  cases x with
  | error e => exact iff_of_false nofun fun ⟨a, ha, _⟩ => by cases ha
  | ok a => exact ⟨fun h => ⟨a, rfl, h⟩, fun ⟨a', ha, h⟩ => by cases ha; exact h⟩

theorem forM_ok {α : Type} {f : α → Except Raised Unit} {items : List α} :
    items.forM f = .ok () ↔ ∀ a ∈ items, f a = .ok () := by
  induction items with
  | nil => exact iff_of_true rfl nofun
  | cons a items ih =>
      have hb : (a :: items).forM f = .ok () ↔ ∃ u, f a = .ok u ∧ items.forM f = .ok () := bind_ok
      rw [hb, ih, List.forall_mem_cons]
      exact ⟨fun ⟨_, h⟩ => h, fun h => ⟨(), h⟩⟩

theorem checkKey_ok {k : Key} : checkKey k = .ok () ↔ ∃ t, k = .text t ∧ Clean t := by
  cases k with
  | text t => simp [checkKey, checkText_ok]
  | other typeName => exact iff_of_false nofun fun ⟨t, ht, _⟩ => by cases ht

theorem dumpsList_clean {items : List Value} (h : ∀ v ∈ items, ∃ t, dumps v = .ok t ∧ Clean t) :
    ∃ ts, dumpsList items = .ok ts ∧ ∀ t ∈ ts, Clean t := by
  induction items with
  | nil => exact ⟨[], by simp [dumpsList, pure, Except.pure], nofun⟩
  | cons v items ih =>
      obtain ⟨t, ht, hc⟩ := h v List.mem_cons_self
      obtain ⟨ts, hts, hcs⟩ := ih fun v hv => h v (List.mem_cons_of_mem _ hv)
      exact ⟨t :: ts, by simp [dumpsList, ht, hts, bind, Except.bind, pure, Except.pure],
        List.forall_mem_cons.mpr ⟨hc, hcs⟩⟩

theorem dumpsDict_clean {items : List (Key × Value)}
    (h : ∀ e ∈ items, (∃ k, e.1 = .text k ∧ Clean k) ∧ ∃ t, dumps e.2 = .ok t ∧ Clean t) :
    ∃ ts, dumpsDict items = .ok ts ∧ ∀ t ∈ ts, Clean t := by
  induction items with
  | nil => exact ⟨[], by simp [dumpsDict, pure, Except.pure], nofun⟩
  | cons e items ih =>
      obtain ⟨key, v⟩ := e
      obtain ⟨⟨k, rfl, hk⟩, t, ht, hc⟩ := h _ List.mem_cons_self
      obtain ⟨ts, hts, hcs⟩ := ih fun e he => h e (List.mem_cons_of_mem _ he)
      refine ⟨(quote k ++ 0x3A :: t) :: ts,
        by simp [dumpsDict, ht, hts, bind, Except.bind, pure, Except.pure],
        List.forall_mem_cons.mpr ⟨?_, hcs⟩⟩
      exact clean_append.mpr ⟨clean_quote hk, clean_cons.mpr ⟨by decide, hc⟩⟩

theorem Value.Storable.check (h : v.Storable n) : check n v = .ok () := by
  induction n generalizing v with
  | zero =>
      cases v with
      | text t => exact checkText_ok.mpr h
      | list _ | dict _ | circular => exact absurd h id
      | _ => rfl
  | succ n ih =>
      cases v with
      | text t => exact checkText_ok.mpr h
      | list items => exact forM_ok.mpr fun v hv => ih (h v hv)
      | dict items =>
          exact forM_ok.mpr fun e he => bind_ok.mpr ⟨(), checkKey_ok.mpr (h e he).1, ih (h e he).2⟩
      | circular => exact absurd h id
      | _ => rfl

theorem Value.Storable.dumps {n : ℕ} {v : Value} (h : v.Storable n) :
    ∃ t, dumps v = .ok t ∧ Clean t := by
  cases v with
  | null => exact ⟨_, rfl, by decide⟩
  | bool b => exact ⟨_, rfl, by cases b <;> decide⟩
  | int k =>
      have hk : (digits k.natAbs).length ≤ maxDigits := by simpa only [Value.Storable] using h
      exact ⟨_, if_pos hk, clean_decimal⟩
  | float d =>
      cases d with
      | none => simp [Value.Storable] at h
      | some d => exact ⟨_, rfl, d.clean⟩
  | text t => exact ⟨_, rfl, clean_quote (by simpa only [Value.Storable] using h)⟩
  | list items =>
      cases n with
      | zero => exact absurd h id
      | succ n =>
          obtain ⟨ts, hts, hc⟩ := dumpsList_clean fun v hv => Value.Storable.dumps (h v hv)
          refine ⟨0x5B :: join ts ++ [0x5D], by simp only [Codec.dumps, hts]; rfl, ?_⟩
          exact clean_append.mpr ⟨clean_cons.mpr ⟨by decide, clean_join hc⟩, by decide⟩
  | dict items =>
      cases n with
      | zero => exact absurd h id
      | succ n =>
          obtain ⟨ts, hts, hc⟩ := dumpsDict_clean fun e he =>
            ⟨(h e he).1, Value.Storable.dumps (h e he).2⟩
          refine ⟨0x7B :: join ts ++ [0x7D], by simp only [Codec.dumps, hts]; rfl, ?_⟩
          exact clean_append.mpr ⟨clean_cons.mpr ⟨by decide, clean_join hc⟩, by decide⟩
  | circular => cases n <;> exact absurd h id
  | object typeName => cases n <;> exact absurd h id
termination_by n

theorem dumps_of_dumpsList {items : List Value} {ts : List Text} (h : dumpsList items = .ok ts) :
    ∀ v ∈ items, ∃ t, dumps v = .ok t := by
  induction items generalizing ts with
  | nil => nofun
  | cons v items ih =>
      obtain ⟨t, ht, h⟩ := bind_ok.mp h
      obtain ⟨ts', hts, -⟩ := bind_ok.mp h
      exact List.forall_mem_cons.mpr ⟨⟨t, ht⟩, ih hts⟩

theorem dumps_of_dumpsDict {items : List (Key × Value)} {ts : List Text} (h : dumpsDict items = .ok ts) :
    ∀ e ∈ items, ∃ t, dumps e.2 = .ok t := by
  induction items generalizing ts with
  | nil => nofun
  | cons e items ih =>
      obtain ⟨key, v⟩ := e
      cases key with
      | other typeName => cases h
      | text k =>
          obtain ⟨t, ht, h⟩ := bind_ok.mp h
          obtain ⟨ts', hts, -⟩ := bind_ok.mp h
          exact List.forall_mem_cons.mpr ⟨⟨t, ht⟩, ih hts⟩

theorem storable_of_encode {n : ℕ} {v : Value} {t : Text} (hc : check n v = .ok ())
    (hd : dumps v = .ok t) : v.Storable n := by
  cases v with
  | null | bool _ => simp only [Value.Storable]
  | int k =>
      simp only [dumps] at hd
      simp only [Value.Storable]
      split_ifs at hd with hk
      exact hk
  | float d =>
      cases d with
      | none => cases hd
      | some d => simp only [Value.Storable, Option.isSome_some]
  | text t => cases n <;> exact checkText_ok.mp hc
  | list items =>
      cases n with
      | zero => cases hc
      | succ n =>
          obtain ⟨ts, hts, -⟩ := bind_ok.mp hd
          intro v hv
          obtain ⟨t, ht⟩ := dumps_of_dumpsList hts v hv
          exact storable_of_encode (forM_ok.mp hc v hv) ht
  | dict items =>
      cases n with
      | zero => cases hc
      | succ n =>
          obtain ⟨ts, hts, -⟩ := bind_ok.mp hd
          intro e he
          obtain ⟨t, ht⟩ := dumps_of_dumpsDict hts e he
          obtain ⟨_, hk, hv⟩ := bind_ok.mp (forM_ok.mp hc e he)
          exact ⟨checkKey_ok.mp hk, storable_of_encode hv ht⟩
  | circular => cases hd
  | object typeName => cases hd
termination_by n

theorem encode_ok : (∃ t, encode v = .ok t) ↔ v.Storable maxDepth := by
  constructor
  · rintro ⟨t, h⟩
    obtain ⟨_, hc, hd⟩ := bind_ok.mp h
    exact storable_of_encode hc hd
  · intro h
    obtain ⟨t, ht, -⟩ := h.dumps
    exact ⟨t, bind_ok.mpr ⟨(), h.check, ht⟩⟩

theorem clean_encode (h : encode v = .ok t) : Clean t := by
  obtain ⟨t', ht, hc⟩ := (encode_ok.mp ⟨t, h⟩).dumps
  obtain ⟨_, -, hd⟩ := bind_ok.mp h
  cases ht.symm.trans hd
  exact hc

/-! ## What the encoder raises -/

theorem bind_error {α β : Type} {x : Except Raised α} {f : α → Except Raised β} :
    x >>= f = .error failure ↔ x = .error failure ∨ ∃ a, x = .ok a ∧ f a = .error failure := by
  cases x with
  | error e =>
      constructor
      · intro h
        cases h
        exact Or.inl rfl
      · rintro (h | ⟨a, ha, -⟩)
        · cases h
          rfl
        · cases ha
  | ok a =>
      constructor
      · exact fun h => Or.inr ⟨a, rfl, h⟩
      · rintro (h | ⟨a', ha, h⟩)
        · cases h
        · cases ha
          exact h

theorem checkText_error (h : checkText t = .error failure) : failure.rejection = true := by
  unfold checkText at h
  split_ifs at h <;> cases h <;> rfl

theorem checkKey_error {k : Key} (h : checkKey k = .error failure) : failure.rejection = true := by
  cases k with
  | text t => exact checkText_error h
  | other typeName => cases h; rfl

theorem forM_error {α : Type} {f : α → Except Raised Unit} {items : List α}
    (h : items.forM f = .error failure) : ∃ a ∈ items, f a = .error failure := by
  induction items with
  | nil => cases h
  | cons a items ih =>
      rcases bind_error.mp h with h | ⟨_, -, h⟩
      · exact ⟨a, List.mem_cons_self, h⟩
      · obtain ⟨a', ha, h⟩ := ih h
        exact ⟨a', List.mem_cons_of_mem _ ha, h⟩

theorem check_error (h : check n v = .error failure) : failure.rejection = true := by
  induction n generalizing v with
  | zero =>
      cases v with
      | text t => exact checkText_error h
      | list _ | dict _ | circular => cases h; rfl
      | _ => cases h
  | succ n ih =>
      cases v with
      | text t => exact checkText_error h
      | list items =>
          obtain ⟨v, -, h⟩ := forM_error h
          exact ih h
      | dict items =>
          obtain ⟨e, -, h⟩ := forM_error h
          exact (bind_error.mp h).elim checkKey_error fun ⟨_, _, h⟩ => ih h
      | circular => cases h; rfl
      | _ => cases h

mutual

theorem dumps_error : ∀ v : Value, dumps v = .error failure → failure.rejection = true
  | .null, h | .bool _, h | .float (some _), h | .text _, h => by cases h
  | .int n, h => by
      simp only [dumps] at h
      split_ifs at h <;> cases h
      rfl
  | .float none, h | .circular, h | .object _, h => by cases h; rfl
  | .list items, h =>
      (bind_error.mp h).elim (dumpsList_error items) fun ⟨_, _, h⟩ => by cases h
  | .dict items, h =>
      (bind_error.mp h).elim (dumpsDict_error items) fun ⟨_, _, h⟩ => by cases h

theorem dumpsList_error : ∀ items : List Value, dumpsList items = .error failure →
    failure.rejection = true
  | [], h => by cases h
  | v :: items, h => (bind_error.mp h).elim (dumps_error v) fun ⟨_, _, h⟩ =>
      (bind_error.mp h).elim (dumpsList_error items) fun ⟨_, _, h⟩ => by cases h

theorem dumpsDict_error : ∀ items : List (Key × Value), dumpsDict items = .error failure →
    failure.rejection = true
  | [], h => by cases h
  | (.text _, v) :: items, h => (bind_error.mp h).elim (dumps_error v) fun ⟨_, _, h⟩ =>
      (bind_error.mp h).elim (dumpsDict_error items) fun ⟨_, _, h⟩ => by cases h
  | (.other _, _) :: _, h => by cases h; rfl

end

theorem encode_rejects (h : encode v = .error failure) : failure.rejection = true :=
  (bind_error.mp h).elim check_error fun ⟨_, _, h⟩ => dumps_error v h

theorem encode_error (h : encode v = .error failure) : failure.unencodable = true := by
  have hr := encode_rejects h
  cases failure <;> first | rfl | cases hr

end Fronta.Codec
