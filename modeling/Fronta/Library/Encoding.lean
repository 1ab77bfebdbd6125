import Fronta.Library.Unicode

/-!
# Encoding as UTF-8

What is encoded is read back by the decoder, and no NUL comes out of bytes without one.
-/

namespace Unicode

variable {p : Point} {t : Text} {bs : List UInt8}

/-- The bytes of a point that is no surrogate. -/
def Point.bytes (p : Point) : List UInt8 :=
  let n := p.val
  if n < 0x80 then [.ofNat n]
  else if n < 0x800 then [.ofNat (0xC0 + n / 64), .ofNat (0x80 + n % 64)]
  else if n < 0x10000 then
    [.ofNat (0xE0 + n / 4096), .ofNat (0x80 + n / 64 % 64), .ofNat (0x80 + n % 64)]
  else
    [.ofNat (0xF0 + n / 262144), .ofNat (0x80 + n / 4096 % 64), .ofNat (0x80 + n / 64 % 64),
      .ofNat (0x80 + n % 64)]

/-- `str.encode("utf-8")` -/
def encode (t : Text) : Option (List UInt8) :=
  if t.any Point.surrogate then none else some (t.flatMap Point.bytes)

theorem encode_of_clean (h : Clean t) : encode t = some (t.flatMap Point.bytes) := by
  have : t.any Point.surrogate = false := by
    rw [List.any_eq_false]
    exact fun p hp => by simp [(h p hp).2]
  simp [encode, this]

theorem decodeFrom_cons {o : Option Pending} {b : UInt8} :
    decodeFrom o (b :: bs) = (feed o b.toNat).1 ++ decodeFrom (feed o b.toNat).2 bs := by
  cases o <;> rfl

/-- A byte in the range of the next one. -/
theorem decodeFrom_next {s : Pending} {n : ℕ} (hl : s.low ≤ n) (hh : n ≤ s.high) (hn : n < 256) :
    decodeFrom (some s) (.ofNat n :: bs) = (s.next n).1 ++ decodeFrom (s.next n).2 bs := by
  have h : (UInt8.ofNat n).toNat = n := by simp [Nat.mod_eq_of_lt hn]
  simp [decodeFrom_cons, feed, h, hl, hh]

theorem decodeFrom_first {n : ℕ} (hn : n < 256) :
    decodeFrom none (.ofNat n :: bs) = (first n).1 ++ decodeFrom (first n).2 bs := by
  have h : (UInt8.ofNat n).toNat = n := by simp [Nat.mod_eq_of_lt hn]
  simp [decodeFrom_cons, feed, h]

/-- The last byte of a point. -/
theorem decodeFrom_last {s : Pending} {n : ℕ} (hs : s.left = 1) (hl : s.low ≤ n) (hh : n ≤ s.high)
    (hn : n < 256) (hp : s.bits * 64 + (n - 0x80) = p.val) :
    decodeFrom (some s) (.ofNat n :: bs) = p :: decodeFrom none bs := by
  simp [decodeFrom_next hl hh hn, Pending.next, hs, hp]

/-- A byte of a point that is neither the first nor the last. -/
theorem decodeFrom_middle {s : Pending} {n : ℕ} (hs : 1 < s.left) (hl : s.low ≤ n) (hh : n ≤ s.high)
    (hn : n < 256) :
    decodeFrom (some s) (.ofNat n :: bs) =
      decodeFrom (some ⟨s.bits * 64 + (n - 0x80), s.left - 1, 0x80, 0xBF⟩) bs := by
  simp [decodeFrom_next hl hh hn, Pending.next, Nat.not_le.mpr hs]

theorem first_three {n : ℕ} (hl : 0x800 ≤ n) (hh : n < 0x10000) (hs : n < 0xD800 ∨ 0xDFFF < n) :
    ∃ s, first (0xE0 + n / 4096) = ([], some s) ∧ s.bits = n / 4096 ∧ s.left = 2 ∧
      s.low ≤ 0x80 + n / 64 % 64 ∧ 0x80 + n / 64 % 64 ≤ s.high := by
  by_cases h₀ : n / 4096 = 0
  · refine ⟨⟨0, 2, 0xA0, 0xBF⟩, by simp [first, h₀], h₀.symm, rfl, ?_, ?_⟩ <;> simp only <;> omega
  · by_cases h₁ : n / 4096 = 13
    · refine ⟨⟨0xD, 2, 0x80, 0x9F⟩, by simp [first, h₁], h₁.symm, rfl, ?_, ?_⟩ <;> simp only <;> omega
    · refine ⟨⟨n / 4096, 2, 0x80, 0xBF⟩, ?_, rfl, rfl, ?_, ?_⟩
      · unfold first
        rw [if_neg (by omega), if_neg (by omega), if_neg (by omega), if_neg (by omega), if_neg (by omega),
          if_pos (by omega), Nat.add_sub_cancel_left]
      · simp only; omega
      · simp only; omega

theorem first_four {n : ℕ} (hl : 0x10000 ≤ n) (hh : n < 0x110000) :
    ∃ s, first (0xF0 + n / 262144) = ([], some s) ∧ s.bits = n / 262144 ∧ s.left = 3 ∧
      s.low ≤ 0x80 + n / 4096 % 64 ∧ 0x80 + n / 4096 % 64 ≤ s.high := by
  by_cases h₀ : n / 262144 = 0
  · refine ⟨⟨0, 3, 0x90, 0xBF⟩, by simp [first, h₀], h₀.symm, rfl, ?_, ?_⟩ <;> simp only <;> omega
  · by_cases h₁ : n / 262144 = 4
    · refine ⟨⟨4, 3, 0x80, 0x8F⟩, by simp [first, h₁], h₁.symm, rfl, ?_, ?_⟩ <;> simp only <;> omega
    · refine ⟨⟨n / 262144, 3, 0x80, 0xBF⟩, ?_, rfl, rfl, ?_, ?_⟩
      · unfold first
        rw [if_neg (by omega), if_neg (by omega), if_neg (by omega), if_neg (by omega), if_neg (by omega),
          if_neg (by omega), if_neg (by omega), if_pos (by omega), Nat.add_sub_cancel_left]
      · simp only; omega
      · simp only; omega

/-- A point is read back, whatever follows. -/
theorem decodeFrom_bytes (hp : p.surrogate = false) :
    decodeFrom none (p.bytes ++ bs) = p :: decodeFrom none bs := by
  have hmax : p.val < 0x110000 := p.isLt
  have hs : p.val < 0xD800 ∨ 0xDFFF < p.val := by
    simp only [Point.surrogate, Bool.and_eq_false_iff, decide_eq_false_iff_not] at hp
    omega
  simp only [Point.bytes]
  split_ifs with h₁ h₂ h₃
  · simp [decodeFrom_first (show p.val < 256 by omega), first, h₁]
  · have hf : first (0xC0 + p.val / 64) = ([], some ⟨p.val / 64, 1, 0x80, 0xBF⟩) := by
      unfold first
      rw [if_neg (by omega), if_neg (by omega), if_pos (by omega), Nat.add_sub_cancel_left]
    simp only [List.cons_append, List.nil_append]
    rw [decodeFrom_first (by omega), hf]
    exact decodeFrom_last rfl (by simp only; omega) (by simp only; omega) (by omega) (by simp only; omega)
  · obtain ⟨s, hf, hbits, hleft, hlow, hhigh⟩ := first_three (by omega) h₃ hs
    simp only [List.cons_append, List.nil_append]
    rw [decodeFrom_first (by omega), hf, List.nil_append,
      decodeFrom_middle (by omega) hlow hhigh (by omega), hbits, hleft]
    exact decodeFrom_last rfl (by simp only; omega) (by simp only; omega) (by omega) (by simp only; omega)
  · obtain ⟨s, hf, hbits, hleft, hlow, hhigh⟩ := first_four (by omega) hmax
    simp only [List.cons_append, List.nil_append]
    rw [decodeFrom_first (by omega), hf, List.nil_append,
      decodeFrom_middle (by omega) hlow hhigh (by omega),
      decodeFrom_middle (by simp [hleft]) (by simp only; omega) (by simp only; omega) (by omega), hbits, hleft]
    exact decodeFrom_last rfl (by simp only; omega) (by simp only; omega) (by omega) (by simp only; omega)

theorem decode_bytes (h : Clean t) : decode (t.flatMap Point.bytes) = t := by
  induction t with
  | nil => rfl
  | cons p t ih =>
      obtain ⟨hp, ht⟩ := clean_cons.mp h
      rw [List.flatMap_cons, decode, decodeFrom_bytes hp.2]
      exact congrArg (p :: ·) (ih ht)

theorem zero_notMem_bytes (hp : p.val ≠ 0) : 0 ∉ p.bytes := by
  have hmax : p.val < 0x110000 := p.isLt
  have hne : ∀ n, n % 256 ≠ 0 → (0 : UInt8) ≠ .ofNat n := by
    intro n hn he
    have := congrArg UInt8.toNat he
    simp at this
    omega
  simp only [Point.bytes]
  split_ifs <;> simp only [List.mem_cons, List.not_mem_nil, or_false, not_or]
  · exact hne _ (by omega)
  · exact ⟨hne _ (by omega), hne _ (by omega)⟩
  · exact ⟨hne _ (by omega), hne _ (by omega), hne _ (by omega)⟩
  · exact ⟨hne _ (by omega), hne _ (by omega), hne _ (by omega), hne _ (by omega)⟩

theorem zero_notMem_encoded (h : Clean t) : 0 ∉ t.flatMap Point.bytes := by
  intro hm
  obtain ⟨p, hp, hz⟩ := List.mem_flatMap.mp hm
  exact zero_notMem_bytes (h p hp).1 hz

/-! ## No NUL from bytes without one -/

/-- The character that has begun will not be NUL. -/
def Pending.Positive (s : Pending) : Prop := 0 < s.bits ∨ 0x80 < s.low

theorem ofNat_ne_zero {n : ℕ} (hn : 0 < n) (h : n < 0x110000) :
    (Fin.ofNat 0x110000 n : Point).val ≠ 0 := by
  rw [Fin.val_ofNat, Nat.mod_eq_of_lt h]
  exact Nat.ne_of_gt hn

theorem first_positive {b : ℕ} (hb : 0 < b) (hlt : b < 256) :
    (∀ p ∈ (first b).1, p.val ≠ 0) ∧ ∀ s ∈ (first b).2, s.Positive := by
  have hpoint := ofNat_ne_zero hb (by omega)
  unfold first
  split_ifs <;> refine ⟨?_, ?_⟩ <;> simp only [List.mem_singleton, forall_eq, List.not_mem_nil, Option.mem_def,
    reduceCtorEq, false_implies, implies_true, Option.some.injEq, forall_eq', Pending.Positive]
  all_goals first | exact hpoint | decide | omega

theorem next_positive {s : Pending} {b : ℕ} (ho : s.Ok) (hp : s.Positive) (hl : s.low ≤ b) (hh : b ≤ s.high) :
    (∀ p ∈ (s.next b).1, p.val ≠ 0) ∧ ∀ s' ∈ (s.next b).2, s'.Positive := by
  obtain ⟨bits, left, low, high⟩ := s
  simp only [Pending.Ok, Pending.Positive, List.mem_cons, List.not_mem_nil, or_false] at ho hp hl hh
  obtain ⟨rfl | rfl | rfl, hlow, hhigh, hmax, -⟩ := ho
  · refine ⟨fun p hmem => ?_, fun s hs => by rw [next_last] at hs; cases hs⟩
    obtain rfl := List.mem_singleton.mp hmem
    simp only [Nat.sub_self, pow_zero, Nat.mul_one] at hmax
    exact ofNat_ne_zero (by simp only; omega) (by simp only; omega)
  all_goals
    simp [Pending.next, Pending.Positive]
    omega

theorem feed_positive {o : Option Pending} {b : ℕ} (h : ∀ s ∈ o, s.Ok ∧ s.Positive) (hb : 0 < b)
    (hlt : b < 256) : (∀ p ∈ (feed o b).1, p.val ≠ 0) ∧ ∀ s ∈ (feed o b).2, s.Positive := by
  cases o with
  | none => exact first_positive hb hlt
  | some s =>
      simp only [feed]
      split_ifs with hr
      · exact next_positive (h s rfl).1 (h s rfl).2 hr.1 hr.2
      · have hf := first_positive hb hlt
        exact ⟨fun p hp => (List.mem_cons.mp hp).elim (fun he => he ▸ by decide) (hf.1 p), hf.2⟩

theorem decodeFrom_clean {o : Option Pending} (h : ∀ s ∈ o, s.Ok ∧ s.Positive) (hb : 0 ∉ bs) :
    Clean (decodeFrom o bs) := by
  induction bs generalizing o with
  | nil =>
      cases o with
      | none => exact clean_nil
      | some s => simp [decodeFrom]; decide
  | cons b bs ih =>
      obtain ⟨hb, hbs⟩ := List.mem_cons.not.mp hb |> not_or.mp
      have hpos : 0 < b.toNat := Nat.pos_of_ne_zero fun he => hb (UInt8.toNat_inj.mp he).symm
      have hs := feed_sane (fun s hm => (h s hm).1) b.toNat_lt
      have hf := feed_positive h hpos b.toNat_lt
      rw [decodeFrom_cons, clean_append]
      exact ⟨fun p hp => ⟨hf.1 p hp, hs.1 p hp⟩, ih (fun s hm => ⟨hs.2 s hm, hf.2 s hm⟩) hbs⟩

theorem decode_clean (h : 0 ∉ bs) : Clean (decode bs) := decodeFrom_clean nofun h

end Unicode
