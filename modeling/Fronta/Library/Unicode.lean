import Mathlib.Algebra.BigOperators.Group.List.Basic
import Mathlib.Algebra.GroupWithZero.Nat
import Mathlib.Data.List.Basic

/-!
# Text and UTF-8

A text is a list of code points, lone surrogates included. Bytes are decoded with one U+FFFD for each maximal
part that begins a character and does not end it.
-/

namespace Unicode

abbrev Point := Fin 0x110000

instance (priority := high) neZero_points : NeZero 0x110000 := ⟨by decide⟩

abbrev Text := List Point

instance (priority := high) lawfulBEq_point : LawfulBEq Point := instLawfulBEq

instance (priority := high) lawfulBEq_text : LawfulBEq Text := List.instLawfulBEq

def Point.ofChar (c : Char) : Point := ⟨c.val.toNat, by
  rcases c.valid with h | h
  · exact Nat.lt_trans h (by decide)
  · exact h.2⟩

def ofString (s : String) : Text := s.toList.map Point.ofChar

namespace Point

variable (p : Point)

/-- A surrogate has no encoding. -/
def surrogate : Bool := 0xD800 ≤ p.val && p.val ≤ 0xDFFF

/-- The bytes of its UTF-8 encoding. -/
def utf8Size : ℕ :=
  if p.val < 0x80 then 1 else if p.val < 0x800 then 2 else if p.val < 0x10000 then 3 else 4

theorem utf8Size_le : utf8Size p ≤ 4 := by
  unfold utf8Size
  split_ifs <;> decide

end Point

/-- U+FFFD -/
def replacement : Point := 0xFFFD

def utf8Len (t : Text) : ℕ := (t.map Point.utf8Size).sum

@[simp] theorem utf8Len_nil : utf8Len [] = 0 := rfl

@[simp] theorem utf8Len_cons {p : Point} {t : Text} : utf8Len (p :: t) = p.utf8Size + utf8Len t := by
  simp [utf8Len]

@[simp] theorem utf8Len_append {t u : Text} : utf8Len (t ++ u) = utf8Len t + utf8Len u := by
  simp [utf8Len]

/-! ## Clean text -/

/-- Neither NUL nor a lone surrogate. -/
def Clean (t : Text) : Prop := ∀ p ∈ t, p.val ≠ 0 ∧ p.surrogate = false

instance (t : Text) : Decidable (Clean t) := List.decidableBAll _ t

@[simp] theorem clean_nil : Clean [] := nofun

@[simp] theorem clean_cons {p : Point} {t : Text} :
    Clean (p :: t) ↔ (p.val ≠ 0 ∧ p.surrogate = false) ∧ Clean t := by simp [Clean]

@[simp] theorem clean_append {t u : Text} : Clean (t ++ u) ↔ Clean t ∧ Clean u := by
  simp only [Clean, List.mem_append, or_imp, forall_and]
  exact and_and_and_comm

theorem Clean.sublist {t u : Text} (h : Clean u) (hs : t.Sublist u) : Clean t :=
  fun p hp => h p (hs.subset hp)

theorem Clean.take {t : Text} (h : Clean t) (n : ℕ) : Clean (t.take n) :=
  h.sublist (List.take_sublist n t)

theorem Clean.drop {t : Text} (h : Clean t) (n : ℕ) : Clean (t.drop n) :=
  h.sublist (List.drop_sublist n t)

/-- Every point that does not meet `f` stays, the others become U+FFFD. -/
def replaceWhere (f : Point → Bool) (t : Text) : Text := t.map fun p => if f p then replacement else p

theorem clean_replaceWhere {f : Point → Bool} {t : Text}
    (h : ∀ p ∈ t, f p = false → p.val ≠ 0 ∧ p.surrogate = false) : Clean (replaceWhere f t) := by
  intro p hp
  obtain ⟨q, hq, rfl⟩ := List.mem_map.mp hp
  split_ifs with hf
  · decide
  · exact h q hq (Bool.eq_false_iff.mpr hf)

/-! ## Decoding -/

/-- A character that has begun: its bits so far, the bytes that it still needs and the range of the next. -/
structure Pending where
  bits : ℕ
  left : ℕ
  low : ℕ
  high : ℕ

/-- A byte where no character has begun. -/
def first (b : ℕ) : Text × Option Pending :=
  if b < 0x80 then ([Fin.ofNat _ b], none)
  else if b < 0xC2 then ([replacement], none)
  else if b < 0xE0 then ([], some ⟨b - 0xC0, 1, 0x80, 0xBF⟩)
  else if b = 0xE0 then ([], some ⟨0, 2, 0xA0, 0xBF⟩)
  else if b = 0xED then ([], some ⟨0xD, 2, 0x80, 0x9F⟩)
  else if b < 0xF0 then ([], some ⟨b - 0xE0, 2, 0x80, 0xBF⟩)
  else if b = 0xF0 then ([], some ⟨0, 3, 0x90, 0xBF⟩)
  else if b < 0xF4 then ([], some ⟨b - 0xF0, 3, 0x80, 0xBF⟩)
  else if b = 0xF4 then ([], some ⟨4, 3, 0x80, 0x8F⟩)
  else ([replacement], none)

/-- A byte in the range of the next one. -/
def Pending.next (s : Pending) (b : ℕ) : Text × Option Pending :=
  let bits := s.bits * 64 + (b - 0x80)
  if s.left ≤ 1 then ([Fin.ofNat _ bits], none) else ([], some ⟨bits, s.left - 1, 0x80, 0xBF⟩)

/-- The last byte of a character leaves nothing pending. -/
theorem next_last {bits low high b : ℕ} : (Pending.next ⟨bits, 1, low, high⟩ b).2 = none := rfl

/-- A byte out of the range ends the character and is read again. -/
def feed : Option Pending → ℕ → Text × Option Pending
  | none, b => first b
  | some s, b =>
      if s.low ≤ b ∧ b ≤ s.high then s.next b else (replacement :: (first b).1, (first b).2)

def decodeFrom : Option Pending → List UInt8 → Text
  | none, [] => []
  | some _, [] => [replacement]
  | s, b :: bs => (feed s b.toNat).1 ++ decodeFrom (feed s b.toNat).2 bs

/-- `bytes.decode("utf-8", errors="replace")` -/
def decode (bs : List UInt8) : Text := decodeFrom none bs

/-- The character that has begun will be no surrogate. -/
def Pending.Ok (s : Pending) : Prop :=
  s.left ∈ [1, 2, 3] ∧ 0x80 ≤ s.low ∧ s.high ≤ 0xBF ∧
    (s.bits * 64 + (s.high - 0x80) + 1) * 64 ^ (s.left - 1) ≤ 0x110000 ∧
    ((s.bits * 64 + (s.high - 0x80) + 1) * 64 ^ (s.left - 1) ≤ 0xD800 ∨
      0xDFFF < (s.bits * 64 + (s.low - 0x80)) * 64 ^ (s.left - 1))

/-- Text without surrogates, and nothing begun that would be one. -/
def Sane (r : Text × Option Pending) : Prop :=
  (∀ p ∈ r.1, p.surrogate = false) ∧ ∀ s ∈ r.2, s.Ok

theorem surrogate_ofNat {n : ℕ} (h : n < 0x110000) (hs : n < 0xD800 ∨ 0xDFFF < n) :
    Point.surrogate (Fin.ofNat 0x110000 n) = false := by
  simp only [Point.surrogate, Fin.val_ofNat, Nat.mod_eq_of_lt h, Bool.and_eq_false_iff,
    decide_eq_false_iff_not]
  omega

theorem first_sane {b : ℕ} (hb : b < 256) : Sane (first b) := by
  unfold first
  split_ifs with h₁ h₂ h₃ h₄ h₅ h₆ h₇ h₈ h₉ <;> refine ⟨?_, ?_⟩ <;> simp [Pending.Ok, replacement]
  all_goals first | omega | exact surrogate_ofNat (by omega) (by omega) | decide

theorem next_sane {s : Pending} {b : ℕ} (h : s.Ok) (hl : s.low ≤ b) (hh : b ≤ s.high) :
    Sane (s.next b) := by
  obtain ⟨bits, left, low, high⟩ := s
  simp only [Pending.Ok, List.mem_cons, List.not_mem_nil, or_false] at h hl hh
  obtain ⟨rfl | rfl | rfl, hlow, hhigh, hmax, hs⟩ := h
  · refine ⟨fun p hp => ?_, fun s hs => by rw [next_last] at hs; cases hs⟩
    obtain rfl := List.mem_singleton.mp hp
    simp only [Nat.sub_self, pow_zero, Nat.mul_one] at hmax hs
    exact surrogate_ofNat (by simp only; omega) (by simp only; omega)
  all_goals
    refine ⟨by simp [Pending.next], ?_⟩
    simp [Pending.next, Pending.Ok]
    omega

theorem feed_sane {o : Option Pending} {b : ℕ} (h : ∀ s ∈ o, s.Ok) (hb : b < 256) : Sane (feed o b) := by
  cases o with
  | none => exact first_sane hb
  | some s =>
      simp only [feed]
      split_ifs with hr
      · exact next_sane (h s rfl) hr.1 hr.2
      · have hf := first_sane hb
        exact ⟨fun p hp => (List.mem_cons.mp hp).elim (fun he => he ▸ by decide) (hf.1 p), hf.2⟩

theorem decodeFrom_sane {o : Option Pending} {bs : List UInt8} (h : ∀ s ∈ o, s.Ok) :
    ∀ p ∈ decodeFrom o bs, p.surrogate = false := by
  induction bs generalizing o with
  | nil =>
      cases o with
      | none => simp [decodeFrom]
      | some s => simp [decodeFrom]; decide
  | cons b bs ih =>
      have hf := feed_sane h b.toNat_lt
      intro p hp
      rw [decodeFrom, List.mem_append] at hp
      exact hp.elim (hf.1 p) (ih hf.2 p)

/-- Decoded text has no surrogates. -/
theorem decode_sane {bs : List UInt8} : ∀ p ∈ decode bs, p.surrogate = false := decodeFrom_sane nofun

theorem decode_replicate {b : UInt8} (h : b.toNat < 0x80) (n : ℕ) :
    decode (List.replicate n b) = List.replicate n (Fin.ofNat _ b.toNat) := by
  induction n with
  | zero => rfl
  | succ n ih =>
      have hf : feed none b.toNat = ([Fin.ofNat _ b.toNat], none) := by simp [feed, first, h]
      simp only [decode, List.replicate_succ, decodeFrom, hf, List.singleton_append] at ih ⊢
      rw [ih]

end Unicode
