import Fronta.Signals.System

/-!
# Ids that are read back

`is_worker_alive` takes an id of `worker_id` apart into the pid and the start time that went into it, and finds
the same start time in the stat of the process, whatever its command is called.
-/

namespace Fronta.Signals

open Unicode Codec

variable {hostname worker t u : Text} {environ m : Bytes} {c : Point} {n : ℕ} {p : Process}

/-! ## Digits -/

theorem digits_bounds {q : Point} (hq : q ∈ digits n) : 0x30 ≤ q.val ∧ q.val ≤ 0x39 := by
  obtain ⟨c, hc, rfl⟩ := List.mem_map.mp hq
  have hd : c.isDigit = true := Nat.isDigit_of_mem_toDigits (by decide) (by decide) hc
  simp only [Char.isDigit, Bool.and_eq_true, decide_eq_true_eq] at hd
  exact ⟨hd.1, hd.2⟩

theorem digits_ne_nil : digits n ≠ [] := by
  simp [digits, Nat.toDigits_ne_nil]

theorem notMem_digits (h : c.val < 0x30 ∨ 0x39 < c.val) : c ∉ digits n := by
  intro hm
  have := digits_bounds hm
  omega

theorem decimal_bounds {z : ℤ} {q : Point} (hq : q ∈ decimal z) : 0x2D ≤ q.val ∧ q.val ≤ 0x39 := by
  unfold decimal at hq
  split_ifs at hq
  · rcases List.mem_cons.mp hq with rfl | hq
    · decide
    · exact ⟨(by decide : 0x2D ≤ 0x30).trans (digits_bounds hq).1, (digits_bounds hq).2⟩
  · exact ⟨(by decide : 0x2D ≤ 0x30).trans (digits_bounds hq).1, (digits_bounds hq).2⟩

theorem decimal_ne_nil {z : ℤ} : decimal z ≠ [] := by
  unfold decimal
  split_ifs
  · exact List.cons_ne_nil _ _
  · exact digits_ne_nil

theorem digitOf_digit {q : Point} (hl : 0x30 ≤ q.val) (hh : q.val ≤ 0x39) : digitOf q = some (q.val - 0x30) := by
  simp [digitOf, zeros, hl, Nat.lt_succ_of_le hh]

theorem digitsOf_digits (h : ∀ q ∈ t, 0x30 ≤ q.val ∧ q.val ≤ 0x39) (hne : t ≠ []) :
    digitsOf t = some (t.map fun q => q.val - 0x30) := by
  induction t with
  | nil => exact absurd rfl hne
  | cons q t ih =>
      have hq := digitOf_digit (h q List.mem_cons_self).1 (h q List.mem_cons_self).2
      cases t with
      | nil => simp [digitsOf, hq]
      | cons r t =>
          have hr : r ≠ 0x5F := by
            rintro rfl
            exact absurd (h _ (List.mem_cons_of_mem _ List.mem_cons_self)).2 (by decide)
          rw [digitsOf, hq, Option.bind_some, if_neg hr,
            ih (fun q hm => h q (List.mem_cons_of_mem _ hm)) (List.cons_ne_nil _ _)]
          rfl

theorem foldl_digits : ((digits n).map fun q => q.val - 0x30).foldl (fun m d => 10 * m + d) 0 = n := by
  have h := Nat.ofDigitChars_ten_toDigits (n := n)
  rw [Nat.ofDigitChars_eq_foldl] at h
  simpa [digits, List.foldl_map, Point.ofChar] using h

theorem natural_digits (h : (digits n).length ≤ maxDigits) : natural (digits n) = some n := by
  simp [natural, digitsOf_digits (fun q hq => digits_bounds hq) digits_ne_nil, h, foldl_digits]

theorem dropWhile_blank (h : ∀ q ∈ t, blank q = false) : t.dropWhile blank = t := by
  cases t with
  | nil => rfl
  | cons q t => simp [h q List.mem_cons_self]

theorem blank_digit {q : Point} (hq : q ∈ digits n) : blank q = false := by
  have := digits_bounds hq
  simp only [blank, if_pos (show q.val < 127 by omega), Bool.or_eq_false_iff, Bool.and_eq_false_iff,
    decide_eq_false_iff_not]
  omega

theorem int_digits (h : (digits n).length ≤ maxDigits) : int (digits n) = some (n : ℤ) := by
  have hstrip : (((digits n).dropWhile blank).reverse.dropWhile blank).reverse = digits n := by
    rw [dropWhile_blank fun q hq => blank_digit hq,
      dropWhile_blank fun q hq => blank_digit (List.mem_reverse.mp hq), List.reverse_reverse]
  unfold int
  rw [hstrip]
  split
  · rename_i u hu
    exact absurd (digits_bounds (hu ▸ List.mem_cons_self : 0x2B ∈ digits n)).1 (by decide)
  · rename_i u hu
    exact absurd (digits_bounds (hu ▸ List.mem_cons_self : 0x2D ∈ digits n)).1 (by decide)
  · rw [natural_digits h]
    rfl

theorem digits_pid (h : n ≤ maxPid) : (digits n).length ≤ maxDigits := by
  have hlt : n < 10 ^ 10 := Nat.lt_of_le_of_lt h (by decide)
  rw [digits, List.length_map]
  exact (Nat.length_toDigits_le_iff (by decide) (by decide)).mpr hlt |>.trans (by decide)

/-! ## Cuts and words -/

theorem rcut_append (h : c ∉ u) : rcut c (t ++ c :: u) = some (t, u) := by
  have hrev : (t ++ c :: u).reverse = u.reverse ++ c :: t.reverse := by simp
  have hu : ∀ q ∈ u.reverse, decide (q ≠ c) = true := by
    intro q hq
    exact decide_eq_true fun he => h (he ▸ List.mem_reverse.mp hq)
  have hm : c ∈ t ++ c :: u := List.mem_append_right _ List.mem_cons_self
  rw [rcut, if_pos hm, hrev, List.dropWhile_append_of_pos hu, List.takeWhile_append_of_pos hu]
  simp

theorem words_cons_space {q : Point} (hq : Attempt.space q = true) : words (q :: t) = words t := by
  simp [words, List.splitOnP_cons_eq_if_modifyHead, hq]

theorem words_append {q : Point} (hq : Attempt.space q = true) (ht : ∀ r ∈ t, Attempt.space r = false)
    (hne : t ≠ []) : words (t ++ q :: u) = t :: words u := by
  simp [words, List.splitOnP_append_cons_of_forall_mem ht q hq, hne]

theorem words_fields {fields : List Text} (h : ∀ w ∈ fields, w ≠ [] ∧ ∀ q ∈ w, Attempt.space q = false) :
    words ((fields.flatMap fun w => 0x20 :: w) ++ [0x0A]) = fields := by
  induction fields with
  | nil => rfl
  | cons w fields ih =>
      obtain ⟨⟨hne, hw⟩, hfields⟩ := List.forall_mem_cons.mp h
      have hrest := ih hfields
      obtain ⟨q, v, hq, hv⟩ : ∃ q v, Attempt.space q = true ∧
          (fields.flatMap fun w => 0x20 :: w) ++ [0x0A] = q :: v := by
        cases fields with
        | nil => exact ⟨0x0A, [], by decide, rfl⟩
        | cons w fields => exact ⟨0x20, _, by decide, rfl⟩
      rw [hv, words_cons_space hq] at hrest
      rw [List.flatMap_cons, List.append_assoc, hv, List.cons_append, words_cons_space (by decide),
        words_append hq hw hne, hrest]

theorem space_of_bounds {q : Point} (hl : 0x21 ≤ q.val) (hh : q.val ≤ 0x7A) : Attempt.space q = false := by
  simp only [Attempt.space, Bool.or_eq_false_iff, Bool.and_eq_false_iff, decide_eq_false_iff_not]
  omega

theorem Stat.fields_bounds {stat : Stat} {w : Text} (hw : w ∈ stat.fields p) :
    w ≠ [] ∧ ∀ q ∈ w, 0x2D ≤ q.val ∧ q.val ≤ 0x7A := by
  have hdec : ∀ z, ∀ q ∈ decimal z, 0x2D ≤ q.val ∧ q.val ≤ 0x7A := fun z q hq =>
    ⟨(decimal_bounds hq).1, (decimal_bounds hq).2.trans (by decide)⟩
  have hdig : ∀ q ∈ digits p.start, 0x2D ≤ q.val ∧ q.val ≤ 0x7A := fun q hq =>
    ⟨(by decide : 0x2D ≤ 0x30).trans (digits_bounds hq).1, (digits_bounds hq).2.trans (by decide)⟩
  simp only [fields, List.cons_append, List.mem_cons, List.mem_append, List.mem_map] at hw
  rcases hw with rfl | ⟨z, -, rfl⟩ | rfl | ⟨z, -, rfl⟩
  · refine ⟨List.cons_ne_nil _ _, fun q hq => ?_⟩
    rw [List.mem_singleton.mp hq]
    exact ⟨(by decide : 0x2D ≤ 0x41).trans stat.letter.1, stat.letter.2⟩
  · exact ⟨decimal_ne_nil, hdec z⟩
  · exact ⟨digits_ne_nil, hdig⟩
  · exact ⟨decimal_ne_nil, hdec z⟩

theorem starttime_text (stat : Stat) (p : Process) : starttime (stat.text p) = some (digits p.start) := by
  have hcut : rcut 0x29 (stat.text p) =
      some (digits p.pid ++ ofString " (" ++ stat.comm, (stat.fields p).flatMap (fun w => 0x20 :: w) ++ [0x0A]) := by
    have hnot : (0x29 : Point) ∉ (stat.fields p).flatMap (fun w => 0x20 :: w) ++ [0x0A] := by
      intro hm
      rcases List.mem_append.mp hm with hm | hm
      · obtain ⟨w, hw, hm⟩ := List.mem_flatMap.mp hm
        rcases List.mem_cons.mp hm with he | hm
        · exact absurd he (by decide)
        · exact absurd ((Stat.fields_bounds hw).2 _ hm).1 (by decide)
      · exact absurd (List.mem_singleton.mp hm) (by decide)
    have := rcut_append (t := digits p.pid ++ ofString " (" ++ stat.comm) hnot
    simpa [Stat.text] using this
  have hwords : words ((stat.fields p).flatMap (fun w => 0x20 :: w) ++ [0x0A]) = stat.fields p := by
    refine words_fields fun w hw => ⟨(Stat.fields_bounds hw).1, fun q hq => ?_⟩
    have := (Stat.fields_bounds hw).2 q hq
    exact space_of_bounds ((by decide : 0x21 ≤ 0x2D).trans this.1) this.2
  rw [starttime, hcut, Option.bind_some, hwords]
  simp [Stat.fields]

/-! ## Worker ids -/

theorem hexDigit_ne : ∀ k < 16, hexDigit k ≠ 0x3A := by decide

theorem notMem_hex {uuid : BitVec 128} : (0x3A : Point) ∉ hex uuid := by
  intro hm
  obtain ⟨i, -, he⟩ := List.mem_map.mp hm
  exact hexDigit_ne _ (Nat.mod_lt _ (by decide)) he

/-- The two cuts at a colon. -/
theorem rcut_workerId {start : Option Text} {uuid : BitVec 128} (hs : ∀ t ∈ start, (0x3A : Point) ∉ t) :
    rcut 0x3A (workerId hostname n start uuid) =
      some (hostname ++ 0x3A :: digits n, start.getD (ofString "nonce") ++ 0x2D :: hex uuid) ∧
    rcut 0x3A (hostname ++ 0x3A :: digits n) = some (hostname, digits n) := by
  have hstart : (0x3A : Point) ∉ start.getD (ofString "nonce") := by
    cases start with
    | none => decide
    | some t => exact hs t rfl
  have hid : (0x3A : Point) ∉ start.getD (ofString "nonce") ++ 0x2D :: hex uuid := by
    simp only [List.mem_append, List.mem_cons, not_or]
    exact ⟨hstart, by decide, notMem_hex⟩
  constructor
  · have := rcut_append (t := hostname ++ 0x3A :: digits n) hid
    simpa [workerId] using this
  · exact rcut_append (notMem_digits (Or.inr (by decide)))

theorem lookup_workerId {uuid : BitVec 128} {pid start : ℕ} (h₀ : 0 < pid) (h : pid ≤ maxPid) :
    lookup hostname (workerId hostname pid (some (digits start)) uuid) = some (pid, digits start) := by
  obtain ⟨h₁, h₂⟩ := @rcut_workerId hostname pid (some (digits start)) uuid
    (fun t ht => Option.some.inj ht ▸ notMem_digits (Or.inr (by decide)))
  have hnonce : (ofString "nonce-").isPrefixOf (digits start ++ 0x2D :: hex uuid) = false := by
    cases hd : digits start with
    | nil => exact absurd hd digits_ne_nil
    | cons q t =>
        have hq := digits_bounds (hd ▸ List.mem_cons_self : q ∈ digits start)
        have hne : (Point.ofChar 'n' == q) = false := by
          rw [beq_eq_false_iff_ne]
          rintro rfl
          exact absurd hq.2 (by decide)
        rw [List.cons_append]
        exact Bool.and_eq_false_iff.mpr (Or.inl hne)
  have htake : (digits start ++ 0x2D :: hex uuid).takeWhile (· ≠ 0x2D) = digits start := by
    rw [List.takeWhile_append_of_pos]
    · simp
    · intro q hq
      refine decide_eq_true fun he => ?_
      exact absurd (digits_bounds (he ▸ hq)).1 (by decide)
  simp only [lookup, h₁, h₂, int_digits (digits_pid h), Option.getD_some, hnonce, htake]
  simp [Nat.ne_of_gt h₀]

theorem lookup_nonce {uuid : BitVec 128} : lookup hostname (workerId hostname n none uuid) = none := by
  obtain ⟨h₁, h₂⟩ := @rcut_workerId hostname n none uuid nofun
  have hnonce : (ofString "nonce-").isPrefixOf (ofString "nonce" ++ 0x2D :: hex uuid) = true := by
    rw [List.isPrefixOf_iff_prefix]
    exact ⟨hex uuid, rfl⟩
  simp only [lookup, h₁, h₂, Option.getD_none, hnonce, Bool.or_true, if_true]
  split
  · rfl
  · split <;> rfl

/-! ## Environments -/

theorem splitOnP_clean {α : Type*} {f : α → Bool} {l e : List α} (he : e ∈ l.splitOnP f) : ∀ x ∈ e, f x = false := by
  induction l generalizing e with
  | nil =>
      rw [List.splitOnP_nil, List.mem_singleton] at he
      simp [he]
  | cons y l ih =>
      rw [List.splitOnP_cons_eq_if_modifyHead] at he
      split at he
      · rcases List.mem_cons.mp he with rfl | he
        · exact nofun
        · exact ih he
      · rename_i hy
        cases hs : l.splitOnP f with
        | nil => exact absurd hs (List.splitOnP_ne_nil _ _)
        | cons d ds =>
            rw [hs, List.modifyHead_cons] at he
            rw [hs] at ih
            rcases List.mem_cons.mp he with rfl | he
            · exact List.forall_mem_cons.mpr ⟨Bool.eq_false_iff.mpr hy, ih List.mem_cons_self⟩
            · exact ih (List.mem_cons_of_mem _ he)

theorem ownerOf_nil : ownerOf [] = none := by decide

theorem ownerOf_clean (h : ownerOf environ = some worker) : Clean worker := by
  obtain ⟨entry, hf, rfl⟩ := Option.map_eq_some_iff.mp h
  have hm := List.mem_of_find?_eq_some hf
  rw [List.splitOn_eq_splitOnP] at hm
  exact decode_clean fun hz => by simpa using splitOnP_clean hm 0 (List.mem_of_mem_drop hz)

theorem markerOf_of_clean (h : Clean worker) :
    markerOf workerEnv worker = some (workerPrefix ++ worker.flatMap Point.bytes ++ [0]) := by
  have hc : Clean (workerEnv ++ 0x3D :: worker) :=
    clean_append.mpr ⟨by decide, clean_cons.mpr ⟨by decide, h⟩⟩
  simp [markerOf, encode_of_clean hc, workerPrefix]

theorem mem_labels (hc : Clean worker) (hm : Marked environ worker) : worker ∈ labels environ := by
  obtain ⟨m, hmark, a, b, rfl⟩ := hm
  rw [Option.mem_def, markerOf_of_clean hc, Option.some.injEq] at hmark
  subst hmark
  refine List.mem_map.mpr ⟨workerPrefix ++ worker.flatMap Point.bytes ++ [0] ++ b, ?_, ?_⟩
  · rw [List.mem_filter, List.mem_tails, List.isPrefixOf_iff_prefix]
    refine ⟨⟨a, by simp⟩, ?_⟩
    simp
  · have hz : ∀ x ∈ worker.flatMap Point.bytes, decide (x ≠ 0) = true := fun x hx =>
      decide_eq_true fun he => zero_notMem_encoded hc (he ▸ hx)
    simp only [List.append_assoc, List.drop_left]
    rw [List.takeWhile_append_of_pos hz]
    simp [decode_bytes hc]

theorem anchored_iff : Anchored hostname environ ↔
    ∀ w ∈ labels environ, Clean w → lookup hostname w ≠ none → Marked environ w → ownerOf environ = some w :=
  ⟨fun h w _ hc hl hm => h w hc hl hm, fun h w hc hl hm => h w (mem_labels hc hm) hc hl hm⟩

instance : Decidable (Anchored hostname environ) := decidable_of_iff _ anchored_iff.symm

end Fronta.Signals
