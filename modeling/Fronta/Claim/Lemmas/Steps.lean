import Fronta.Claim.Lemmas.Limits

/-!
# The steps of the concurrent claims

Each statement of a claim keeps what the claim knows, and each step of a party leaves to the other
parties what they rely on.
-/

namespace Fronta.Claim

open Sql

variable {s s' : Sys} {p q : TxnId} {x : Call} {v v' : Vars} {c : Candidate} {e : Entry}
  {w : View} {clock : ℕ → Time} {r : Request}

/-! ## The variables of a claim -/

theorem VarsOk.congr (h : VarsOk s p v) (he : v'.entries = v.entries) (hi : v'.ids = v.ids)
    (hr : v'.reserved = v.reserved) : VarsOk s p v' where
  rows := by rw [hi, hr]; exact h.rows
  entered := by rw [he, hr]; exact h.entered
  distinct := by rw [he]; exact h.distinct
  entries := by rw [he, hr]; exact h.entries

theorem VarsOk.init : VarsOk s p .init where
  rows := List.Forall₂.nil
  entered := by simp [Vars.init]
  distinct := List.nodup_nil
  entries := by simp [Vars.init]

theorem VarsOk.not_admitted (h : VarsOk s p v) {type : Name} (hn : v.entry type = none)
    {y : Name × Option String} (hy : y ∈ v.reserved) : y.1 ≠ type := by
  obtain ⟨e, he, ht⟩ := h.entered y hy
  have := List.find?_eq_none.mp hn e he
  intro hty
  exact this (by simp [ht, hty])

theorem VarsOk.enter (h : VarsOk s p v) {type : Name} {ty : TaskType} (hn : v.entry type = none)
    (hs : Secured s p type ty) : VarsOk s p (v.enter type ty (running s.db.tasks type)) where
  rows := h.rows
  entered y hy := by
    obtain ⟨e, he, ht⟩ := h.entered y hy
    exact ⟨e, List.mem_append_left _ he, ht⟩
  distinct := by
    have hnew : type ∉ v.entries.map Entry.type := by
      intro hm
      obtain ⟨e, he, ht⟩ := List.mem_map.mp hm
      exact List.find?_eq_none.mp hn e he (by simp [ht])
    simp only [Vars.enter, List.map_append, List.map_cons, List.map_nil]
    exact List.nodup_append.mpr ⟨h.distinct, List.nodup_singleton _, by
      rintro a ha b hb rfl
      exact hnew (List.mem_singleton.mp hb ▸ ha)⟩
  entries e he := by
    rcases List.mem_append.mp he with he | he
    · exact h.entries e he
    · rw [List.mem_singleton.mp he]
      have hzero : admittedOf v.reserved type = 0 := by
        rw [admittedOf, List.length_eq_zero_iff, List.filter_eq_nil_iff]
        exact fun y hy => by simpa using h.not_admitted hn hy
      have hkey : ∀ key, reservedOf v.reserved type key = 0 := fun key => by
        rw [reservedOf, List.length_eq_zero_iff, List.filter_eq_nil_iff]
        intro y hy hyk
        exact h.not_admitted hn hy (by rw [of_decide_eq_true hyk])
      have hty : ty = ⟨ty.maxConcurrency, ty.maxConcurrencyPerKey, false⟩ := by
        rw [← hs.unpaused]
      refine ⟨hty ▸ hs, fun n hlim => ?_, fun n key _ hpos => ?_⟩
      · have hlim : ty.maxConcurrency = some n := hlim
        refine ⟨?_, fun hpos => ?_⟩
        · simp [Vars.enter, hzero, hlim]
        · simp [Vars.enter, hzero] at hpos
      · simp [Vars.enter, hkey] at hpos

/-- Admitting a row for which the checks found a place. -/
theorem VarsOk.reserve (h : VarsOk s p v) (he : v.entry c.type = some e)
    (hc : RowFits s.db.tasks c.id (c.type, c.concurrencyKey)) (hfull : e.full = false)
    (hkey : ∀ n key, e.keyed c = some (n, key) →
      runningKey s.db.tasks c.type key + v.reservedFor c.type key < n) :
    VarsOk s p (v.reserve c) where
  rows := List.rel_append h.rows (List.Forall₂.cons hc List.Forall₂.nil)
  entered y hy := by
    have : ∃ e ∈ v.entries, e.type = y.1 := by
      rcases List.mem_append.mp hy with hy | hy
      · exact h.entered y hy
      · rw [List.mem_singleton.mp hy]
        exact ⟨e, List.mem_of_find?_eq_some he, by simpa using List.find?_some he⟩
    obtain ⟨e', he', ht⟩ := this
    refine ⟨_, List.mem_map_of_mem he', ?_⟩
    split <;> exact ht
  distinct := by
    have : (v.reserve c).entries.map Entry.type = v.entries.map Entry.type := by
      simp only [Vars.reserve, List.map_map]
      refine List.map_congr_left fun e' _ => ?_
      simp only [Function.comp_apply]
      split <;> rfl
    rw [this]
    exact h.distinct
  entries e' he' := by
    obtain ⟨e₀, he₀, rfl⟩ := List.mem_map.mp he'
    have hok := h.entries e₀ he₀
    by_cases ht : e₀.type = c.type
    · -- types are entered once, so this is the entry that was checked
      have heq : e₀ = e := by
        have hmem := List.mem_of_find?_eq_some he
        have hte : e.type = c.type := by simpa using List.find?_some he
        exact List.inj_on_of_nodup_map h.distinct he₀ hmem (ht.trans hte.symm)
      subst heq
      simp only [ht, ↓reduceIte]
      refine ⟨ht ▸ hok.secured, fun n hn => ?_, fun n key hn _ => ?_⟩
      · obtain ⟨h₁, h₂⟩ := hok.total n hn
        have hlt : e₀.count < n := by
          have hn : e₀.limit = some n := hn
          simpa [Entry.full, hn] using hfull
        rw [ht] at h₁
        simp only [Vars.reserve, admittedOf, List.filter_append, List.length_append] at h₁ ⊢
        simp only [decide_true, List.filter_cons_of_pos, List.filter_nil, List.length_cons,
          List.length_nil]
        omega
      · by_cases hck : c.concurrencyKey = some key
        · have hk := hkey n key (by
            have hn : e₀.keyLimit = some n := hn
            simp [Entry.keyed, hn, hck])
          simp only [Vars.reservedFor] at hk
          simp only [Vars.reserve, reservedOf, List.filter_append, List.length_append, hck,
            decide_true, List.filter_cons_of_pos, List.filter_nil, List.length_cons,
            List.length_nil]
          omega
        · have hsame : reservedOf (v.reserve c).reserved c.type key = reservedOf v.reserved c.type key := by
            simp [reservedOf, Vars.reserve, hck]
          rename_i hpos
          rw [hsame] at hpos ⊢
          exact ht ▸ hok.keyed n key hn (ht ▸ hpos)
    · have hsame : admittedOf (v.reserve c).reserved e₀.type = admittedOf v.reserved e₀.type := by
        simp [admittedOf, Vars.reserve, Ne.symm ht]
      have hsamek : ∀ key, reservedOf (v.reserve c).reserved e₀.type key =
          reservedOf v.reserved e₀.type key := fun key => by
        simp [reservedOf, Vars.reserve, Ne.symm ht]
      simp only [ht, ↓reduceIte]
      exact ⟨hok.secured, fun n hn => by rw [hsame]; exact hok.total n hn,
        fun n key hn => by rw [hsamek]; exact hok.keyed n key hn⟩

/-- The checks let the row in, or change nothing but skip lists. -/
theorem checkRow_cases (r : Request) (w : View) (clock : ℕ → Time) (v : Vars) (c : Candidate)
    (e : Entry) :
    ((checkRow r w clock v c e).1.entries = v.entries ∧ (checkRow r w clock v c e).1.ids = v.ids ∧
        (checkRow r w clock v c e).1.reserved = v.reserved) ∨
      ((checkRow r w clock v c e).1 = (v.reserve c).read ∧ e.full = false ∧
        ∀ n key, e.keyed c = some (n, key) →
          runningKey w.tasks c.type key + v.reservedFor c.type key < n) := by
  have hadmit : (checkRow.admitRow r clock v c).1 = v ∨
      (checkRow.admitRow r clock v c).1 = (v.reserve c).read := by
    rw [checkRow.admitRow]
    split
    · exact Or.inl rfl
    · exact Or.inr rfl
  rw [checkRow]
  split
  · exact Or.inl ⟨rfl, rfl, rfl⟩
  · rename_i hf
    split
    · rename_i n key hk
      split
      · exact Or.inl ⟨rfl, rfl, rfl⟩
      · rename_i hn
        rcases hadmit with ha | ha
        · rw [ha]; exact Or.inl ⟨rfl, rfl, rfl⟩
        · refine Or.inr ⟨ha, by simpa using hf, fun n' key' hk' => ?_⟩
          rw [hk, Option.some.injEq, Prod.mk.injEq] at hk'
          obtain ⟨rfl, rfl⟩ := hk'
          exact Nat.not_le.mp hn
    · rename_i hk
      rcases hadmit with ha | ha
      · rw [ha]; exact Or.inl ⟨rfl, rfl, rfl⟩
      · exact Or.inr ⟨ha, by simpa using hf, fun n key hk' => by rw [hk] at hk'; cases hk'⟩

/-! ## The statements of a claim -/

/-- The lock statements keep what the claim knows and what they lock is locked. -/
theorem lock_ok {rest : List Pick} {m : Mode} {size : Jsonb → ℕ} {busy : TaskId → Bool} {now : Time}
    (hx : CallOk s p x) (hs : s.locks.Sound) (hn : x.vars.entry c.type = none)
    (hc : ∀ d ∈ c :: rest.map Pick.candidate,
      RowFits s.db.tasks d.id (d.type, d.concurrencyKey))
    (hm : m = .share ∨ m = .update) :
    let next := Sys.lock (s.view now size busy p) s.locks p x c rest m
    next.2.Sound ∧ (∀ r t n, s.locks.Holds r t n → next.2.Holds r t n) ∧
      CallOk { s with locks := next.2 } p next.1 := by
  have hrest := fun d hd => hc d (List.mem_cons_of_mem c hd)
  intro next
  rw [show next = Sys.lock (s.view now size busy p) s.locks p x c rest m from rfl, Sys.lock]
  split
  · exact ⟨hs, fun _ _ _ => id, hx.vars.congr rfl rfl rfl, hrest, trivial⟩
  · rename_i ty hrow
    obtain ⟨hg, hcat⟩ : s.locks.grantable c.type p m = true ∧ s.catalog c.type = some ty := by
      simpa [View.lockRow, Sys.view] using hrow
    have hmono : ∀ r t n, s.locks.Holds r t n → (s.locks.acquire c.type p m).Holds r t n :=
      fun r t n h => Locks.holds_acquire.mpr (Or.inr h)
    have hnew : (s.locks.acquire c.type p m).Holds c.type p m :=
      Locks.holds_acquire.mpr (Or.inl ⟨rfl, rfl, rfl⟩)
    have hvars : VarsOk { s with locks := s.locks.acquire c.type p m } p x.vars :=
      hx.vars.frame (Frame.of_locks rfl rfl fun name n => hmono name p n)
    refine ⟨hs.acquire hg, hmono, ?_⟩
    dsimp only
    split
    · exact ⟨hvars, hc, hn⟩
    · rename_i hlim
      split
      · exact ⟨hvars.congr rfl rfl rfl, hrest, trivial⟩
      · rename_i hp
        refine ⟨hvars, hc, hn, hcat, by simpa using hp, ⟨m, hnew, ?_⟩, fun hl => ?_⟩
        · rcases hm with rfl | rfl <;> rfl
        · rcases hm with rfl | rfl
          · exact absurd ⟨rfl, hl⟩ hlim
          · exact hnew

theorem visited_candidates {k : Pick} {rest : List Pick} :
    (Sys.visited v k rest).candidates ⊆ k.candidate :: rest.map Pick.candidate := by
  intro d hd
  unfold Sys.visited at hd
  split at hd
  · exact List.mem_cons_of_mem _ hd
  · split at hd
    · exact hd
    · split at hd <;> exact hd

theorem visited_pc {k : Pick} {rest : List Pick} : PcOk s p v (Sys.visited v k rest) := by
  unfold Sys.visited
  split
  · trivial
  · split
    · trivial
    · rename_i hnone
      rw [Option.not_isSome_iff_eq_none] at hnone
      split <;> exact hnone

/-- Every statement of a claim keeps what the claim knows. -/
theorem advance_ok {size : Jsonb → ℕ} {busy : TaskId → Bool} {next : Call × Locks Name TxnId}
    (hx : CallOk s p x) (hs : s.locks.Sound)
    (h : Sys.advance (s.view x.now size busy p) clock s.locks p x = some next) :
    next.2.Sound ∧ (∀ r t n, s.locks.Holds r t n → next.2.Holds r t n) ∧
      CallOk { s with locks := next.2 } p next.1 := by
  have hcand := hx.candidates
  have hpc := hx.pc
  rw [Sys.advance] at h
  split at h <;> rename_i hpceq <;> rw [hpceq] at hcand hpc
  -- the candidate query
  · simp only [Option.some.injEq] at h; subst h
    refine ⟨hs, fun _ _ _ => id, hx.vars, ?_, trivial⟩
    intro d hd
    simp only [Pc.candidates, List.map_map, List.mem_map, Function.comp_apply] at hd
    obtain ⟨y, hy, rfl⟩ := hd
    obtain ⟨t, ht, hc⟩ := View.row_of_mem_queue (View.mem_queue_of_mem_chosen hy)
    have ht : s.db.tasks.get y.1.id = some t := ht
    refine ⟨Table.lt_of_get ht, fun t' ht' => ?_⟩
    rw [ht, Option.some.injEq] at ht'
    subst ht'
    rw [hc]; rfl
  -- the end of a round
  · simp only [Option.some.injEq] at h; subst h
    split
    · exact ⟨hs, fun _ _ _ => id, hx.vars, by simp [Pc.candidates], trivial⟩
    · exact ⟨hs, fun _ _ _ => id, hx.vars.congr rfl rfl rfl, by simp [Pc.candidates], trivial⟩
  -- the next row of a round
  · rename_i k rest
    simp only [Option.some.injEq] at h; subst h
    exact ⟨hs, fun _ _ _ => id, hx.vars.congr rfl rfl rfl,
      fun d hd => hcand d (visited_candidates hd), visited_pc⟩
  · simp only [Option.some.injEq] at h; subst h
    exact lock_ok hx hs hpc hcand (Or.inl rfl)
  · simp only [Option.some.injEq] at h; subst h
    exact lock_ok hx hs hpc hcand (Or.inr rfl)
  · simp only [Option.some.injEq] at h; subst h
    exact ⟨hs, fun _ _ _ => id, hx.vars.enter hpc.1 hpc.2, hcand, trivial⟩
  -- the checks and the admission of a row
  · rename_i c rest
    obtain ⟨e, he, h⟩ := Option.map_eq_some_iff.mp h
    have hvars : VarsOk s p (checkRow x.request (s.view x.now size busy p) clock x.vars c e).1 := by
      rcases checkRow_cases x.request (s.view x.now size busy p) clock x.vars c e with
        ⟨h₁, h₂, h₃⟩ | ⟨ha, hf, hk⟩
      · exact hx.vars.congr h₁ h₂ h₃
      · rw [ha]
        have hfits := hcand c (by simp [Pc.candidates])
        exact (hx.vars.reserve he hfits hf hk).congr rfl rfl rfl
    have hrest : ∀ d ∈ rest.map Pick.candidate,
        RowFits s.db.tasks d.id (d.type, d.concurrencyKey) :=
      fun d hd => hcand d (List.mem_cons_of_mem c hd)
    split at h <;> subst h <;> rename_i hv <;> rw [hv] at hvars
    · exact ⟨hs, fun _ _ _ => id, hvars, by simp [Pc.candidates], trivial⟩
    · exact ⟨hs, fun _ _ _ => id, hvars, hrest, trivial⟩
  · cases h

/-! ## The steps of the system -/

theorem Frame.statement {op : Op} (ho : Sys.others op = true) :
    Frame s { s with db := s.db.exec op } p where
  held _ _ := id
  fits _ _ h := h.exec op
  current _ _ h := h.current
  running name _ _ _ := by
    simp only [running_eq, runningKey_eq]
    exact ⟨exec_count_le ho fun y => decide (y.1 = name),
      fun key => exec_count_le ho fun y => decide (y = (name, some key))⟩

/-- A committing claim starts no row of a type that somebody else locks exclusively. -/
theorem Frame.commitClaim {now : Time} {leaseClock : TaskId → Time} {leaseS : ℚ} {worker : Name}
    {tokens : TaskId → Token} (hx : VarsOk s p v) (hs : s.locks.Sound) (hq : q ≠ p)
    (hd : s'.db = (s.db.claim now leaseClock leaseS worker tokens v.ids).2)
    (hc : s'.catalog = s.catalog) (hl : s'.locks = s.locks.release p) : Frame s s' q where
  held name m h := by rw [hl]; exact Locks.holds_release.mpr ⟨h, hq⟩
  fits id y h := by rw [hd]; exact h.exec (.claim now leaseClock leaseS worker tokens v.ids)
  current name ty h := by rw [hc]; exact h.current
  running name ty h hlim := by
    have hnone : ∀ y ∈ v.reserved, y.1 ≠ name := by
      rintro y hy rfl
      obtain ⟨e, he, ht⟩ := hx.entered y hy
      obtain ⟨m, hm, -⟩ := (hx.entries e he).secured.shared
      exact hq (hs.exclusive (h.exclusive hlim) (ht ▸ hm)).symm
    have hzero : ∀ f : Name × Option String → Bool, (∀ y, f y = true → y.1 = name) →
        (v.reserved.filter f).length = 0 := fun f hf => by
      rw [List.length_eq_zero_iff, List.filter_eq_nil_iff]
      exact fun y hy hfy => hnone y hy (hf y hfy)
    rw [hd]
    simp only [running_eq, runningKey_eq]
    refine ⟨?_, fun key => ?_⟩
    · have := claim_count_le now leaseClock leaseS worker tokens hx.rows fun y => decide (y.1 = name)
      rwa [hzero _ fun y hy => by simpa using hy, Nat.add_zero] at this
    · have := claim_count_le now leaseClock leaseS worker tokens hx.rows fun y => decide (y = (name, some key))
      rwa [hzero _ fun y hy => by rw [of_decide_eq_true hy], Nat.add_zero] at this

/-- A committing publication changes only types that nobody holds against it. -/
theorem Frame.commitWrite {staged : List (Name × Option TaskType)}
    (hw : ∀ y ∈ staged, s.locks.Holds y.1 p .noKeyUpdate) (hs : s.locks.Sound) (hq : q ≠ p)
    (hd : s'.db = s.db) (hc : s'.catalog = Sys.applyStaged s.catalog staged)
    (hl : s'.locks = s.locks.release p) : Frame s s' q where
  held name m h := by rw [hl]; exact Locks.holds_release.mpr ⟨h, hq⟩
  fits id y h := by rw [hd]; exact h
  current name ty h := by
    have hnone : staged.lookup name = none := by
      refine List.lookup_eq_none_iff.mpr fun y hy => ?_
      rw [bne_iff_ne]
      rintro rfl
      exact h.no_writer hs hq (hw y hy)
    rw [hc, Sys.applyStaged, hnone]
    exact h.current
  running := by rw [hd]; exact fun _ _ _ _ => ⟨Nat.le_refl _, fun _ => Nat.le_refl _⟩

/-- What remains after the end of `p`. -/
theorem Inv.finish (hi : Inv s) (hf : ∀ q, q ≠ p → Frame s s' q)
    (hl : s'.locks = s.locks.release p)
    (ht : s'.txns = s.txns.erase fun i _ => i = p) : Inv s' where
  sound := by rw [hl]; exact hi.sound.release p
  txns q x hx := by
    rw [ht, Table.get_erase_eq_some] at hx
    exact (hi.txns q x hx.1).frame (hf q (by simpa using hx.2))

theorem inv_step {action : Sys.Action} (hi : Inv s) (h : s.step action = some s') : Inv s' := by
  cases action with
  | statement op =>
      obtain ⟨ho, h⟩ := Option.ite_none_right_eq_some.mp h
      cases h
      exact ⟨hi.sound, fun q x hx => (hi.txns q x hx).frame (Frame.statement ho)⟩
  | call request now =>
      simp only [Sys.step] at h
      split at h
      · cases h
      · cases h
        refine ⟨hi.sound, fun q x hx => ?_⟩
        rcases Table.get_insert_cases hx with ⟨-, rfl⟩ | hx
        · exact ⟨VarsOk.init, by simp [Pc.candidates], trivial⟩
        · exact (hi.txns q x hx).frame (Frame.of_locks rfl rfl fun _ _ => id)
  | advance p size busy clock =>
      simp only [Sys.step] at h
      split at h
      · rename_i x hx
        obtain ⟨next, hn, rfl⟩ := Option.map_eq_some_iff.mp h
        obtain ⟨hsound, hmono, hok⟩ := advance_ok (hi.txns p _ hx) hi.sound hn
        refine ⟨hsound, fun q y hy => ?_⟩
        rcases Table.get_modify_cases hy with ⟨-, hy⟩ | ⟨rfl, -, -, rfl⟩
        · exact (hi.txns q y hy).frame (Frame.of_locks rfl rfl fun name m => hmono name q m)
        · exact CallOk.frame hok (Frame.of_locks rfl rfl fun _ _ => id)
      · cases h
  | commitClaim p leaseClock tokens =>
      simp only [Sys.step] at h
      split at h
      · rename_i x hx
        obtain ⟨-, h⟩ := Option.ite_none_right_eq_some.mp h
        cases h
        exact hi.finish (p := p)
          (fun q hq => Frame.commitClaim (hi.txns p _ hx : CallOk s p x).vars hi.sound hq rfl rfl rfl)
          rfl rfl
      · cases h
  | write =>
      simp only [Sys.step, Option.some.injEq] at h; subst h
      refine ⟨hi.sound, fun q x hx => ?_⟩
      rcases Table.get_insert_cases hx with ⟨-, rfl⟩ | hx
      · intro y hy; cases hy
      · exact (hi.txns q x hx).frame (Frame.of_locks rfl rfl fun _ _ => id)
  | stage p name change =>
      simp only [Sys.step] at h
      split at h
      · rename_i staged hx
        obtain ⟨hg, h⟩ := Option.ite_none_right_eq_some.mp h
        cases h
        have hmono : ∀ r t n, s.locks.Holds r t n →
            (s.locks.acquire name p .noKeyUpdate).Holds r t n :=
          fun r t n hh => Locks.holds_acquire.mpr (Or.inr hh)
        refine ⟨hi.sound.acquire hg, fun q y hy => ?_⟩
        rcases Table.get_modify_cases hy with ⟨-, hy⟩ | ⟨rfl, -, -, rfl⟩
        · exact (hi.txns q y hy).frame (Frame.of_locks rfl rfl fun name m => hmono name q m)
        · intro z hz
          rcases List.mem_cons.mp hz with rfl | hz
          · exact Locks.holds_acquire.mpr (Or.inl ⟨rfl, rfl, rfl⟩)
          · exact hmono _ _ _ ((hi.txns q _ hx : ∀ y ∈ staged, _) z hz)
      · cases h
  | commitWrite p =>
      simp only [Sys.step] at h
      split at h
      · rename_i staged hx
        cases h
        exact hi.finish (p := p)
          (fun q hq => Frame.commitWrite (hi.txns p _ hx) hi.sound hq rfl rfl rfl) rfl rfl
      · cases h
  | rollback p =>
      obtain ⟨x, -, rfl⟩ := Option.map_eq_some_iff.mp h
      refine hi.finish (p := p) (fun q hq => Frame.of_locks rfl rfl fun name m hm => ?_) rfl rfl
      exact Locks.holds_release.mpr ⟨hm, hq⟩

theorem inv_of_reachable {db : Db} {catalog : Catalog}
    (h : Runs.Reachable Sys.step (Sys.init db catalog) s) : Inv s := by
  refine h.invariant ⟨Locks.sound_nil, fun p x hx => ?_⟩ fun _ _ _ hi hs => inv_step hi hs
  simp [Sys.init] at hx

end Fronta.Claim
