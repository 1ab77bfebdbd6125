import Fronta.Claim.Function
import Fronta.Claim.Lemmas.Query

/-!
# The admission loop follows the walk

The variables of the function represent the admitted rows of the walk: counts and reservations agree,
and what the skip lists exclude is blocked for good.
-/

namespace Fronta.Claim

open Sql

/-- `v` is where the function stands when the walk has admitted these rows. -/
structure Represents (w : View) (v : Vars) (admitted : List Candidate) : Prop where
  ids : v.ids = admitted.map Candidate.id
  reserved : v.reserved = admitted.map fun c => (c.type, c.concurrencyKey)
  bytes : v.bytes = (admitted.map Candidate.bytes).sum
  entries : ∀ e ∈ v.entries, ∃ ty, w.catalog e.type = some ty ∧ e.limit = ty.maxConcurrency ∧
    e.keyLimit = ty.maxConcurrencyPerKey ∧ (e.limit ≠ none →
      e.count = running w.tasks e.type + (admitted.filter fun a => a.type = e.type).length)
  entered : ∀ c ∈ admitted, ∃ e ∈ v.entries, e.type = c.type
  types : ∀ c, c.type ∈ v.skipTypes → w.blocked admitted c = true
  keys : ∀ c key, (c.type, key) ∈ v.skipKeys → c.concurrencyKey = some key →
    w.blocked admitted c = true

/-- One pass of the inner loop does what the walk does with the row. -/
def Follows (w : View) (cap : ℕ) (skip : List TaskId) (admitted : List Candidate) (c : Candidate) :
    Vars × Next → Prop
  | (v, .exit) => ∀ cs, v.ids = (w.greedy cap admitted (c :: cs)).map Candidate.id
  | (v, .continue) => v.skip = skip ∧ ∃ admitted', admitted <+: admitted' ∧
      admitted'.length < cap ∧ Represents w v admitted' ∧
      ∀ cs, w.greedy cap admitted (c :: cs) = w.greedy cap admitted' cs

variable {r : Request} {w : View} {clock : ℕ → Time} {v : Vars} {admitted : List Candidate}
  {c : Candidate} {e : Entry} {limited : Bool}

theorem Represents.init : Represents w .init [] where
  ids := rfl
  reserved := rfl
  bytes := rfl
  entries := by simp [Vars.init]
  entered := by simp
  types := by simp [Vars.init]
  keys := by simp [Vars.init]

namespace Represents

variable (h : Represents w v admitted)
include h

theorem see (id : TaskId) : Represents w (v.see id) admitted :=
  ⟨h.ids, h.reserved, h.bytes, h.entries, h.entered, h.types, h.keys⟩

theorem read : Represents w v.read admitted :=
  ⟨h.ids, h.reserved, h.bytes, h.entries, h.entered, h.types, h.keys⟩

theorem skipType {type : Name} (hf : ∀ d, d.type = type → w.blocked admitted d = true) :
    Represents w (v.skipType type) admitted where
  __ := h
  types d hd := by
    rcases List.mem_append.mp hd with hd | hd
    · exact h.types d hd
    · exact hf d (List.mem_singleton.mp hd)

/-- A key may be skipped once it is full. -/
theorem skipKey {type : Name} {key : String}
    (hf : ∀ d, d.type = type → d.concurrencyKey = some key → w.blocked admitted d = true) :
    Represents w (v.skipKey type key) admitted where
  __ := h
  keys d key' hd hk := by
    rcases List.mem_append.mp hd with hd | hd
    · exact h.keys d key' hd hk
    · obtain ⟨ht, rfl⟩ := Prod.mk.inj (List.mem_singleton.mp hd)
      exact hf d ht hk

/-- A type without an entry has no admitted row. -/
theorem enter {type : Name} {ty : TaskType} (hn : v.entry type = none)
    (hc : w.catalog type = some ty) :
    Represents w (v.enter type ty (running w.tasks type)) admitted where
  __ := h
  entries e he := by
    rcases List.mem_append.mp he with he | he
    · exact h.entries e he
    · rw [List.mem_singleton.mp he]
      refine ⟨ty, hc, rfl, rfl, fun hl => ?_⟩
      have hnone : admitted.filter (fun a => a.type = type) = [] := by
        refine List.filter_eq_nil_iff.mpr fun a ha hat => ?_
        obtain ⟨e, he, het⟩ := h.entered a ha
        exact absurd (het.trans (by simpa using hat)) (by
          simpa using List.find?_eq_none.mp hn e he)
      simp only [hnone, List.length_nil, Nat.add_zero]
      exact if_neg hl
  entered d hd := by
    obtain ⟨e, he, het⟩ := h.entered d hd
    exact ⟨e, List.mem_append_left _ he, het⟩

omit h in
theorem entry_enter {type : Name} {ty : TaskType} {n : ℕ} (hn : v.entry type = none) :
    (v.enter type ty n).entry type =
      some ⟨type, ty.maxConcurrency, ty.maxConcurrencyPerKey,
        if ty.maxConcurrency = none then 0 else n⟩ := by
  simp only [Vars.entry, Vars.enter, List.find?_append] at hn ⊢
  simp [hn]

theorem reserve (he : v.entry c.type = some e) : Represents w (v.reserve c) (admitted ++ [c]) where
  ids := by simp [Vars.reserve, h.ids]
  reserved := by simp [Vars.reserve, h.reserved]
  bytes := by simp [Vars.reserve, h.bytes]
  entries e' he' := by
    obtain ⟨e, he, rfl⟩ := List.mem_map.mp he'
    obtain ⟨ty, hc, hl, hk, hn⟩ := h.entries e he
    by_cases ht : e.type = c.type
    · simp only [ht, ↓reduceIte] at hc hn ⊢
      exact ⟨ty, hc, hl, hk, fun hne => by simp [hn hne]; omega⟩
    · simp only [ht, ↓reduceIte]
      exact ⟨ty, hc, hl, hk, fun hne => by simp [hn hne, Ne.symm ht]⟩
  entered d hd := by
    obtain ⟨e', he', ht⟩ : ∃ e' ∈ v.entries, e'.type = d.type := by
      rcases List.mem_append.mp hd with hd | hd
      · exact h.entered d hd
      · rw [List.mem_singleton.mp hd]
        exact ⟨e, List.mem_of_find?_eq_some he, by simpa using List.find?_some he⟩
    refine ⟨_, List.mem_map_of_mem he', ?_⟩
    split <;> exact ht
  types d hd := View.blocked_append (h.types d hd)
  keys d key hd hk := View.blocked_append (h.keys d key hd hk)

theorem full_iff (he : v.entry c.type = some e) : e.full = w.typeFull admitted c := by
  have ht : e.type = c.type := by simpa using List.find?_some he
  obtain ⟨ty, hc, hl, -, hn⟩ := h.entries e (List.mem_of_find?_eq_some he)
  rw [ht] at hc hn
  simp only [Entry.full, View.typeFull, hc, Option.any_some]
  cases hlim : ty.maxConcurrency with
  | none => simp [hl, hlim]
  | some n => simp [hn (by simp [hl, hlim]), hl, hlim]

theorem reservedFor_eq {key : String} : v.reservedFor c.type key =
    (admitted.filter fun a => a.type = c.type && a.concurrencyKey = some key).length := by
  simp [Vars.reservedFor, h.reserved, List.filter_map, Function.comp_def]

theorem keyFull_of_keyed_eq_none (he : v.entry c.type = some e) (hk : e.keyed c = none) :
    w.keyFull admitted c = false := by
  have ht : e.type = c.type := by simpa using List.find?_some he
  obtain ⟨ty, hc, -, hkl, -⟩ := h.entries e (List.mem_of_find?_eq_some he)
  rw [ht] at hc
  simp only [Entry.keyed, hkl] at hk
  simp only [View.keyFull, hc, Option.any_some]
  cases hlim : ty.maxConcurrencyPerKey with
  | none => rfl
  | some n => cases hkey : c.concurrencyKey with
    | none => rfl
    | some key => simp [hlim, hkey] at hk

/-- The key's recount and the reservations tell whether the key has a place left. -/
theorem keyFull_of_keyed {n : ℕ} {key : String} (he : v.entry c.type = some e)
    (hk : e.keyed c = some (n, key)) (d : Candidate) (hd : d.type = c.type)
    (hdk : d.concurrencyKey = some key) :
    w.keyFull admitted d =
      decide (n ≤ runningKey w.tasks c.type key + v.reservedFor c.type key) := by
  have ht : e.type = c.type := by simpa using List.find?_some he
  obtain ⟨ty, hc, -, hkl, -⟩ := h.entries e (List.mem_of_find?_eq_some he)
  rw [ht] at hc
  simp only [Entry.keyed, hkl, Option.bind_eq_some_iff, Option.map_eq_some_iff, Prod.mk.injEq] at hk
  obtain ⟨m, hm, k, hck, rfl, rfl⟩ := hk
  simp [View.keyFull, hd, hc, hm, hdk, h.reservedFor_eq]

end Represents

section

variable (hclock : ∀ n, clock n < clock 0 + r.deadlineS)
include hclock

theorem late_eq_false (v : Vars) : late r clock v = false := by
  simp only [late, decide_eq_false_iff_not, not_le]
  exact hclock _

theorem follows_admitRow (h : Represents w v admitted) (he : v.entry c.type = some e)
    (hb : w.blocked admitted c = false) :
    Follows w r.cap v.skip admitted c (checkRow.admitRow r clock v c) := by
  have hover : v.overflows c = true ↔
      admitted ≠ [] ∧ 524288 < (admitted.map Candidate.bytes).sum + c.bytes := by
    simp [Vars.overflows, h.ids, h.bytes]
  rw [checkRow.admitRow]
  split
  · rename_i ho
    intro cs
    rw [View.greedy, if_neg (by simp [hb]), if_pos (hover.mp ho), h.ids]
  · rename_i ho
    have hlen : (v.reserve c).ids.length = admitted.length + 1 := by
      simp [Vars.reserve, h.ids]
    have hwalk : ∀ cs, w.greedy r.cap admitted (c :: cs) =
        if r.cap ≤ admitted.length + 1 then admitted ++ [c]
        else w.greedy r.cap (admitted ++ [c]) cs := fun cs => by
      rw [View.greedy, if_neg (by simp [hb]), if_neg fun hn => ho (hover.mpr hn)]
    simp only [late_eq_false hclock, hlen, Bool.false_eq_true, or_false]
    by_cases hlast : r.cap ≤ admitted.length + 1
    · rw [if_pos hlast]
      intro cs
      rw [hwalk, if_pos hlast]
      exact (h.reserve he).ids
    · rw [if_neg hlast]
      exact ⟨rfl, admitted ++ [c], List.prefix_append _ _, by simpa using hlast,
        (h.reserve he).read, fun cs => by rw [hwalk, if_neg hlast]⟩

omit hclock in
/-- The walk skips a blocked row, and so does a pass that leaves `admitted` as it is. -/
theorem follows_blocked {v' : Vars} (h : Represents w v' admitted) (hs : v'.skip = v.skip)
    (hb : w.blocked admitted c = true) (hcap : admitted.length < r.cap) :
    Follows w r.cap v.skip admitted c (v', .continue) :=
  ⟨hs, admitted, List.prefix_rfl, hcap, h, fun cs => by rw [View.greedy, if_pos hb]⟩

theorem follows_checkRow (h : Represents w v admitted) (he : v.entry c.type = some e)
    (hcap : admitted.length < r.cap) :
    Follows w r.cap v.skip admitted c (checkRow r w clock v c e) := by
  rw [checkRow]
  split
  · rename_i hf
    -- a full type is full for each of its rows
    have hblocked : ∀ d, d.type = c.type → w.blocked admitted d = true := by
      intro d hd
      have : w.typeFull admitted d = true := by
        rw [← h.full_iff (c := d) (e := e) (by rw [hd]; exact he)]; exact hf
      simp [View.blocked, this]
    exact follows_blocked (h.skipType hblocked) rfl (hblocked c rfl) hcap
  · rename_i hf
    have htype : w.typeFull admitted c = false := by
      rw [← h.full_iff he]; simpa using hf
    split
    · rename_i n key hk
      have hkey := h.keyFull_of_keyed he hk
      have hck : c.concurrencyKey = some key := by
        simp only [Entry.keyed, Option.bind_eq_some_iff, Option.map_eq_some_iff,
          Prod.mk.injEq] at hk
        obtain ⟨_, _, _, hck, -, rfl⟩ := hk
        exact hck
      split
      · rename_i hn
        have hblocked : ∀ d, d.type = c.type → d.concurrencyKey = some key →
            w.blocked admitted d = true := by
          intro d hd hdk
          simp [View.blocked, hkey d hd hdk, hn]
        exact follows_blocked (h.skipKey hblocked) rfl (hblocked c rfl hck) hcap
      · rename_i hn
        refine follows_admitRow hclock h he ?_
        simp [View.blocked, htype, hkey c rfl hck, hn]
    · rename_i hk
      refine follows_admitRow hclock h he ?_
      simp [View.blocked, htype, h.keyFull_of_keyed_eq_none he hk]

end

end Fronta.Claim
