import Fronta.Codec.Json
import Mathlib.Algebra.Order.BigOperators.Group.List
import Mathlib.Algebra.Order.Group.Nat

/-!
# Error metadata

An exception becomes a dictionary with its type, its message and its traceback. The longest texts of an error
are cut in half until its encoding fits.
-/

namespace Fronta.Codec

open Unicode

/-! ## Cutting -/

namespace Dict

def lettersOf : Value → ℕ
  | .text t => t.length
  | _ => 0

/-- The letters of all texts. -/
def letters (d : Dict) : ℕ := (d.items.map fun e => lettersOf e.2).sum

/-- The first of the longest texts. -/
def longestOf : List (Text × Value) → Option (Text × Text)
  | [] => none
  | (k, .text t) :: items =>
      if t = [] then longestOf items
      else match longestOf items with
        | some e => if t.length < e.2.length then some e else some (k, t)
        | none => some (k, t)
  | _ :: items => longestOf items

def longest (d : Dict) : Option (Text × Text) := longestOf d.items

theorem longestOf_mem {items : List (Text × Value)} {k t : Text} (h : longestOf items = some (k, t)) :
    (k, .text t) ∈ items ∧ t ≠ [] := by
  induction items with
  | nil => cases h
  | cons e items ih =>
      have hrest : longestOf items = some (k, t) → (k, Value.text t) ∈ e :: items ∧ t ≠ [] := fun h =>
        ⟨List.mem_cons_of_mem _ (ih h).1, (ih h).2⟩
      obtain ⟨k', v⟩ := e
      cases v with
      | text u =>
          simp only [longestOf] at h
          split_ifs at h with hu
          · exact hrest h
          · split at h
            · split_ifs at h with hl
              · exact hrest (by rw [‹longestOf items = _›, h])
              · cases h
                exact ⟨List.mem_cons_self, hu⟩
            · cases h
              exact ⟨List.mem_cons_self, hu⟩
      | _ => exact hrest h

theorem letters_set {d : Dict} {k t u : Text} (h : (k, .text t) ∈ d.items) (hu : u.length < t.length) :
    (d.set k (.text u)).letters < d.letters := by
  have hk : k ∈ d.items.map Prod.fst := List.mem_map.mpr ⟨_, h, rfl⟩
  simp only [set, hk, dif_pos, letters, List.map_map]
  refine List.sum_lt_sum _ _ (fun e he => ?_) ⟨_, h, by simpa [lettersOf] using hu⟩
  by_cases hek : e.1 = k
  · have := List.inj_on_of_nodup_map d.nodup he h hek
    subst this
    simpa [lettersOf] using hu.le
  · simp [hek]

end Dict

/-- Half of a text, its end or its start. -/
def cut (tail : Bool) (t : Text) : Text :=
  let keep := t.length / 2
  if keep = 0 then [] else if tail then t.drop (t.length - keep) else t.take keep

theorem length_cut_lt {tail : Bool} {t : Text} (h : t ≠ []) : (cut tail t).length < t.length := by
  have hpos := List.length_pos_iff.mpr h
  simp only [cut]
  split_ifs
  · exact hpos
  · rw [List.length_drop]
    omega
  · rw [List.length_take]
    omega

section

-- What `str()` gives of a value that is no text.
variable (str : Value → Except Raised Text)

def strOf : Value → Except Raised Text
  | .text t => pure t
  | v => str v

def typeKey : Text := ofString "type"

/-- `{"type": str(…)[:64], "truncated": True}` -/
def minimal (t : Text) : Dict where
  items := [(typeKey, .text (t.take 64)), (ofString "truncated", .bool true)]
  nodup := show [typeKey, ofString "truncated"].Nodup by decide

/-- The loop of `truncate`. -/
def shrink (error : Dict) (cap : ℕ) (keepTail : List Text) (data : Dict) : Except Raised Dict :=
  (encode data.value).bind fun text =>
    if utf8Len text ≤ cap then pure data
    else match _h : data.longest with
      | none => do return minimal (← strOf str ((error.get typeKey).getD (.text [])))
      | some (name, t) => shrink error cap keepTail (data.set name (.text (cut (name ∈ keepTail) t)))
termination_by data.letters
decreasing_by
  obtain ⟨hm, hne⟩ := Dict.longestOf_mem _h
  exact Dict.letters_set hm (length_cut_lt hne)

def truncate (error : Dict) (cap : ℕ) (keepTail : List Text) : Except Raised Dict := do
  let text ← encode error.value
  if utf8Len text ≤ cap then return error
  shrink str error cap keepTail (error.set (ofString "truncated") (.bool true))

/-! ## Exceptions -/

/-- An exception: the name of its type, what `str()` and what the formatter of tracebacks give of it. -/
structure Exc where
  qualname : Text
  str : Except Raised Text
  traceback : Except Raised Text

/-- `except Exception as failure` -/
def orElse (result : Except Raised Text) (f : Text → Text) : Except Raised Text :=
  match result with
  | .ok t => .ok t
  | .error failure => match failure.qualname with
    | some name => .ok (f name)
    | none => .error failure

def metadata (name message traceback : Text) : Dict where
  items := [(typeKey, .text name), (ofString "message", .text (sanitize message)),
    (ofString "traceback", .text (sanitize traceback))]
  nodup := show [typeKey, ofString "message", ofString "traceback"].Nodup by decide

def errorMetadata (exc : Exc) (cap : ℕ) : Except Raised Dict := do
  let name := exc.qualname
  let message ← orElse exc.str fun failure =>
    ofString "<" ++ name ++ ofString ": str() raised " ++ failure ++ ofString ">"
  let traceback ← orElse exc.traceback fun failure =>
    ofString "<traceback unavailable: " ++ failure ++ ofString ">"
  truncate str (metadata name message traceback) cap [ofString "traceback"]

end

end Fronta.Codec
