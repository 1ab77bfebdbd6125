import Fronta.Library.Unicode
import Mathlib.Data.Int.Notation
import Mathlib.Data.List.Nodup

/-!
# Values and their JSON text

A value is what Python hands to the encoder. A container that holds itself is unfolded up to the place where
it comes back. Only clean text, finite numbers and a bounded depth can be stored.
-/

namespace Fronta.Codec

open Unicode

/-- The text of a finite float: digits, a point, a sign, an exponent. -/
structure Decimal where
  text : Text
  short : text.length ≤ 24
  ascii : (text.all fun p => (ofString "0123456789.e+-").contains p) = true

inductive Key
  | text (t : Text)
  | other (typeName : Text)

inductive Value
  | null
  | bool (b : Bool)
  | int (n : ℤ)
  /-- `none` for NaN and the infinities. -/
  | float (d : Option Decimal)
  | text (t : Text)
  | list (items : List Value)
  | dict (items : List (Key × Value))
  /-- A container inside of itself. -/
  | circular
  | object (typeName : Text)

/-- What Python code raises. -/
inductive Raised
  | unstorable (message : Text)
  | overCap (message : Text)
  | typeError (message : Text)
  | exception (qualname : Text)
  /-- Something that is no `Exception`. -/
  | base
  deriving DecidableEq

def Raised.qualname : Raised → Option Text
  | unstorable _ => some (ofString "Unstorable")
  | overCap _ => some (ofString "OverCap")
  | typeError _ => some (ofString "TypeError")
  | exception qualname => some qualname
  | base => none

/-- `(codec.Unstorable, TypeError, RecursionError)` -/
def Raised.unencodable : Raised → Bool
  | unstorable _ | typeError _ => true
  | exception qualname => qualname = ofString "RecursionError"
  | overCap _ | base => false

/-- `Unstorable` or `TypeError`. -/
def Raised.rejection : Raised → Bool
  | unstorable _ | typeError _ => true
  | exception _ | overCap _ | base => false

/-! ## Checks -/

def maxDepth : ℕ := 200

def checkText (t : Text) : Except Raised Unit :=
  if t.any (fun p => p.val = 0) then
    throw (.unstorable (ofString "NUL characters cannot be stored in jsonb"))
  else if t.any Point.surrogate then
    throw (.unstorable (ofString "lone surrogate code points cannot be stored (no UTF-8 encoding)"))
  else pure ()

def checkKey : Key → Except Raised Unit
  | .text t => checkText t
  | .other typeName => throw (.typeError (ofString "mapping keys must be strings, got " ++ typeName))

/-- `levels` is `MAX_DEPTH - depth`. -/
def check : (levels : ℕ) → Value → Except Raised Unit
  | _, .text t => checkText t
  | 0, .list _ | 0, .dict _ | 0, .circular =>
      throw (.unstorable (ofString "value is nested deeper than 200 levels"))
  | levels + 1, .list items => items.forM (check levels)
  | levels + 1, .dict items => items.forM fun e => do checkKey e.1; check levels e.2
  | _ + 1, .circular => throw (.unstorable (ofString "circular reference in value"))
  | _, _ => pure ()

/-! ## Encoding -/

/-- The most digits that Python turns into text. -/
def maxDigits : ℕ := 4300

def digits (n : ℕ) : Text := (Nat.toDigits 10 n).map Point.ofChar

def decimal (n : ℤ) : Text := if n < 0 then 0x2D :: digits n.natAbs else digits n.natAbs

def hexDigit (n : ℕ) : Point := Fin.ofNat _ (if n < 10 then 0x30 + n else 0x57 + n)

def escape (p : Point) : Text :=
  match p.val with
  | 0x22 => ofString "\\\""
  | 0x5C => ofString "\\\\"
  | 0x0A => ofString "\\n"
  | 0x0D => ofString "\\r"
  | 0x09 => ofString "\\t"
  | 0x0C => ofString "\\f"
  | 0x08 => ofString "\\b"
  | n => if n < 0x20 then ofString "\\u00" ++ [hexDigit (n / 16), hexDigit (n % 16)] else [p]

def quote (t : Text) : Text := 0x22 :: t.flatMap escape ++ [0x22]

def join : List Text → Text
  | [] => []
  | [t] => t
  | t :: items => t ++ 0x2C :: join items

mutual

def dumps : Value → Except Raised Text
  | .null => pure (ofString "null")
  | .bool b => pure (ofString (if b then "true" else "false"))
  | .int n =>
      if (digits n.natAbs).length ≤ maxDigits then pure (decimal n)
      else throw (.unstorable (ofString ("Exceeds the limit (4300 digits) for integer string conversion; " ++
        "use sys.set_int_max_str_digits() to increase the limit")))
  | .float (some d) => pure d.text
  | .float none => throw (.unstorable (ofString "Out of range float values are not JSON compliant"))
  | .text t => pure (quote t)
  | .list items => do return 0x5B :: join (← dumpsList items) ++ [0x5D]
  | .dict items => do return 0x7B :: join (← dumpsDict items) ++ [0x7D]
  | .circular => throw (.unstorable (ofString "Circular reference detected"))
  | .object typeName =>
      throw (.typeError (ofString "Object of type " ++ typeName ++ ofString " is not JSON serializable"))

def dumpsList : List Value → Except Raised (List Text)
  | [] => pure []
  | v :: items => do return (← dumps v) :: (← dumpsList items)

def dumpsDict : List (Key × Value) → Except Raised (List Text)
  | [] => pure []
  | (.text k, v) :: items => do return (quote k ++ 0x3A :: (← dumps v)) :: (← dumpsDict items)
  -- The checks have ruled such keys out.
  | (.other typeName, _) :: _ => throw (.typeError typeName)

end

def encode (value : Value) : Except Raised Text := do
  check maxDepth value
  dumps value

def encodeCapped (value : Value) (cap : ℕ) (what : Text) : Except Raised Text := do
  let text ← encode value
  let size := utf8Len text
  if cap < size then
    throw (.overCap (what ++ ofString " is " ++ digits size ++ ofString " bytes, cap is " ++ digits cap ++
      ofString " bytes"))
  return text

def sanitize (t : Text) : Text :=
  replaceWhere Point.surrogate (replaceWhere (fun p => p.val = 0) t)

/-! ## What can be stored -/

/-- A value that a column can hold, with at most `levels` containers inside of one another. -/
def Value.Storable : (levels : ℕ) → Value → Prop
  | _, .null | _, .bool _ => True
  | _, .int n => (digits n.natAbs).length ≤ maxDigits
  | _, .float d => d.isSome = true
  | _, .text t => Clean t
  | levels + 1, .list items => ∀ v ∈ items, v.Storable levels
  | levels + 1, .dict items => ∀ e ∈ items, (∃ k, e.1 = .text k ∧ Clean k) ∧ e.2.Storable levels
  | _, _ => False

/-! ## Dictionaries -/

/-- A dictionary with text keys. -/
structure Dict where
  items : List (Text × Value)
  nodup : (items.map Prod.fst).Nodup

namespace Dict

def value (d : Dict) : Value := .dict (d.items.map fun e => (.text e.1, e.2))

def get (d : Dict) (k : Text) : Option Value := d.items.lookup k

theorem keys_map {items : List (Text × Value)} {k : Text} {v : Value} :
    (items.map fun e => if e.1 = k then (k, v) else e).map Prod.fst = items.map Prod.fst := by
  rw [List.map_map]
  refine List.map_congr_left fun e _ => ?_
  by_cases he : e.1 = k <;> simp [he]

def set (d : Dict) (k : Text) (v : Value) : Dict :=
  if h : k ∈ d.items.map Prod.fst then
    ⟨d.items.map fun e => if e.1 = k then (k, v) else e, keys_map.symm ▸ d.nodup⟩
  else ⟨d.items ++ [(k, v)], by
    rw [List.map_append, List.nodup_append]
    refine ⟨d.nodup, List.nodup_singleton _, fun a ha b hb => ?_⟩
    obtain rfl := List.mem_singleton.mp hb
    exact fun he => h (he ▸ ha)⟩

end Dict

end Fronta.Codec
