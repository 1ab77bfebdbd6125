import Fronta.Codec.Json
import Fronta.Library.Reading

/-!
# Reading JSON text

A reader of the text that a column gives back. It follows `json.loads`, with the pairs of a mapping in their order.
Escaped surrogates, which the encoder never writes, and floats that are longer than any the encoder writes are
not read.
-/

namespace Fronta.Codec

open Unicode Reading

/-! ## Numbers -/

def isDigit (p : Point) : Bool := 0x30 ≤ p.val && p.val ≤ 0x39

def natOf (ds : Text) : ℕ := ds.foldl (fun n p => 10 * n + (p.val - 0x30)) 0

/-- `-?` -/
def minus : Text → Text × Text
  | [] => ([], [])
  | p :: t => if p = 0x2D then ([p], t) else ([], p :: t)

/-- `0|[1-9][0-9]*` -/
def whole : Reader Point Text
  | [] => none
  | p :: t =>
      if p = 0x30 then some ([p], t)
      else if isDigit p then some (p :: t.takeWhile isDigit, t.dropWhile isDigit)
      else none

/-- `(\.[0-9]+)?` -/
def fraction : Text → Text × Text
  | [] => ([], [])
  | p :: t =>
      if p = 0x2E ∧ t.takeWhile isDigit ≠ [] then (p :: t.takeWhile isDigit, t.dropWhile isDigit)
      else ([], p :: t)

/-- `[-+]?` -/
def sign : Text → Text × Text
  | [] => ([], [])
  | p :: t => if p = 0x2B ∨ p = 0x2D then ([p], t) else ([], p :: t)

/-- `([eE][-+]?[0-9]+)?` -/
def exponent : Text → Text × Text
  | [] => ([], [])
  | p :: t =>
      let (s, u) := sign t
      if (p = 0x65 ∨ p = 0x45) ∧ u.takeWhile isDigit ≠ [] then (p :: s ++ u.takeWhile isDigit, u.dropWhile isDigit)
      else ([], p :: t)

def floatOf (text : Text) : Option Value :=
  if h : text.length ≤ 24 ∧ (text.all fun p => (ofString "0123456789.e+-").contains p) = true then
    some (.float (some ⟨text, h.1, h.2⟩))
  else none

def number : Reader Point Value := fun t => do
  let (m, t) := minus t
  let (w, t) ← whole t
  let (f, t) := fraction t
  let (e, t) := exponent t
  if f = [] ∧ e = [] then
    if w.length ≤ maxDigits then return (.int (if m = [] then natOf w else -natOf w), t)
    else none
  else return (← floatOf (m ++ w ++ f ++ e), t)

/-! ## Texts -/

def hexValue (p : Point) : Option ℕ :=
  if isDigit p then some (p.val - 0x30)
  else if 0x61 ≤ p.val ∧ p.val ≤ 0x66 then some (p.val - 0x57)
  else if 0x41 ≤ p.val ∧ p.val ≤ 0x46 then some (p.val - 0x37)
  else none

def unescape (p : Point) : Option Point :=
  match p.val with
  | 0x22 => some 0x22
  | 0x5C => some 0x5C
  | 0x2F => some 0x2F
  | 0x62 => some 0x08
  | 0x66 => some 0x0C
  | 0x6E => some 0x0A
  | 0x72 => some 0x0D
  | 0x74 => some 0x09
  | _ => none

/-- The four digits of `\u`. -/
def codePoint (a b c d : Point) : Option Point := do
  let p : Point := Fin.ofNat _ ((((← hexValue a) * 16 + (← hexValue b)) * 16 + (← hexValue c)) * 16 + (← hexValue d))
  if p.surrogate then none else return p

/-- What follows the opening quote. -/
def string : Reader Point Text
  | [] => none
  | p :: t =>
      if p = 0x22 then some ([], t)
      else if p = 0x5C then
        match t with
        | [] => none
        | c :: t =>
            if c = 0x75 then
              match t with
              | a :: b :: c :: d :: t => do
                  let q ← codePoint a b c d
                  let (s, t) ← string t
                  return (q :: s, t)
              | _ => none
            else do
              let q ← unescape c
              let (s, t) ← string t
              return (q :: s, t)
      else if p.val < 0x20 then none
      else do
        let (s, t) ← string t
        return (p :: s, t)

/-! ## Values -/

def blank (p : Point) : Bool := p = 0x20 || p = 0x09 || p = 0x0A || p = 0x0D

/-- `null`, `true`, `false`. -/
def keyword (t : Text) : Option (Value × Text) :=
  ((ofString "null").isPrefixOf? t).map (fun t => (.null, t)) <|>
  ((ofString "true").isPrefixOf? t).map (fun t => (.bool true, t)) <|>
  ((ofString "false").isPrefixOf? t).map (fun t => (.bool false, t))

def member (value : Reader Point Value) : Reader Point (Key × Value)
  | [] => none
  | p :: t =>
      if p = 0x22 then do
        let (k, t) ← string t
        match t.dropWhile blank with
        | [] => none
        | p :: t =>
            if p = 0x3A then do
              let (v, t) ← value (t.dropWhile blank)
              return ((.text k, v), t)
            else none
      else none

/-- The rest of a container, which `close` ends. -/
def container {α : Type} (close : Point) (item : Reader Point α) : Reader Point (List α) := fun t =>
  match t.dropWhile blank with
  | [] => none
  | p :: t => if p = close then some ([], t) else separated blank 0x2C close item (t.length + 1) (p :: t)

/-- `levels` bounds the containers inside of one another. -/
def value : (levels : ℕ) → Reader Point Value
  | _, [] => none
  | levels, p :: t =>
      if p = 0x22 then (string t).map fun r => (.text r.1, r.2)
      else if p = 0x5B ∨ p = 0x7B then
        match levels with
        | 0 => none
        | levels + 1 =>
            if p = 0x5B then (container 0x5D (value levels) t).map fun r => (.list r.1, r.2)
            else (container 0x7D (member (value levels)) t).map fun r => (.dict r.1, r.2)
      else keyword (p :: t) <|> number (p :: t)

def loads (t : Text) : Option Value := do
  let (v, rest) ← value t.length (t.dropWhile blank)
  if rest.dropWhile blank = [] then return v else none

/-! ## Floats as Python writes them -/

/-- `0|[1-9][0-9]*` -/
def Whole (w : Text) : Prop := w = [0x30] ∨ ∃ p ds, w = p :: ds ∧ p ≠ 0x30 ∧ ∀ q ∈ w, isDigit q = true

/-- `[0-9]+` -/
def Digits (ds : Text) : Prop := ds ≠ [] ∧ ∀ q ∈ ds, isDigit q = true

/-- `-?(0|[1-9][0-9]*)(\.[0-9]+)?(e[-+][0-9]+)?` -/
structure Parts (m w f e : Text) : Prop where
  minus : m = [] ∨ m = [0x2D]
  whole : Whole w
  fraction : f = [] ∨ ∃ ds, f = 0x2E :: ds ∧ Digits ds
  exponent : e = [] ∨ ∃ s ds, e = 0x65 :: s :: ds ∧ (s = 0x2B ∨ s = 0x2D) ∧ Digits ds

/-- A number with a fraction or an exponent. -/
def Decimal.Literal (d : Decimal) : Prop :=
  ∃ m w f e, Parts m w f e ∧ (f ≠ [] ∨ e ≠ []) ∧ d.text = m ++ w ++ f ++ e

/-- Every float is written as `float.__repr__` writes it. -/
def Value.Literal : (levels : ℕ) → Value → Prop
  | _, .float (some d) => d.Literal
  | levels + 1, .list items => ∀ v ∈ items, v.Literal levels
  | levels + 1, .dict items => ∀ e ∈ items, e.2.Literal levels
  | _, _ => True

end Fronta.Codec
