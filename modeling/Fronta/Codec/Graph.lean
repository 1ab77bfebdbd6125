import Fronta.Codec.Json

/-!
# Graphs of objects

What `encode` really walks: containers are objects with an identity that others share and that may come back
inside of themselves. The checks keep the ids on the way down.
-/

namespace Fronta.Codec.Graph

open Unicode

abbrev Ref := ℕ

/-- A value. Containers are known by their ids. -/
inductive Node
  | null
  | bool (b : Bool)
  | int (n : ℤ)
  /-- `none` for NaN and the infinities. -/
  | float (d : Option Decimal)
  | text (t : Text)
  | container (r : Ref)

inductive Container
  | list (items : List Node)
  | tuple (items : List Node)
  | dict (items : List (Node × Node))

abbrev Heap := Ref → Container

variable (heap : Heap)

/-- `type(key).__name__` -/
def typeName : Node → Text
  | .null => ofString "NoneType"
  | .bool _ => ofString "bool"
  | .int _ => ofString "int"
  | .float _ => ofString "float"
  | .text _ => ofString "str"
  | .container r =>
      match heap r with
      | .list _ => ofString "list"
      | .tuple _ => ofString "tuple"
      | .dict _ => ofString "dict"

def key : Node → Key
  | .text t => .text t
  | v => .other (typeName heap v)

/-- `_check`: `levels` is `MAX_DEPTH - depth`, and the ids on the path are dropped on the way back. -/
def check : (levels : ℕ) → (path : List Ref) → Node → Except Raised Unit
  | _, _, .text t => checkText t
  | 0, _, .container _ => throw (.unstorable (ofString "value is nested deeper than 200 levels"))
  | levels + 1, path, .container r =>
      if r ∈ path then throw (.unstorable (ofString "circular reference in value"))
      else match heap r with
        | .list items | .tuple items => items.forM (check levels (r :: path))
        | .dict items => items.forM fun e => do
            checkKey (key heap e.1)
            check levels (r :: path) e.2
  | _, _, _ => pure ()

/-- The value down to where an object comes back, and no deeper than the checks go. -/
def unfold : (levels : ℕ) → (path : List Ref) → Node → Value
  | _, _, .null => .null
  | _, _, .bool b => .bool b
  | _, _, .int n => .int n
  | _, _, .float d => .float d
  | _, _, .text t => .text t
  | 0, _, .container _ => .circular
  | levels + 1, path, .container r =>
      if r ∈ path then .circular
      else match heap r with
        | .list items | .tuple items => .list (items.map (unfold levels (r :: path)))
        | .dict items => .dict (items.map fun e => (key heap e.1, unfold levels (r :: path) e.2))

def encode (v : Node) : Except Raised Text := do
  check heap maxDepth [] v
  dumps (unfold heap maxDepth [] v)

/-! ## Unfoldings -/

/-- The unfolding of a value is this finite tree, with tuples as lists. -/
inductive Unfolds : Node → Value → Prop
  | null : Unfolds .null .null
  | bool {b : Bool} : Unfolds (.bool b) (.bool b)
  | int {n : ℤ} : Unfolds (.int n) (.int n)
  | float {d : Option Decimal} : Unfolds (.float d) (.float d)
  | text {t : Text} : Unfolds (.text t) (.text t)
  | list {r : Ref} {items : List Node} (f : Node → Value) : heap r = .list items →
      (∀ v ∈ items, Unfolds v (f v)) → Unfolds (.container r) (.list (items.map f))
  | tuple {r : Ref} {items : List Node} (f : Node → Value) : heap r = .tuple items →
      (∀ v ∈ items, Unfolds v (f v)) → Unfolds (.container r) (.list (items.map f))
  | dict {r : Ref} {items : List (Node × Node)} (f : Node → Value) : heap r = .dict items →
      (∀ e ∈ items, Unfolds e.2 (f e.2)) →
      Unfolds (.container r) (.dict (items.map fun e => (key heap e.1, f e.2)))

end Fronta.Codec.Graph
