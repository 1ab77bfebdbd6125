import Fronta.Store.Model

/-!
# Input checks

The checks of `enqueue`, with the texts of their errors. Lone surrogates and naive timestamps are
excluded by the types.
-/

namespace Fronta

def maxNameBytes : ℕ := 255

def maxKeyBytes : ℕ := 1024

def minPriority : ℤ := -(2 ^ 31)

def maxPriority : ℤ := 2 ^ 31 - 1

/-- `_check_text`: 1..max UTF-8 bytes, no NUL. -/
def checkText (value what : String) (maxBytes : ℕ) : Except String Unit :=
  if value.toList.contains (Char.ofNat 0) then .error (what ++ " must not contain NUL characters")
  else if 1 ≤ value.utf8ByteSize ∧ value.utf8ByteSize ≤ maxBytes then .ok ()
  else .error (what ++ " must be 1.." ++ toString maxBytes ++ " UTF-8 bytes")

def checkName (name : Name) : Except String Unit := checkText name "task type name" maxNameBytes

def checkKey (value : Option String) (what : String) : Except String Unit :=
  match value with
  | none => .ok ()
  | some key => checkText key what maxKeyBytes

def checkPriority (value : ℤ) : Except String Unit :=
  if minPriority ≤ value ∧ value ≤ maxPriority then .ok ()
  else .error ("priority must be an integer in [" ++ toString minPriority ++ ", "
    ++ toString maxPriority ++ "], got " ++ toString value)

/-- The checks of `enqueue`, in its order. -/
def NewTask.check (task : NewTask) : Except String Unit := do
  checkName task.type
  checkKey task.key "key"
  checkKey task.concurrencyKey "concurrency_key"
  checkPriority task.priority

end Fronta
