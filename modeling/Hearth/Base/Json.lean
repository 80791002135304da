import Mathlib.Algebra.Order.Field.Rat

/-!
# JSON values

A JSON number is an unsigned or a negative 64-bit integer, or a finite double. How the
library that parses them reads a number as a double and finds a field of an object is a
parameter.
-/

namespace Hearth.Base

/-- A JSON number as it is parsed. -/
inductive JsonNumber
  | posInt (n : Nat) (bound : n < 2 ^ 64)
  | negInt (n : Nat) (bound : 0 < n ∧ n ≤ 2 ^ 63)
  /-- A double, as the number it stands for. -/
  | float (x : ℚ)
  deriving DecidableEq

/-- The exact number; `negInt n` is `-n`. -/
def JsonNumber.value : JsonNumber → ℚ
  | posInt n _ => n
  | negInt n _ => -n
  | float x => x

mutual
inductive JsonValue
  | null
  | bool (b : Bool)
  | number (n : JsonNumber)
  | string (s : String)
  | array (items : JsonItems)
  | object (fields : JsonFields)
  deriving DecidableEq

inductive JsonItems
  | nil
  | cons (head : JsonValue) (tail : JsonItems)
  deriving DecidableEq

inductive JsonFields
  | nil
  | cons (key : String) (value : JsonValue) (tail : JsonFields)
  deriving DecidableEq
end

def JsonFields.toList : JsonFields → List (String × JsonValue)
  | .nil => []
  | .cons key value tail => (key, value) :: tail.toList

/-- `serde_json`. Two integers of more than 53 bits can read alike as doubles. -/
class SerdeJson where
  asF64 : JsonNumber → ℚ
  get : JsonFields → String → Option JsonValue
  mem_of_get : ∀ {fields key v}, get fields key = some v → (key, v) ∈ fields.toList

def JsonNumber.asF64 [SerdeJson] : JsonNumber → ℚ := SerdeJson.asF64

def JsonFields.get [SerdeJson] : JsonFields → String → Option JsonValue := SerdeJson.get

end Hearth.Base
