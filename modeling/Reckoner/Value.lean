import Reckoner.Number.Display
import Reckoner.Number.Remainder
import Reckoner.Operator

/-! # Values

A value is a number or null. Operators combine two numbers by double-precision arithmetic, where
division by zero gives an infinity or what is not a number; null combined with anything is null.
-/
namespace Reckoner
set_option autoImplicit false

inductive Value where
  | null
  | number (x : Float)
deriving DecidableEq, Repr, Inhabited

namespace Value

/-- The name of a value's type, as log events give it. -/
def typeName : Value → String
  | null => "null"
  | number _ => "number"

def render : Value → String
  | null => "null"
  | number x => Number.render x

/-- Values are compared as numbers: what is not a number differs from itself, and the two zeros are
equal. -/
def beq : Value → Value → Bool
  | null, null => true
  | number x, number y => x == y
  | _, _ => false

instance : BEq Value := ⟨beq⟩

end Value

namespace Operator

def compute : Operator → Float → Float → Float
  | add, x, y => x + y
  | subtract, x, y => x - y
  | multiply, x, y => x * y
  | divide, x, y => x / y
  | remainder, x, y => Number.remainder x y

def apply (op : Operator) : Value → Value → Value
  | .number x, .number y => .number (op.compute x y)
  | _, _ => .null

@[simp] theorem apply_null_left (op : Operator) (v : Value) : op.apply .null v = .null := rfl

@[simp] theorem apply_null_right (op : Operator) (v : Value) : op.apply v .null = .null := by
  cases v <;> rfl

theorem apply_eq_null_iff (op : Operator) (a b : Value) :
    op.apply a b = .null ↔ a = .null ∨ b = .null := by
  cases a <;> cases b <;> simp [apply]

end Operator
end Reckoner
