import Reckoner.Number.Binary

/-! # The remainder of a division of doubles

The quotient is cut toward zero, so the remainder has the sign of the dividend and a magnitude below
the divisor's. Both operands are whole numbers of units, hence the result is exact.
-/
namespace Reckoner.Number
set_option autoImplicit false

/-- What is left of `x` after taking out `y` as often as it fits. An infinite divisor fits nowhere;
an infinite dividend or a zero divisor has no remainder. -/
def remainder (x y : Float) : Float :=
  let a := codeOf x
  let b := codeOf y
  if infinity ≤ a || infinity < b || b = 0 then undefined
  else if b = infinity then x
  else ofCode (isNegative x) (encode (units a % units b) 1)

end Reckoner.Number
