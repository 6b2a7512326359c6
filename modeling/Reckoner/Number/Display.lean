import Reckoner.Number.Shortest

/-! # The text of a double

Numbers are written positionally, never with an exponent, with their shortest digits and without a
point when nothing follows it. A negative zero keeps its sign.
-/
namespace Reckoner.Number
set_option autoImplicit false

/-- A fraction of `places` digits without the zeros at its end. -/
def fractionText (n places : Nat) : List Char :=
  let digits := Nat.toDigits 10 n
  let padded := List.replicate (places - digits.length) '0' ++ digits
  (padded.reverse.dropWhile (· == '0')).reverse

def Decimal.positional (d : Decimal) : String :=
  match d.exponent with
  | .ofNat k => String.ofList (Nat.toDigits 10 d.significand ++ List.replicate k '0')
  | .negSucc k =>
    let whole := Nat.toDigits 10 (d.significand / tenPow (k + 1))
    let fraction := fractionText (d.significand % tenPow (k + 1)) (k + 1)
    String.ofList (if fraction.isEmpty then whole else whole ++ '.' :: fraction)

def codeText (code : Nat) : String :=
  if code = 0 then "0"
  else if code = infinity then "inf"
  else (shortest code).positional

def render (x : Float) : String :=
  let code := codeOf x
  if infinity < code then "NaN"
  else if isNegative x then "-" ++ codeText code
  else codeText code

end Reckoner.Number
