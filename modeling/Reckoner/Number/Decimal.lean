import Reckoner.Number.Binary

/-! # Reading decimal numbers

A decimal is an integer times a power of ten. A written number is an optional sign followed by
digits with an optional point and an optional exponent, or by the name of the infinity or of what is
not a number, in letters of either case. It reads as the nearest double.
-/
namespace Reckoner.Number
set_option autoImplicit false

structure Decimal where
  significand : Nat
  exponent : Int
deriving DecidableEq, Repr

def tenPow (k : Nat) : Nat := Nat.pow 10 k

theorem tenPow_pos (k : Nat) : 0 < tenPow k := Nat.pow_pos (by decide)

/-- The code of the double nearest to a decimal. The first three cases answer without large powers:
a zero is zero, `10 ^ 309` is past every finite double, and `2 ^ -1076` rounds to zero. -/
def Decimal.code (d : Decimal) : Nat :=
  if d.significand = 0 then 0
  else
    match d.exponent with
    | .ofNat k => if 309 ≤ k then infinity else nearest (d.significand * tenPow k) 1
    | .negSucc k =>
      if d.significand.log2 + 1077 ≤ 3 * (k + 1) then 0 else nearest d.significand (tenPow (k + 1))

def digitsValue (digits : List Char) : Nat :=
  digits.foldl (fun n c => 10 * n + (c.toNat - '0'.toNat)) 0

/-- Splits off a leading sign; no sign is plus. -/
def splitSign : List Char → Bool × List Char
  | '+' :: rest => (false, rest)
  | '-' :: rest => (true, rest)
  | text => (false, text)

/-- The exponent part of a number: nothing at all, or `e`, an optional sign and some digits. -/
def readExponent? : List Char → Option Int
  | [] => some 0
  | mark :: text =>
    let (negative, digits) := splitSign text
    if (mark == 'e' || mark == 'E') && !digits.isEmpty && digits.all Char.isDigit then
      let n : Int := digitsValue digits
      some (if negative then -n else n)
    else none

def splitFraction : List Char → List Char × List Char
  | '.' :: rest => (rest.takeWhile Char.isDigit, rest.dropWhile Char.isDigit)
  | text => ([], text)

/-- An unsigned decimal: digits around an optional point, at least one, then the exponent part. -/
def readDecimal? (text : List Char) : Option Decimal :=
  let whole := text.takeWhile Char.isDigit
  let (fraction, rest) := splitFraction (text.dropWhile Char.isDigit)
  if whole.isEmpty && fraction.isEmpty then none
  else (readExponent? rest).map fun e => ⟨digitsValue (whole ++ fraction), e - fraction.length⟩

def readCode? (text : List Char) : Option Nat :=
  match readDecimal? text with
  | some d => some d.code
  | none =>
    let word := String.ofList (text.map Char.toLower)
    if word = "inf" ∨ word = "infinity" then some infinity
    else if word = "nan" then some (codeOf undefined)
    else none

/-- Reads a written number; a text that is not one has no value. -/
def read? (text : String) : Option Float :=
  let (negative, rest) := splitSign text.toList
  (readCode? rest).map (ofCode negative)

end Reckoner.Number
