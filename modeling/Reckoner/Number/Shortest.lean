import Reckoner.Number.Decimal

/-! # The shortest decimal of a double

Among the decimals that read back as a given double, the text of the double shows one with the
fewest digits, and of those the nearest. For one digit, two digits and so on, the two neighbours of
the value on the grid of that many digits are tried; an exact tie goes to the upper one.
-/
namespace Reckoner.Number
set_option autoImplicit false

/-- How many decimal digits a natural number has; zero has one. -/
def digitCount (n : Nat) : Nat := if n < 10 then 1 else digitCount (n / 10) + 1

/-- The power of ten right above a value in units: the least `k` such that the value is below
`10 ^ k`. Below one, `-k` zeros follow the point. -/
def magnitude (value : Nat) : Int :=
  let whole := value >>> unitBits
  if whole = 0 then 1 - (digitCount ((1 <<< unitBits - 1) / value) : Int) else digitCount whole

/-- The neighbours of a value on the grid of multiples of `10 ^ exponent`, the nearer one first. -/
def neighbours (value : Nat) (exponent : Int) : Decimal × Decimal :=
  let (n, d) := match exponent with
    | .ofNat k => (value, tenPow k <<< unitBits)
    | .negSucc k => (value * tenPow (k + 1), 1 <<< unitBits)
  let below : Decimal := ⟨n / d, exponent⟩
  let above : Decimal := ⟨n / d + 1, exponent⟩
  if 2 * (n % d) < d then (below, above) else (above, below)

/-- The nearest decimal of at most `count` digits that reads as `code`, if there is one. -/
def withDigits? (code count : Nat) : Option Decimal :=
  let value := units code
  let (near, far) := neighbours value (magnitude value - count)
  if near.code = code then some near
  else if far.code = code then some far
  else none

/-- Every decimal digit of a value: a unit has as many places as it is halved. -/
def exact (code : Nat) : Decimal := ⟨(units code * tenPow unitBits) >>> unitBits, -(unitBits : Int)⟩

/-- The shortest decimal that reads as a finite nonzero code. Seventeen digits always do. -/
def shortest (code : Nat) : Decimal :=
  ((List.range 17).findSome? fun i => withDigits? code (i + 1)).getD (exact code)

theorem withDigits?_code {code count : Nat} {d : Decimal} (h : withDigits? code count = some d) :
    d.code = code := by
  simp only [withDigits?] at h
  split at h
  · cases h
    assumption
  split at h
  · cases h
    assumption
  · cases h

theorem code_scaled {value k : Nat} (hPos : 0 < value) (hk : k + 1 = unitBits) :
    (Decimal.mk ((value * tenPow unitBits) >>> unitBits) (.negSucc k)).code = encode value 1 := by
  rw [← hk]
  have hFive : (value * tenPow (k + 1)) >>> (k + 1) = value * 5 ^ (k + 1) := by
    rw [Nat.shiftRight_eq_div_pow]
    change value * (5 * 2) ^ (k + 1) / 2 ^ (k + 1) = _
    rw [Nat.mul_pow, ← Nat.mul_assoc, Nat.mul_div_cancel _ (Nat.two_pow_pos _)]
  rw [hFive]
  have hNonzero : value * 5 ^ (k + 1) ≠ 0 :=
    Nat.pos_iff_ne_zero.mp (Nat.mul_pos hPos (Nat.pow_pos (by decide)))
  have hPow : 2 ^ (2 * (k + 1)) ≤ value * 5 ^ (k + 1) := by
    calc 2 ^ (2 * (k + 1)) = 4 ^ (k + 1) := by rw [Nat.pow_mul]
      _ ≤ 5 ^ (k + 1) := Nat.pow_le_pow_left (by decide) _
      _ ≤ value * 5 ^ (k + 1) := Nat.le_mul_of_pos_left _ hPos
  have hLog := (Nat.le_log2 hNonzero).mpr hPow
  have hLarge : ¬(value * 5 ^ (k + 1)).log2 + 1077 ≤ 3 * (k + 1) := by
    simp only [unitBits] at hk
    omega
  have hShift : (value * 5 ^ (k + 1)) <<< unitBits = value * tenPow (k + 1) := by
    rw [Nat.shiftLeft_eq, Nat.mul_assoc, ← hk, ← Nat.mul_pow]
    rfl
  simp only [Decimal.code, if_neg hNonzero, if_neg hLarge, nearest, hShift]
  have hScaled := encode_mul_mul value 1 (tenPow_pos (k + 1))
  rwa [Nat.one_mul] at hScaled

theorem exact_code {code : Nat} (hPos : 0 < code) (h : code < infinity) : (exact code).code = code :=
  (code_scaled (units_pos hPos) rfl).trans (encode_units h)

/-- The shortest decimal of a double reads back as that double. -/
theorem shortest_code {code : Nat} (hPos : 0 < code) (h : code < infinity) :
    (shortest code).code = code := by
  unfold shortest
  cases hFound : (List.range 17).findSome? fun i => withDigits? code (i + 1) with
  | none => exact exact_code hPos h
  | some d =>
    obtain ⟨i, _, hDigits⟩ := List.exists_of_findSome?_eq_some hFound
    exact withDigits?_code hDigits

end Reckoner.Number
