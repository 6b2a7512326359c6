/-! # Double-precision numbers as exact integers

A finite double is an integral multiple of `2 ^ -1074`. Without its sign bit, the bit pattern of a
double is its *code*, a natural number below `2 ^ 63`; the codes from `infinity` on are the infinity
and the patterns that are not numbers. `units` gives the multiple that a finite code stands for, and
`encode` the code nearest to a ratio, so every decision about digits is exact arithmetic on natural
numbers.
-/
namespace Reckoner.Number
set_option autoImplicit false

/-- A unit is `2 ^ -1074`; this many of them make one. -/
def unitBits : Nat := 1074

/-- A significand has 53 bits, of which a code stores 52. -/
def storedBits : Nat := 52

/-- The code of the infinity: an exponent field of ones over an empty fraction. -/
def infinity : Nat := 2047 <<< storedBits

def units (code : Nat) : Nat :=
  let scale := code >>> storedBits - 1
  (code - scale <<< storedBits) <<< scale

/-- The integer nearest to `n / d`; a half goes to the even neighbour. -/
def roundDiv (n d : Nat) : Nat :=
  let q := n / d
  let r := n % d
  if 2 * r < d then q else if d < 2 * r then q + 1 else q + q % 2

/-- The code of the double nearest to `n / d` units; from half a step above the greatest finite
double on, that is the infinity. -/
def encode (n d : Nat) : Nat :=
  let scale := (n / d).log2 - storedBits
  min (scale <<< storedBits + roundDiv n (d <<< scale)) infinity

def nearest (n d : Nat) : Nat := encode (n <<< unitBits) d

def signBit : Nat := 1 <<< 63

/-- The code of a double: its bit pattern without the sign. -/
def codeOf (x : Float) : Nat := x.toBits.toNat % signBit

/-- The sign bit of a double. Zeros have one as well. -/
def isNegative (x : Float) : Bool := decide (signBit ≤ x.toBits.toNat)

def ofCode (negative : Bool) (code : Nat) : Float :=
  Float.ofBits (UInt64.ofNat (if negative then signBit + code else code))

/-- What is not a number, such as zero over zero. -/
def undefined : Float := ofCode false (infinity + 1 <<< 51)

theorem roundDiv_mul_self (q : Nat) {d : Nat} (hd : 0 < d) : roundDiv (q * d) d = q := by
  simp [roundDiv, Nat.mul_div_cancel q hd, hd]

theorem roundDiv_mul_mul (n d : Nat) {k : Nat} (hk : 0 < k) :
    roundDiv (n * k) (d * k) = roundDiv n d := by
  have hLess (a b : Nat) : a * k < b * k ↔ a < b := Nat.mul_lt_mul_right hk
  simp only [roundDiv, Nat.mul_div_mul_right _ _ hk, Nat.mul_mod_mul_right, ← Nat.mul_assoc, hLess]

theorem encode_mul_mul (n d : Nat) {k : Nat} (hk : 0 < k) : encode (n * k) (d * k) = encode n d := by
  simp only [encode, Nat.shiftLeft_eq]
  rw [Nat.mul_div_mul_right _ _ hk, Nat.mul_right_comm d k, roundDiv_mul_mul _ _ hk]

/-- The leading bit of a full significand, which a code does not store. -/
def leadingBit : Nat := 1 <<< storedBits

theorem leadingBit_eq : leadingBit = 4503599627370496 := rfl

theorem units_of_lt {code : Nat} (h : code < 2 * leadingBit) : units code = code := by
  rw [leadingBit_eq] at h
  have hScale : code >>> storedBits - 1 = 0 := by
    simp only [storedBits, Nat.shiftRight_eq_div_pow]
    omega
  simp [units, hScale]

/-- Any other code is a scale over a full significand. -/
theorem exists_significand {code : Nat} (h : 2 * leadingBit ≤ code) :
    ∃ scale significand, leadingBit ≤ significand ∧ significand < 2 * leadingBit ∧
      code = scale <<< storedBits + significand ∧ units code = significand <<< scale := by
  rw [leadingBit_eq] at h ⊢
  refine ⟨code >>> storedBits - 1, code - (code >>> storedBits - 1) <<< storedBits, ?_, ?_, ?_, rfl⟩
  all_goals
    simp only [storedBits, Nat.shiftRight_eq_div_pow, Nat.shiftLeft_eq]
    omega

theorem units_pos {code : Nat} (h : 0 < code) : 0 < units code := by
  by_cases hLow : code < 2 * leadingBit
  · rwa [units_of_lt hLow]
  · obtain ⟨scale, m, hLe, _, _, hUnits⟩ := exists_significand (Nat.le_of_not_lt hLow)
    rw [hUnits, Nat.shiftLeft_eq]
    rw [leadingBit_eq] at hLe
    exact Nat.mul_pos (by omega) (Nat.two_pow_pos scale)

/-- A finite double is its own nearest double. -/
theorem encode_units {code : Nat} (h : code < infinity) : encode (units code) 1 = code := by
  by_cases hLow : code < 2 * leadingBit
  · have hLog : code.log2 ≤ 52 := by
      by_cases hZero : code = 0
      · simp [hZero]
      · exact Nat.le_of_lt_succ ((Nat.log2_lt hZero).mpr hLow)
    have hRound := roundDiv_mul_self code (d := 1) (by decide)
    rw [Nat.mul_one] at hRound
    simp only [encode, units_of_lt hLow, Nat.div_one, storedBits, Nat.sub_eq_zero_of_le hLog,
      Nat.shiftLeft_zero, Nat.zero_shiftLeft, Nat.zero_add, hRound]
    exact Nat.min_eq_left (Nat.le_of_lt h)
  · obtain ⟨scale, m, hLe, hLt, hCode, hUnits⟩ := exists_significand (Nat.le_of_not_lt hLow)
    rw [leadingBit_eq] at hLe hLt
    have hPow : 0 < 2 ^ scale := Nat.two_pow_pos scale
    have hLog : (m * 2 ^ scale).log2 = 52 + scale := by
      have hPos : m * 2 ^ scale ≠ 0 := Nat.mul_ne_zero (by omega) (by omega)
      rw [Nat.log2_eq_iff hPos, Nat.pow_add, show 52 + scale + 1 = 53 + scale by omega, Nat.pow_add]
      exact ⟨Nat.mul_le_mul_right _ hLe, (Nat.mul_lt_mul_right hPow).mpr hLt⟩
    have hMin : min (scale * 2 ^ 52 + m) infinity = code := by
      rw [hCode, storedBits, Nat.shiftLeft_eq] at h
      rw [hCode, storedBits, Nat.shiftLeft_eq]
      exact Nat.min_eq_left (Nat.le_of_lt h)
    simpa only [encode, hUnits, Nat.div_one, storedBits, hLog, Nat.add_sub_cancel_left,
      Nat.shiftLeft_eq, Nat.one_mul, roundDiv_mul_self m hPow] using hMin

end Reckoner.Number
