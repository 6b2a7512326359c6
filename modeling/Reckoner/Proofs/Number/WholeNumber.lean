import Reckoner.Number.Display
import Reckoner.Proofs.Number.BitPattern

/-! # Whole numbers in source texts

A run of digits reads as a double that is infinite or a whole number, and a finite whole number is
written as a run of digits again, which reads as the same double: rounding a whole number to 53 bits
leaves a whole number, and neither the shortest digits nor all digits of one need a point.
-/
namespace Reckoner.Number
set_option autoImplicit false

theorem units_scaled {scale m : Nat} (hLow : leadingBit ≤ m) (hHigh : m ≤ 2 * leadingBit) :
    units (scale <<< storedBits + m) = m <<< scale := by
  rw [leadingBit_eq] at hLow hHigh
  simp only [units, storedBits, Nat.shiftLeft_eq, Nat.shiftRight_eq_div_pow]
  by_cases hFull : m = 2 * 4503599627370496
  · have hScale : (scale * 2 ^ 52 + m) / 2 ^ 52 - 1 = scale + 1 := by omega
    have hRest : scale * 2 ^ 52 + m - (scale + 1) * 2 ^ 52 = 4503599627370496 := by omega
    rw [hScale, hRest, hFull, Nat.pow_succ]
    omega
  · have hScale : (scale * 2 ^ 52 + m) / 2 ^ 52 - 1 = scale := by omega
    rw [hScale, Nat.add_sub_cancel_left]

theorem roundDiv_bounds {n scale : Nat} (hLow : 2 ^ (52 + scale) ≤ n) (hHigh : n < 2 ^ (53 + scale)) :
    leadingBit ≤ roundDiv n (2 ^ scale) ∧ roundDiv n (2 ^ scale) ≤ 2 * leadingBit := by
  have hPow : 0 < 2 ^ scale := Nat.two_pow_pos scale
  have hQuotLow : 4503599627370496 ≤ n / 2 ^ scale := by
    rw [Nat.le_div_iff_mul_le hPow]
    rwa [Nat.pow_add] at hLow
  have hQuotHigh : n / 2 ^ scale < 9007199254740992 := by
    rw [Nat.div_lt_iff_lt_mul hPow]
    rwa [Nat.pow_add] at hHigh
  have hRound : n / 2 ^ scale ≤ roundDiv n (2 ^ scale) ∧
      roundDiv n (2 ^ scale) ≤ n / 2 ^ scale + 1 := by
    simp only [roundDiv]
    split
    · omega
    split
    · omega
    · omega
  rw [leadingBit_eq]
  omega

/-- The double nearest to a whole number is a whole number. -/
theorem units_nearest {n : Nat} (hPos : 0 < n) (h : nearest n 1 < infinity) :
    ∃ v, units (nearest n 1) = v <<< unitBits := by
  have hNonzero : n * 2 ^ unitBits ≠ 0 := Nat.mul_ne_zero (by omega) (Nat.ne_of_gt (Nat.two_pow_pos _))
  have hLog : unitBits ≤ (n * 2 ^ unitBits).log2 :=
    (Nat.le_log2 hNonzero).mpr (Nat.le_mul_of_pos_left _ hPos)
  obtain ⟨scale, hScale⟩ : ∃ scale, (n * 2 ^ unitBits).log2 = 52 + scale :=
    ⟨(n * 2 ^ unitBits).log2 - 52, by simp only [unitBits] at hLog ⊢; omega⟩
  obtain ⟨hBelow, hAbove⟩ := (Nat.log2_eq_iff hNonzero).mp hScale
  have hCode : nearest n 1 =
      min (scale <<< storedBits + roundDiv (n * 2 ^ unitBits) (2 ^ scale)) infinity := by
    simp only [nearest, encode, Nat.shiftLeft_eq, Nat.div_one, Nat.one_mul, hScale, storedBits,
      Nat.add_sub_cancel_left]
  obtain ⟨hLow, hHigh⟩ := roundDiv_bounds hBelow (by rwa [show 53 + scale = 52 + scale + 1 by omega])
  rw [hCode, Nat.min_eq_left (by omega), units_scaled hLow hHigh, Nat.shiftLeft_eq]
  by_cases hCoarse : unitBits ≤ scale
  · refine ⟨roundDiv (n * 2 ^ unitBits) (2 ^ scale) * 2 ^ (scale - unitBits), ?_⟩
    rw [Nat.shiftLeft_eq, Nat.mul_assoc, ← Nat.pow_add, Nat.sub_add_cancel hCoarse]
  · -- the steps between doubles are at most one here, so nothing is rounded
    refine ⟨n, ?_⟩
    have hSplit : n * 2 ^ unitBits = n * 2 ^ (unitBits - scale) * 2 ^ scale := by
      rw [Nat.mul_assoc, ← Nat.pow_add, Nat.sub_add_cancel (by omega)]
    rw [hSplit, roundDiv_mul_self _ (Nat.two_pow_pos scale), ← hSplit, Nat.shiftLeft_eq]

theorem code_whole (n : Nat) : Decimal.code ⟨n, 0⟩ = nearest n 1 := by
  by_cases hZero : n = 0
  · subst hZero
    decide
  · have hOne : tenPow 0 = 1 := rfl
    change (if n = 0 then 0 else if 309 ≤ 0 then infinity else nearest (n * tenPow 0) 1) = _
    rw [if_neg hZero, if_neg (by decide), hOne, Nat.mul_one]

theorem nearest_le (n d : Nat) : nearest n d ≤ infinity := Nat.min_le_right _ _

/-- A run of digits whose value is nearest to the double of a code. -/
def Writes (digits : List Char) (code : Nat) : Prop :=
  digits ≠ [] ∧ (∀ c ∈ digits, c.isDigit = true) ∧ nearest (digitsValue digits) 1 = code

theorem digitsValue_toDigits (n : Nat) : digitsValue (Nat.toDigits 10 n) = n :=
  Nat.ofDigitChars_ten_toDigits

theorem forall_isDigit_toDigits (n : Nat) : ∀ c ∈ Nat.toDigits 10 n, c.isDigit = true :=
  fun _ hc => Nat.isDigit_of_mem_toDigits (by decide) (by decide) hc

theorem digitsValue_zeros (n k : Nat) :
    digitsValue (Nat.toDigits 10 n ++ List.replicate k '0') = n * tenPow k := by
  calc digitsValue (Nat.toDigits 10 n ++ List.replicate k '0')
      = Nat.ofDigitChars 10 (List.replicate k '0') (digitsValue (Nat.toDigits 10 n)) :=
        Nat.ofDigitChars_append 0
    _ = 10 ^ k * n := by rw [digitsValue_toDigits, Nat.ofDigitChars_replicate_zero]
    _ = n * tenPow k := Nat.mul_comm _ _

theorem writes_toDigits (n : Nat) : Writes (Nat.toDigits 10 n) (nearest n 1) :=
  ⟨Nat.toDigits_ne_nil, forall_isDigit_toDigits n, by rw [digitsValue_toDigits]⟩

theorem positional_writes {d : Decimal} {code k : Nat} (hExponent : d.exponent = .ofNat k)
    (hCode : d.code = code) (hPos : 0 < code) (h : code < infinity) :
    ∃ digits, d.positional = String.ofList digits ∧ Writes digits code := by
  rcases d with ⟨n, e⟩
  obtain rfl : e = .ofNat k := hExponent
  refine ⟨Nat.toDigits 10 n ++ List.replicate k '0', rfl, by simp [Nat.toDigits_ne_nil], ?_, ?_⟩
  · intro c hc
    rcases List.mem_append.mp hc with hDigit | hZero
    · exact forall_isDigit_toDigits n c hDigit
    · rw [List.eq_of_mem_replicate hZero]
      rfl
  · rw [digitsValue_zeros]
    simp only [Decimal.code] at hCode
    split at hCode
    · omega
    split at hCode
    · omega
    · exact hCode

theorem fractionText_zero (places : Nat) : fractionText 0 places = [] := by
  simp only [fractionText, Nat.toDigits_zero, List.length_singleton]
  rw [← List.replicate_succ', List.reverse_replicate, List.dropWhile_replicate]
  rfl

theorem nearest_whole {code v : Nat} (h : code < infinity) (hWhole : units code = v <<< unitBits) :
    nearest v 1 = code := by
  rw [nearest, ← hWhole]
  exact encode_units h

theorem whole_pos {code v : Nat} (hPos : 0 < code) (hWhole : units code = v <<< unitBits) : 0 < v := by
  have hUnits := units_pos hPos
  rw [hWhole, Nat.shiftLeft_eq] at hUnits
  exact Nat.pos_of_mul_pos_right hUnits

theorem magnitude_whole {value v : Nat} (hPos : 0 < v) (hWhole : value = v <<< unitBits) :
    magnitude value = digitCount v := by
  have hShift : value >>> unitBits = v := by rw [hWhole, Nat.shiftLeft_shiftRight]
  simp only [magnitude, hShift]
  rw [if_neg (by omega)]

/-- On the grid of the whole numbers a whole number is its own nearer neighbour. -/
theorem neighbours_whole {value v : Nat} (hWhole : value = v <<< unitBits) :
    (neighbours value 0).1 = ⟨v, 0⟩ := by
  have hOne : tenPow 0 = 1 := rfl
  have hPow : 0 < 2 ^ unitBits := Nat.two_pow_pos unitBits
  have hLess : 2 * (value % (tenPow 0 <<< unitBits)) < tenPow 0 <<< unitBits := by
    rw [hOne, hWhole, Nat.shiftLeft_eq, Nat.shiftLeft_eq, Nat.one_mul, Nat.mul_mod_left]
    exact hPow
  have hQuotient : value / (tenPow 0 <<< unitBits) = v := by
    rw [hOne, hWhole, Nat.shiftLeft_eq, Nat.shiftLeft_eq, Nat.one_mul, Nat.mul_div_cancel v hPow]
  have hZero : (0 : Int) = .ofNat 0 := rfl
  rw [hZero]
  simp only [neighbours, if_pos hLess, hQuotient]

theorem withDigits?_whole {code v : Nat} (hPos : 0 < code) (h : code < infinity)
    (hWhole : units code = v <<< unitBits) : withDigits? code (digitCount v) = some ⟨v, 0⟩ := by
  have hMagnitude := magnitude_whole (whole_pos hPos hWhole) hWhole
  have hCode : Decimal.code ⟨v, 0⟩ = code := (code_whole v).trans (nearest_whole h hWhole)
  simp only [withDigits?, hMagnitude, Int.sub_self, neighbours_whole hWhole]
  rw [if_pos hCode]

theorem withDigits?_exponent {code count : Nat} {d : Decimal} (h : withDigits? code count = some d) :
    d.exponent = magnitude (units code) - count := by
  have hNear : (neighbours (units code) (magnitude (units code) - count)).1.exponent =
        magnitude (units code) - count ∧
      (neighbours (units code) (magnitude (units code) - count)).2.exponent =
        magnitude (units code) - count := by
    simp only [neighbours]
    split <;> split <;> exact ⟨rfl, rfl⟩
  simp only [withDigits?] at h
  split at h
  · cases h
    exact hNear.1
  split at h
  · cases h
    exact hNear.2
  · cases h

theorem positional_exact {code v : Nat} (hWhole : units code = v <<< unitBits) :
    (exact code).positional = String.ofList (Nat.toDigits 10 v) := by
  have hSignificand : (units code * tenPow unitBits) >>> unitBits = v * tenPow unitBits := by
    rw [hWhole, Nat.shiftLeft_eq, Nat.shiftRight_eq_div_pow, Nat.mul_right_comm,
      Nat.mul_div_cancel _ (Nat.two_pow_pos unitBits)]
  have hExact : exact code = ⟨v * tenPow unitBits, .negSucc 1073⟩ := by
    rw [exact, hSignificand]
    rfl
  have hPlaces : tenPow (1073 + 1) = tenPow unitBits := rfl
  rw [hExact]
  simp only [Decimal.positional, hPlaces, Nat.mul_div_cancel _ (tenPow_pos unitBits), Nat.mul_mod_left,
    fractionText_zero, List.isEmpty_nil, if_true]

/-- The first digit count that is enough leaves nothing behind the point, because the digit count of
the whole number is. -/
theorem exponent_of_findSome? {code v : Nat} {d : Decimal} (hPos : 0 < code) (h : code < infinity)
    (hWhole : units code = v <<< unitBits)
    (hFound : (List.range 17).findSome? (fun i => withDigits? code (i + 1)) = some d) :
    ∃ k, d.exponent = .ofNat k := by
  obtain ⟨before, i, after, hRange, hDigits, hNone⟩ := List.findSome?_eq_some_iff.mp hFound
  have hIndex : before.length = i := by
    have hGet : (List.range 17)[before.length]? = some i := by rw [hRange]; simp
    obtain ⟨_, hEq⟩ := List.getElem?_eq_some_iff.mp hGet
    simpa using hEq
  have hEnough : i + 1 ≤ digitCount v := by
    apply Nat.le_of_not_lt
    intro hMore
    have hCount : 0 < digitCount v := by
      rw [digitCount]
      split <;> omega
    -- then the digit count of `v` was tried before
    have hMember : digitCount v - 1 ∈ before := by
      have hGet : (List.range 17)[digitCount v - 1]? = some (digitCount v - 1) := by
        have hLength : before.length + (after.length + 1) = 17 := by
          have hLengths := congrArg List.length hRange
          simpa using hLengths.symm
        rw [List.getElem?_range (by omega)]
      rw [hRange, List.getElem?_append_left (by omega)] at hGet
      exact List.mem_of_getElem? hGet
    have hMissing := hNone _ hMember
    rw [Nat.sub_add_cancel hCount, withDigits?_whole hPos h hWhole] at hMissing
    cases hMissing
  refine ⟨digitCount v - (i + 1), ?_⟩
  rw [withDigits?_exponent hDigits, magnitude_whole (whole_pos hPos hWhole) hWhole]
  exact (Int.ofNat_sub hEnough).symm

theorem shortest_writes {code v : Nat} (hPos : 0 < code) (h : code < infinity)
    (hWhole : units code = v <<< unitBits) :
    ∃ digits, (shortest code).positional = String.ofList digits ∧ Writes digits code := by
  unfold shortest
  cases hFound : (List.range 17).findSome? fun i => withDigits? code (i + 1) with
  | none =>
    refine ⟨Nat.toDigits 10 v, positional_exact hWhole, ?_⟩
    have hWrites := writes_toDigits v
    rwa [nearest_whole h hWhole] at hWrites
  | some d =>
    obtain ⟨k, hExponent⟩ := exponent_of_findSome? hPos h hWhole hFound
    obtain ⟨i, _, hDigits⟩ := List.exists_of_findSome?_eq_some hFound
    exact positional_writes hExponent (withDigits?_code hDigits) hPos h

theorem codeText_writes {n code : Nat} (hCode : nearest n 1 = code) (h : code < infinity) :
    ∃ digits, codeText code = String.ofList digits ∧ Writes digits code := by
  unfold codeText
  split
  · rename_i hZero
    refine ⟨['0'], rfl, by simp, by simp, ?_⟩
    rw [hZero]
    decide
  rename_i hNonzero
  have hn : 0 < n := by
    apply Nat.pos_of_ne_zero
    rintro rfl
    exact hNonzero (hCode.symm.trans (by decide))
  rw [if_neg (Nat.ne_of_lt h)]
  rw [← hCode] at h
  obtain ⟨v, hWhole⟩ := units_nearest hn h
  rw [hCode] at h hWhole
  exact shortest_writes (by omega) h hWhole

theorem read?_digits {digits : List Char} (hDigits : digits ≠ [])
    (hAll : ∀ c ∈ digits, c.isDigit = true) :
    read? (String.ofList digits) = some (ofCode false (nearest (digitsValue digits) 1)) := by
  have hTake : digits.takeWhile Char.isDigit = digits := by
    have hAppend : (digits ++ []).takeWhile Char.isDigit = _ := List.takeWhile_append_of_pos hAll
    simpa using hAppend
  have hDrop : digits.dropWhile Char.isDigit = [] := by
    have hAppend : (digits ++ []).dropWhile Char.isDigit = _ := List.dropWhile_append_of_pos hAll
    simpa using hAppend
  have hDecimal : readDecimal? digits = some ⟨digitsValue digits, 0⟩ := by
    simp [readDecimal?, hTake, hDrop, splitFraction, readExponent?, hDigits]
  have hSign : splitSign digits = (false, digits) := by
    obtain ⟨c, rest, rfl⟩ := List.exists_cons_of_ne_nil hDigits
    have hDigit := hAll c List.mem_cons_self
    unfold splitSign
    split
    · rename_i hPlus
      cases hPlus
      cases hDigit
    · rename_i hMinus
      cases hMinus
      cases hDigit
    · rfl
  rw [read?, String.toList_ofList, hSign]
  simp only [readCode?, hDecimal, Option.map_some, code_whole]

/-- What a run of digits reads as is infinite, or is written as a run of digits that reads as it. -/
theorem render_of_digits {digits : List Char} {x : Float} (hDigits : digits ≠ [])
    (hAll : ∀ c ∈ digits, c.isDigit = true) (h : read? (String.ofList digits) = some x) :
    (x.isInf = true ∧ render x = "inf") ∨
      (x.isInf = false ∧ ∃ written, render x = String.ofList written ∧ written ≠ [] ∧
        (∀ c ∈ written, c.isDigit = true) ∧ read? (String.ofList written) = some x) := by
  rw [read?_digits hDigits hAll] at h
  have hLe := nearest_le (digitsValue digits) 1
  have hCode : codeOf x = nearest (digitsValue digits) 1 := by
    cases h
    exact codeOf_ofCode false hLe
  have hSign : isNegative x = false := by
    cases h
    exact isNegative_ofCode false hLe
  have hRender : render x = codeText (nearest (digitsValue digits) 1) := by
    simp only [render, hCode, hSign]
    rw [if_neg (by omega)]
    rfl
  have hInf := isInf_iff x
  rw [hCode] at hInf
  by_cases hInfinite : nearest (digitsValue digits) 1 = infinity
  · refine .inl ⟨hInf.mpr hInfinite, ?_⟩
    rw [hRender, hInfinite]
    rfl
  · have hFinite : x.isInf = false := Bool.eq_false_iff.mpr fun hTrue => hInfinite (hInf.mp hTrue)
    have hLess : nearest (digitsValue digits) 1 < infinity := by omega
    obtain ⟨written, hText, hWritten, hRun, hValue⟩ := codeText_writes rfl hLess
    refine .inr ⟨hFinite, written, hRender.trans hText, hWritten, hRun, ?_⟩
    rw [read?_digits hWritten hRun, hValue]
    exact h

end Reckoner.Number
