/-! # The alphabet of source texts

A source text is made of letters and digits of the basic Latin block, eight marks, and three blanks
that separate words. Every other character is illegal, the carriage return included.
-/
namespace Reckoner.Alphabet
set_option autoImplicit false

/-- The letters are `A` to `Z` and `a` to `z`. -/
def isLetter (c : Char) : Bool := c.isAlpha

/-- The digits are `0` to `9`. -/
def isDigit (c : Char) : Bool := c.isDigit

/-- Space, tab and newline stand between words and carry no meaning. -/
def isBlank (c : Char) : Bool := c == ' ' || c == '\t' || c == '\n'

/-- The marks are words of one character. -/
def isMark (c : Char) : Bool := ['(', ')', '+', '-', '*', '/', '%', '='].contains c

def isLegal (c : Char) : Bool := isLetter c || isDigit c || isMark c || isBlank c

theorem isBlank_iff (c : Char) : isBlank c = true ↔ c = ' ' ∨ c = '\t' ∨ c = '\n' := by
  simp [isBlank, or_assoc]

theorem isLetter_eq_false_of_isDigit {c : Char} (h : isDigit c = true) : isLetter c = false := by
  have hDigit : (decide (48 ≤ c.val) && decide (c.val ≤ 57)) = true := h
  refine Bool.eq_false_iff.mpr fun hLetter => ?_
  have hRanges : (decide (65 ≤ c.val ∧ c.val ≤ 90) || decide (97 ≤ c.val) && decide (c.val ≤ 122)) =
      true := hLetter
  simp only [Bool.or_eq_true, Bool.and_eq_true, decide_eq_true_eq, UInt32.le_iff_toNat_le] at hDigit hRanges
  simp only [UInt32.reduceToNat] at hDigit hRanges
  omega

end Reckoner.Alphabet
