/-! # White space

The characters with the Unicode property of that name, as ranges of code points.
-/
namespace Reckoner.Text
set_option autoImplicit false

/-- The first and last code point of each run of white space, in ascending order. -/
def whiteSpaceRanges : List (Nat × Nat) :=
  [(0x9, 0xD), (0x20, 0x20), (0x85, 0x85), (0xA0, 0xA0), (0x1680, 0x1680), (0x2000, 0x200A),
    (0x2028, 0x2029), (0x202F, 0x202F), (0x205F, 0x205F), (0x3000, 0x3000)]

def isWhiteSpace (c : Char) : Bool :=
  whiteSpaceRanges.any fun range => decide (range.1 ≤ c.toNat) && decide (c.toNat ≤ range.2)

def isBlankLine (line : List Char) : Bool := line.all isWhiteSpace

end Reckoner.Text
