/-!
# Blank characters

The characters that count as blank space around a text: the white space of Unicode, and with it
the four separators of ASCII.  The zero width space and the byte order mark are not among them.
-/

namespace Wireboard.Text

/-- The ranges of the blank characters, first and last code point, in increasing order. -/
def blankRanges : List (Nat × Nat) := [
  (0x9, 0xd), (0x1c, 0x20), (0x85, 0x85), (0xa0, 0xa0), (0x1680, 0x1680), (0x2000, 0x200a),
  (0x2028, 0x2029), (0x202f, 0x202f), (0x205f, 0x205f), (0x3000, 0x3000)]

/-- A code point lies in one of the ranges. -/
def inRanges (ranges : List (Nat × Nat)) (code : Nat) : Bool :=
  ranges.any fun r => decide (r.1 ≤ code) && decide (code ≤ r.2)

def isBlank (c : Char) : Bool := inRanges blankRanges c.toNat

/-- The text without the blank characters before and after it. -/
def strip (cs : List Char) : List Char :=
  ((cs.dropWhile isBlank).reverse.dropWhile isBlank).reverse

/-- The text without the blank characters after it. -/
def stripEnd (cs : List Char) : List Char :=
  (cs.reverse.dropWhile isBlank).reverse

end Wireboard.Text
