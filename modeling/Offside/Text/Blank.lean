import Offside.Text.Split

/-!
# Blank characters and words

Input is cut into words at blank characters. A character is blank when it has the Unicode property
White_Space; the zero width space and the byte order mark do not have it.
-/

namespace Offside.Text

/-- The ranges of code points with the property White_Space, ends included. -/
def blankRanges : List (Nat × Nat) :=
  [(0x09, 0x0D), (0x20, 0x20), (0x85, 0x85), (0xA0, 0xA0), (0x1680, 0x1680), (0x2000, 0x200A),
   (0x2028, 0x2029), (0x202F, 0x202F), (0x205F, 0x205F), (0x3000, 0x3000)]

def isBlank (c : Char) : Bool :=
  blankRanges.any fun (low, high) => low ≤ c.toNat && c.toNat ≤ high

/-- The words of a text: its maximal stretches without a blank character, in order. -/
def words (text : String) : List String :=
  ((split isBlank text.toList).filter (· ≠ [])).map String.ofList

/-- The text without the blank characters at its two ends. -/
def trim (text : String) : String :=
  String.ofList ((text.toList.dropWhile isBlank).reverse.dropWhile isBlank).reverse

end Offside.Text
