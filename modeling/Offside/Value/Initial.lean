import Offside.Value.Basic

/-!
# First values

The value of a variable that is declared without one: zero, moved to the nearest limit of its range. For a
string it is the least number of spaces, for an array the first value of the element type at every index.
-/

namespace Offside

namespace Value

/-- The integer nearest to zero between two limits, or the lower limit if they are out of order. -/
def nearestToZero (low high : Int32) : Int32 :=
  if 0 < low then low
  else if max high low < 0 then max high low
  else 0

/-- The real nearest to zero between two limits, or the lower limit if they are out of order. -/
def nearestRealToZero (low high : Float32) : Float32 :=
  let high := if high < low then low else high
  if 0 < low then low
  else if high < 0 then high
  else 0

/-- The first value of a variable of a type and a range. -/
def initial : DataType → Option Range → Value
  | .integer, range =>
    let (low, high) := (range.bind Range.integers?).getD (0, 0)
    integer (nearestToZero low high)
  | .real, range =>
    let (low, high) := (range.bind Range.reals?).getD (0, 0)
    real (nearestRealToZero low high)
  | .string, range =>
    let (low, _) := (range.bind Range.integers?).getD (0, 0)
    string (String.ofList (List.replicate low.toInt.toNat ' '))
  | .character, _ => character ' '
  | .boolean, _ => boolean false
  | .array element, range =>
    let (low, high) := (range.bind Range.integers?).getD (0, -1)
    array ⟨element, low, Array.replicate (high.toInt - low.toInt + 1).toNat (initial element none)⟩

end Value

end Offside
