import Offside.Decimal.Magnitude

/-!
# The fewest digits that read back

The reals that round to a given magnitude form an interval around it, its ends included exactly when the
mantissa is even. Digits are chosen on the coarsest decimal grid that has a point in this interval; of two
such points the nearer is taken, and a format says which of two equally near ones.
-/

namespace Offside.Decimal

/-- Which of two equally near decimals is taken. -/
inductive Tie where
  | upward
  | toEven
  deriving DecidableEq, Repr

/-- The decimal `digits * 10 ^ exponent`. -/
structure Digits where
  digits : Nat
  exponent : Int
  deriving DecidableEq, Repr

/-- The number of decimal digits of a number; zero has one. -/
def digitCount (n : Nat) : Nat :=
  (Nat.toDigits 10 n).length

/-- Moves the zeros at the end of the digits into the exponent. -/
def dropZeros (digits : Nat) (exponent : Int) : Nat → Digits
  | 0 => ⟨digits, exponent⟩
  | n + 1 =>
    if digits ≠ 0 ∧ digits % 10 = 0 then dropZeros (digits / 10) (exponent + 1) n
    else ⟨digits, exponent⟩

/-- Whether a distance in quarters of a unit stays within half the gap, which is `gap` quarters. -/
def withinGap (endIncluded : Bool) (distance gap : Nat) : Bool :=
  distance < gap || (endIncluded && distance == gap)

/-- The point chosen on the grid of `10 ^ cut` units, if one of the two neighbours reads back. -/
def neighbour? (tie : Tie) (x : Magnitude) (e : Expansion) (cut : Nat) : Option Nat :=
  let grid := Nat.pow 10 cut
  let below := e.units / grid
  let rest := e.units % grid
  let endIncluded := x.mantissa % 2 = 0
  let lowFits := withinGap endIncluded (4 * rest) (if x.narrowBelow then e.step else 2 * e.step)
  let highFits := withinGap endIncluded (4 * (grid - rest)) (2 * e.step)
  let highNearer := grid < 2 * rest || (2 * rest == grid && (tie == .upward || below % 2 == 1))
  if highFits && (!lowFits || highNearer) then some (below + 1)
  else if lowFits then some below
  else none

/-- Tries grids from `10 ^ cut` units down to single units, where the expansion itself is a point. -/
def shortestFrom (tie : Tie) (x : Magnitude) (e : Expansion) : Nat → Nat × Nat
  | 0 => (e.units, 0)
  | cut + 1 =>
    match neighbour? tie x e (cut + 1) with
    | some digits => (digits, cut + 1)
    | none => shortestFrom tie x e cut

/-- The fewest digits that read back to a magnitude, and of these the nearest. -/
def shortest (tie : Tie) (x : Magnitude) : Digits :=
  let e := x.expansion
  let count := digitCount e.units
  let (digits, cut) := shortestFrom tie x e (count - 1)
  dropZeros digits (e.exponent + cut) count

end Offside.Decimal
