import Offside.Decimal.Shortest

/-!
# How reals are written

A notation fixes where positional writing ends, whether a whole number keeps a point, how an exponent is
signed, and which of two equally near decimals is chosen. The digits come from `shortest`.
-/

namespace Offside.Decimal

/-- The decisions of one written form of reals. -/
structure Notation where
  /-- Leading digits at these powers of ten, first included and second not, are written positionally. -/
  plain : Option (Int × Int)
  /-- A whole number is written with the fraction `.0`. -/
  pointZero : Bool
  /-- A positive exponent has a plus sign. -/
  exponentPlus : Bool
  tie : Tie
  deriving DecidableEq, Repr

/-- Positional writing throughout, with no fraction added. -/
def Notation.positional : Notation where
  plain := none
  pointZero := false
  exponentPlus := false
  tie := .upward

def zeros (n : Nat) : String :=
  String.ofList (List.replicate n '0')

/-- The digits with the point set `before` places from their start. -/
def placePoint (pointZero : Bool) (digits : String) (before : Int) : String :=
  let size := digits.length
  if before ≤ 0 then "0." ++ zeros (-before).toNat ++ digits
  else if size ≤ before.toNat then
    digits ++ zeros (before.toNat - size) ++ (if pointZero then ".0" else "")
  else
    let cs := digits.toList
    String.ofList (cs.take before.toNat) ++ "." ++ String.ofList (cs.drop before.toNat)

/-- The first digit, the others behind a point, and the power of ten of the first. -/
def withExponent (plus : Bool) (digits : String) (power : Int) : String :=
  let cs := digits.toList
  let rest := cs.drop 1
  String.ofList (cs.take 1) ++ (if rest.isEmpty then "" else "." ++ String.ofList rest) ++ "e" ++
    (if plus ∧ 0 < power then "+" else "") ++ toString power

def Notation.isPlain (form : Notation) (power : Int) : Bool :=
  match form.plain with
  | none => true
  | some (low, high) => low ≤ power && power < high

/-- The text of a magnitude. -/
def Notation.ofMagnitude (form : Notation) (x : Magnitude) : String :=
  if x.mantissa = 0 then (if form.pointZero then "0.0" else "0")
  else
    let d := shortest form.tie x
    let digits := toString d.digits
    let power := d.exponent + digits.length - 1
    if form.isPlain power then placePoint form.pointZero digits (power + 1)
    else withExponent form.exponentPlus digits power

/-- The text of a real. NaN has no sign. -/
def Notation.write (form : Notation) (x : Float32) : String :=
  if x.isNaN then "NaN"
  else
    let sign := if isNegative x then "-" else ""
    if x.isInf then sign ++ "inf" else sign ++ form.ofMagnitude (magnitude x)

/-- How the language writes a real: a whole number in full with one decimal, any other with the fewest
digits and no exponent. -/
def spell (x : Float32) : String :=
  if isWhole x then
    (if isNegative x then "-" else "") ++ toString (magnitude x).floor ++ ".0"
  else Notation.positional.write x

end Offside.Decimal
