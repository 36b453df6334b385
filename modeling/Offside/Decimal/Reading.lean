/-!
# Numbers read from text

Integers are an optional sign and decimal digits; reals are the names of the special values in any case, or
decimal digits with an optional point and an optional exponent. A real is rounded once, from the exact
decimal, to the nearest 32-bit real.
-/

namespace Offside.Decimal

/-- The number that decimal digits stand for. -/
def digitsValue (cs : List Char) : Nat :=
  cs.foldl (fun n c => 10 * n + (c.toNat - '0'.toNat)) 0

/-- Splits off an optional sign; the flag is set for a minus. -/
def splitSign : List Char → Bool × List Char
  | '-' :: cs => (true, cs)
  | '+' :: cs => (false, cs)
  | cs => (false, cs)

/-- A whole number with an optional sign, of any size. -/
def readInt? (text : String) : Option Int :=
  let (negative, cs) := splitSign text.toList
  if cs ≠ [] ∧ cs.all Char.isDigit then
    some (if negative then -(digitsValue cs : Int) else digitsValue cs)
  else none

/-- A whole number with an optional sign that fits in 32 bits. -/
def readInteger? (text : String) : Option Int32 :=
  match readInt? text with
  | some n => if Int32.minValue.toInt ≤ n ∧ n ≤ Int32.maxValue.toInt then some (.ofInt n) else none
  | none => none

/-- The real nearest to `digits * 10 ^ exponent`. Beyond the largest and below the least real the answer is
known from the number of digits alone. -/
def nearest (digits : Nat) (exponent : Int) : Float32 :=
  let power := (Nat.toDigits 10 digits).length + exponent
  if digits = 0 ∨ power < -60 then 0
  else if 60 < power then 1 / 0
  else Float32.ofScientific digits (exponent < 0) exponent.natAbs

/-- The real written as digits, a point and digits. -/
def ofParts (whole fraction : List Char) : Float32 :=
  nearest (digitsValue (whole ++ fraction)) (-fraction.length)

/-- The exponent after the digits: nothing, or a mark and a whole number. -/
def readExponent? : List Char → Option Int
  | [] => some 0
  | c :: cs =>
    if c = 'e' ∨ c = 'E' then
      let (negative, digits) := splitSign cs
      if digits ≠ [] ∧ digits.all Char.isDigit then
        some (if negative then -(digitsValue digits : Int) else digitsValue digits)
      else none
    else none

/-- Digits, an optional point with digits on at least one side of it, and an optional exponent. -/
def readDecimal? (cs : List Char) : Option Float32 :=
  let whole := cs.takeWhile Char.isDigit
  let rest := cs.dropWhile Char.isDigit
  let (fraction, rest) := match rest with
    | '.' :: more => (more.takeWhile Char.isDigit, more.dropWhile Char.isDigit)
    | _ => ([], rest)
  if whole = [] ∧ fraction = [] then none
  else (readExponent? rest).map fun exponent =>
    nearest (digitsValue (whole ++ fraction)) (exponent - fraction.length)

/-- A real, special values included. -/
def readReal? (text : String) : Option Float32 :=
  let (negative, cs) := splitSign text.toList
  let size? : Option Float32 :=
    match String.ofList (cs.map Char.toLower) with
    | "inf" | "infinity" => some (1 / 0)
    | "nan" => some (0 / 0)
    | _ => readDecimal? cs
  size?.map fun x => if negative then -x else x

end Offside.Decimal
