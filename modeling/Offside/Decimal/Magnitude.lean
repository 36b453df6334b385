/-!
# Exact values of 32-bit reals

A finite real is a sign and a magnitude `mantissa * 2 ^ exponent`. Both powers of two and of one half have
finite decimal expansions, so a magnitude is also a whole number of units `10 ^ exponent`; this is the form
in which digits are chosen and fractions are tested.
-/

namespace Offside.Decimal

/-- A finite real without its sign, `mantissa * 2 ^ exponent`. -/
structure Magnitude where
  mantissa : Nat
  exponent : Int
  /-- The real below is half as far away as the real above. -/
  narrowBelow : Bool
  deriving DecidableEq, Repr

/-- The magnitude that the bits of a finite real stand for. -/
def Magnitude.ofBits (bits : UInt32) : Magnitude :=
  let stored := ((bits >>> 23) &&& 0xFF).toNat
  let fraction := (bits &&& 0x7FFFFF).toNat
  if stored = 0 then ⟨fraction, -149, false⟩
  else ⟨0x800000 + fraction, stored - 150, fraction = 0 ∧ 1 < stored⟩

/-- The magnitude of a finite real. -/
def magnitude (x : Float32) : Magnitude :=
  .ofBits x.toBits

/-- The sign bit; it tells the two zeros apart. -/
def isNegative (x : Float32) : Bool :=
  x.toBits >>> 31 = 1

/-- A whole number of units `10 ^ exponent`. -/
structure Expansion where
  units : Nat
  exponent : Int
  /-- The units in one step of the mantissa. -/
  step : Nat
  deriving DecidableEq, Repr

/-- The full decimal expansion of a magnitude. -/
def Magnitude.expansion (x : Magnitude) : Expansion :=
  if 0 ≤ x.exponent then
    let step := Nat.pow 2 x.exponent.toNat
    ⟨x.mantissa * step, 0, step⟩
  else
    let step := Nat.pow 5 (-x.exponent).toNat
    ⟨x.mantissa * step, x.exponent, step⟩

/-- The whole number below a magnitude. -/
def Magnitude.floor (x : Magnitude) : Nat :=
  x.mantissa * Nat.pow 2 x.exponent.toNat / Nat.pow 2 (-x.exponent).toNat

/-- Whether a magnitude has no fractional part. -/
def Magnitude.isWhole (x : Magnitude) : Bool :=
  x.mantissa % Nat.pow 2 (-x.exponent).toNat = 0

/-- Whether a real is a whole number; the infinities and NaN are not. -/
def isWhole (x : Float32) : Bool :=
  x.isFinite && (magnitude x).isWhole

/-- The real `count * 2 ^ exponent` with the given sign. The value has to be representable, which makes
the cut of the low bits exact. -/
def ofScaled (negative : Bool) (count : Nat) (exponent : Int) : Float32 :=
  let size := count.log2
  let leading := exponent + size
  let bits : Nat :=
    if count = 0 then 0
    else if leading < -126 then count * Nat.pow 2 (exponent + 149).toNat
    else (leading + 126).toNat * 0x800000 + count * 0x800000 / Nat.pow 2 size
  .ofBits ((if negative then 0x80000000 else 0) ||| bits.toUInt32)

/-- The remainder of a truncated division. It has the sign of the dividend and is exact: both operands are
taken as multiples of the finer of their two steps. -/
def remainder (x y : Float32) : Float32 :=
  if x.isNaN || y.isNaN || x.isInf || y == 0 then 0 / 0
  else if y.isInf then x
  else
    let a := magnitude x
    let b := magnitude y
    let fine := min a.exponent b.exponent
    let dividend := a.mantissa * Nat.pow 2 (a.exponent - fine).toNat
    let divisor := b.mantissa * Nat.pow 2 (b.exponent - fine).toNat
    ofScaled (isNegative x) (dividend % divisor) fine

end Offside.Decimal
