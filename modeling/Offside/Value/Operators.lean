import Offside.Decimal.Magnitude
import Offside.Fault

/-!
# Operators

Arithmetic joins two integers, two reals, or, for `+`, two strings. Integers wrap around at 32 bits, and their
division goes toward zero. A comparison also joins an integer and a real, the integer taken as a real; strings
are equal or not, and have no order.
-/

namespace Offside

namespace Arithmetic

/-- An operation on integers. -/
def onIntegers : Arithmetic → Int32 → Int32 → Except Cause Int32
  | add, a, b => .ok (a + b)
  | subtract, a, b => .ok (a - b)
  | multiply, a, b => .ok (a * b)
  | divide, a, b => if b = 0 then .error .divisionByZero else .ok (a / b)
  | modulo, a, b => if b = 0 then .error .divisionByZero else .ok (a % b)

/-- An operation on reals. -/
def onReals : Arithmetic → Float32 → Float32 → Float32
  | add, x, y => x + y
  | subtract, x, y => x - y
  | multiply, x, y => x * y
  | divide, x, y => x / y
  | modulo, x, y => Decimal.remainder x y

def apply (op : Arithmetic) : Value → Value → Except Cause Value
  | .integer a, .integer b => (op.onIntegers a b).map .integer
  | .real x, .real y => .ok (.real (op.onReals x y))
  | .string s, .string t =>
    match op with
    | add => .ok (.string (s ++ t))
    | _ => .error (.operands (.arithmetic op) .string .string)
  | left, right => .error (.operands (.arithmetic op) left.type right.type)

end Arithmetic

namespace Comparison

def onIntegers : Comparison → Int32 → Int32 → Bool
  | equal, a, b => a = b
  | notEqual, a, b => a ≠ b
  | less, a, b => a < b
  | lessEqual, a, b => a ≤ b
  | greater, a, b => b < a
  | greaterEqual, a, b => b ≤ a

/-- Reals compare by value: the two zeros are equal, and NaN only differs. -/
def onReals : Comparison → Float32 → Float32 → Bool
  | equal, x, y => x == y
  | notEqual, x, y => !(x == y)
  | less, x, y => x < y
  | lessEqual, x, y => x ≤ y
  | greater, x, y => y < x
  | greaterEqual, x, y => y ≤ x

def apply (op : Comparison) : Value → Value → Except Cause Bool
  | .integer a, .integer b => .ok (op.onIntegers a b)
  | .real x, .real y => .ok (op.onReals x y)
  | .integer a, .real y => .ok (op.onReals a.toFloat32 y)
  | .real x, .integer b => .ok (op.onReals x b.toFloat32)
  | .string s, .string t =>
    match op with
    | equal => .ok (s = t)
    | notEqual => .ok (s ≠ t)
    | _ => .error (.operands (.comparison op) .string .string)
  | left, right => .error (.operands (.comparison op) left.type right.type)

end Comparison

/-- A number with its sign changed. The least integer stays as it is. -/
def Value.negate : Value → Except Cause Value
  | .integer n => .ok (.integer (-n))
  | .real x => .ok (.real (-x))
  | value => .error (.unsuited .number value.type)

end Offside
