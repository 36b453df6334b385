import Offside.Scope.Basic
import Offside.Value.Operators

/-!
# The value of an expression

Expressions read a scope and change nothing. Operands are evaluated from left to right, and the first failure
is the answer.
-/

namespace Offside

namespace Scope

/-- The value of a variable. -/
def load (s : Scope) (name : String) : Except Cause Value :=
  match s.get? name with
  | some value => .ok value
  | none => .error (.undefinedVariable name)

end Scope

/-- The integer that a place in a program demands. -/
def Value.asInteger (demand : Demand) : Value → Except Cause Int32
  | .integer n => .ok n
  | value => .error (.unsuited demand value.type)

/-- The truth value of a condition. -/
def Value.asCondition : Value → Except Cause Bool
  | .boolean b => .ok b
  | value => .error (.unsuited .condition value.type)

/-- The element of a value at an index. -/
def Value.element (value : Value) (index : Int32) : Except Cause Value :=
  match value with
  | .array cells => cells.read index
  | other => .error (.unsuited .array other.type)

namespace Expr

def eval (s : Scope) : Expr → Except Cause Value
  | literal value => .ok (.ofLiteral value)
  | named name => s.load name
  | element name index => do
    let value ← s.load name
    let index ← (← eval s index).asInteger .index
    value.element index
  | negate operand => do (← eval s operand).negate
  | arithmetic op left right => do
    let left ← eval s left
    let right ← eval s right
    op.apply left right
  | compare op left right => do
    let left ← eval s left
    let right ← eval s right
    return .boolean (← op.apply left right)

/-- The integer that an expression stands for. -/
def evalInteger (s : Scope) (demand : Demand) (e : Expr) : Except Cause Int32 := do
  (← e.eval s).asInteger demand

/-- The truth value that an expression stands for. -/
def evalCondition (s : Scope) (e : Expr) : Except Cause Bool := do
  (← e.eval s).asCondition

end Expr

/-- Stores a value at a target. The index of an element is evaluated here, after the value. -/
def Scope.store (s : Scope) (target : Target) (value : Value) : Except Cause Unit × Scope :=
  match target with
  | .named name => s.assign name value
  | .element name index =>
    match index.evalInteger s .index with
    | .error cause => (.error cause, s)
    | .ok index => s.assignElement name index value

end Offside
