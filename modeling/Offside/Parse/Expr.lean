import Offside.Parse.Literal

/-!
# Reading expressions

A comparison is at most one comparison operator between two sums; sums and products group to the left; a
factor is a literal, a place, a negated factor or a sum in parentheses.
-/

namespace Offside.Parse

def comparisonOf? : Token → Option Comparison
  | .mark .equal | .mark .equalEqual => some .equal
  | .mark .notEqual => some .notEqual
  | .mark .less => some .less
  | .mark .lessEqual => some .lessEqual
  | .mark .greater => some .greater
  | .mark .greaterEqual => some .greaterEqual
  | _ => none

def additiveOf? : Token → Option Arithmetic
  | .mark .plus => some .add
  | .mark .minus => some .subtract
  | _ => none

def multiplicativeOf? : Token → Option Arithmetic
  | .mark .star => some .multiply
  | .mark .slash => some .divide
  | .mark .percent => some .modulo
  | _ => none

/-- The operator at a cursor, of the kind that a function picks out. -/
def operator? {α : Type} (pick : Token → Option α) (c : Cursor) : Option (Reading α c) :=
  match c.next? with
  | none => none
  | some r =>
    match pick r.value.token with
    | some op => some (r.map fun _ => op)
    | none => none

mutual

def factor (c : Cursor) : Attempt Expr c :=
  match c.next? with
  | none => c.fail (.expected .expression)
  | some first =>
    match first.value.token with
    | .mark .minus =>
      match first.next.eat? leastMagnitude with
      | some magnitude => .ok (first.andThen magnitude (.literal (.integer Int32.minValue)))
      | none => do
        let operand ← factor first.next
        return first.andThen operand (.negate operand.value)
    | .mark .openParen => do
      let inner ← sum first.next
      let close ← inner.next.expectMark .closeParen .closeExpression
      return (first.andThen inner ()).andThen close inner.value
    | .name name =>
      match first.next.eat? (.mark .openBracket) with
      | none => .ok (first.map fun _ => .named name)
      | some bracket => do
        let index ← sum bracket.next
        let close ← index.next.expectMark .closeBracket .closeIndex
        return ((first.andThen bracket ()).andThen index ()).andThen close (.element name index.value)
    | _ => do
      let value ← plainLiteral .expression c
      return value.map .literal
termination_by 3 * c.ahead.length
decreasing_by
  · have := first.shorter
    omega
  · have := first.shorter
    omega
  · have := Nat.lt_trans bracket.shorter first.shorter
    omega

/-- The factors behind the ones already read. -/
def productRest {start : Cursor} (left : Reading Expr start) : Attempt Expr start :=
  match operator? multiplicativeOf? left.next with
  | none => .ok left
  | some op => do
    let right ← factor op.next
    productRest (left.andThen (op.andThen right ()) (.arithmetic op.value left.value right.value))
termination_by 3 * left.next.ahead.length
decreasing_by
  · have := op.shorter
    omega
  · have := Nat.lt_trans right.shorter op.shorter
    simp only [Reading.andThen]
    omega

def product (c : Cursor) : Attempt Expr c := do
  let first ← factor c
  productRest first
termination_by 3 * c.ahead.length + 1
decreasing_by
  · omega
  · have := first.shorter
    omega

/-- The products behind the ones already read. -/
def sumRest {start : Cursor} (left : Reading Expr start) : Attempt Expr start :=
  match operator? additiveOf? left.next with
  | none => .ok left
  | some op => do
    let right ← product op.next
    sumRest (left.andThen (op.andThen right ()) (.arithmetic op.value left.value right.value))
termination_by 3 * left.next.ahead.length
decreasing_by
  · have := op.shorter
    omega
  · have := Nat.lt_trans right.shorter op.shorter
    simp only [Reading.andThen]
    omega

def sum (c : Cursor) : Attempt Expr c := do
  let first ← product c
  sumRest first
termination_by 3 * c.ahead.length + 2
decreasing_by
  · omega
  · have := first.shorter
    omega

end

/-- A sum, or two sums with a comparison operator between them. -/
def comparison (c : Cursor) : Attempt Expr c := do
  let left ← sum c
  match operator? comparisonOf? left.next with
  | none => return left
  | some op => do
    let right ← sum op.next
    return left.andThen (op.andThen right ()) (.compare op.value left.value right.value)

end Offside.Parse
