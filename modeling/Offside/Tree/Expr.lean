import Offside.Tree.Literal

/-!
# Expressions
-/

namespace Offside

inductive Arithmetic where
  | add | subtract | multiply | divide | modulo
  deriving DecidableEq, Repr

def Arithmetic.text : Arithmetic → String
  | add => "+"
  | subtract => "-"
  | multiply => "*"
  | divide => "/"
  | modulo => "%"

inductive Comparison where
  | equal | notEqual | less | lessEqual | greater | greaterEqual
  deriving DecidableEq, Repr

def Comparison.text : Comparison → String
  | equal => "="
  | notEqual => "<>"
  | less => "<"
  | lessEqual => "<="
  | greater => ">"
  | greaterEqual => ">="

inductive Expr where
  | literal (value : Literal)
  | named (name : String)
  /-- An element of an array. -/
  | element (name : String) (index : Expr)
  | negate (operand : Expr)
  | arithmetic (op : Arithmetic) (left right : Expr)
  | compare (op : Comparison) (left right : Expr)
  deriving DecidableEq, Repr

/-- A place that can be written to. -/
inductive Target where
  | named (name : String)
  | element (name : String) (index : Expr)
  deriving DecidableEq, Repr

namespace Expr

/-- The place that an expression names, if it names one. -/
def target? : Expr → Option Target
  | named name => some (.named name)
  | element name index => some (.element name index)
  | _ => none

/-- An expression with every operation in parentheses, comparisons apart. -/
def text : Expr → String
  | literal value => value.text
  | named name => name
  | element name index => name ++ "[" ++ index.text ++ "]"
  | negate operand => "-" ++ operand.text
  | arithmetic op left right => "(" ++ left.text ++ " " ++ op.text ++ " " ++ right.text ++ ")"
  | compare op left right => left.text ++ " " ++ op.text ++ " " ++ right.text

end Expr

namespace Target

/-- The variable written to, as a whole or in one element. -/
def name : Target → String
  | named name => name
  | element name _ => name

/-- The expression that reads the place. -/
def toExpr : Target → Expr
  | named name => .named name
  | element name index => .element name index

def text (t : Target) : String :=
  t.toExpr.text

end Target

end Offside
