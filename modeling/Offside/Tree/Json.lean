import Offside.Json
import Offside.Tree.Program

/-!
# Programs as JSON

Every node is an object with its fields in a fixed order; a choice between forms is an object with one
field, named for the form. Reals have the fewest digits that read back.
-/

namespace Offside

/-- Reals in JSON are positional for leading digits from the sixth place behind the point up to the
thirteenth before it, and have a signed exponent otherwise. -/
def Json.realNotation : Decimal.Notation where
  plain := some (-6, 13)
  pointZero := true
  exponentPlus := true
  tie := .toEven

/-- A real; there is no number for the infinities and NaN. -/
def Json.ofReal (x : Float32) : Json :=
  if x.isFinite then .number (realNotation.write x) else .null

def Json.orNull : Option Json → Json
  | some j => j
  | none => .null

open Json

def Span.toJson (s : Span) : Json :=
  object [("start", ofNat s.start), ("end", ofNat s.stop)]

def DataType.toJson : DataType → Json
  | integer => .string "Integer"
  | real => .string "Real"
  | string => .string "String"
  | character => .string "Character"
  | boolean => .string "Boolean"
  | array element => tagged "Array" element.toJson

def Literal.toJson : Literal → Json
  | integer n => tagged "Integer" (ofInt n.toInt)
  | real x => tagged "Real" (ofReal x)
  | string s => tagged "String" (.string s)
  | character c => tagged "Character" (.string (.singleton c))
  | boolean b => tagged "Boolean" (.boolean b)

def Range.toJson (r : Range) : Json :=
  object [("from", r.low.toJson), ("to", r.high.toJson)]

def Arithmetic.toJson : Arithmetic → Json
  | add => .string "Add"
  | subtract => .string "Sub"
  | multiply => .string "Mul"
  | divide => .string "Div"
  | modulo => .string "Mod"

def Comparison.toJson : Comparison → Json
  | equal => .string "Eq"
  | notEqual => .string "NotEq"
  | less => .string "Lt"
  | lessEqual => .string "LtEq"
  | greater => .string "Gt"
  | greaterEqual => .string "GtEq"

/-- A place by its variable and its index, if it has one. -/
def Json.ofPlace (name : String) (index : Json) : Json :=
  object [("name", .string name), ("index", index)]

def Expr.toJson : Expr → Json
  | literal value => tagged "Literal" value.toJson
  | named name => tagged "Var" (ofPlace name .null)
  | element name index => tagged "Var" (ofPlace name index.toJson)
  | negate operand => tagged "Neg" operand.toJson
  | arithmetic op left right =>
    tagged "Binary" (object [("left", left.toJson), ("op", op.toJson), ("right", right.toJson)])
  | compare op left right =>
    tagged "Compare" (object [("left", left.toJson), ("op", op.toJson), ("right", right.toJson)])

def Target.toJson : Target → Json
  | named name => ofPlace name .null
  | element name index => ofPlace name index.toJson

def Argument.toJson (a : Argument) : Json :=
  object [("expr", a.value.toJson), ("by_ref", .boolean a.byReference)]

/-- A statement's form with its place. -/
def Location.toJson (place : Location) (node : Json) : Json :=
  object [("node", node), ("span", place.span.toJson), ("line", ofNat place.line)]

mutual

def Stmt.toJson : Stmt → Json
  | .assign place target value =>
    place.toJson (tagged "Assign" (object [("target", target.toJson), ("value", value.toJson)]))
  | .branch place chain => place.toJson (tagged "If" chain.toJson)
  | .count place counter first last body =>
    place.toJson (tagged "For" (object [("var", .string counter), ("from", first.toJson),
      ("to", last.toJson), ("body", list (Stmt.blockJson body))]))
  | .loopWhile place condition body =>
    place.toJson (tagged "While" (object [("condition", condition.toJson),
      ("body", list (Stmt.blockJson body))]))
  | .loopUntil place condition body =>
    place.toJson (tagged "Repeat" (object [("condition", condition.toJson),
      ("body", list (Stmt.blockJson body))]))
  | .call place function arguments =>
    place.toJson (tagged "Call" (object [("name", .string function),
      ("args", list (arguments.map Argument.toJson))]))

def Chain.toJson : Chain → Json
  | .last condition body =>
    object [("condition", orNull (condition.map Expr.toJson)), ("body", list (Stmt.blockJson body)),
      ("next", .null)]
  | .link condition body next =>
    object [("condition", orNull (condition.map Expr.toJson)), ("body", list (Stmt.blockJson body)),
      ("next", next.toJson)]

def Stmt.blockJson : List Stmt → List Json
  | [] => []
  | s :: ss => s.toJson :: Stmt.blockJson ss

end

def Declaration.toJson (d : Declaration) : Json :=
  object [("name", .string d.name), ("ty", d.type.toJson), ("mutable", .boolean d.mutable),
    ("init", orNull (d.init.map Literal.toJson)), ("range", orNull (d.range.map Range.toJson)),
    ("span", d.place.span.toJson), ("line", ofNat d.place.line)]

def Body.toJson : Body → Json
  | user statements => tagged "User" (list (Stmt.blockJson statements))
  | builtin b => tagged "Builtin" (.string b.name)

def Function.toJson (f : Function) : Json :=
  object [("name", .string f.name), ("params", list (f.parameters.map Declaration.toJson)),
    ("locals", list (f.locals.map Declaration.toJson)), ("body", f.body.toJson),
    ("span", f.place.span.toJson), ("line", ofNat f.place.line)]

def Program.toJson (p : Program) : Json :=
  object [("functions", list (p.functions.map Function.toJson))]

end Offside
