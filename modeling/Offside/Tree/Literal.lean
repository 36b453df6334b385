import Offside.Decimal.Notation

/-!
# Types, literals and ranges

The types of the language, the constants that a program may write down, and the `from .. to` limits of a
declaration. A range limits numbers by value and strings by length, and gives an array its index bounds.
-/

namespace Offside

inductive DataType where
  | integer
  | real
  | string
  | character
  | boolean
  | array (element : DataType)
  deriving DecidableEq, Repr

namespace DataType

def text : DataType → String
  | integer => "integer"
  | real => "real"
  | string => "string"
  | character => "character"
  | boolean => "boolean"
  | array element => "array of " ++ element.text

def isArray : DataType → Bool
  | array _ => true
  | _ => false

end DataType

/-- A constant as a program writes it. -/
inductive Literal where
  | integer (value : Int32)
  | real (value : Float32)
  | string (value : String)
  | character (value : Char)
  | boolean (value : Bool)
  deriving DecidableEq, Repr

namespace Literal

def type : Literal → DataType
  | integer _ => .integer
  | real _ => .real
  | string _ => .string
  | character _ => .character
  | boolean _ => .boolean

/-- The value of a number as a real. -/
def toReal? : Literal → Option Float32
  | integer n => some n.toFloat32
  | real x => some x
  | _ => none

/-- A number with its sign changed. The least integer stays as it is. -/
def negate? : Literal → Option Literal
  | integer n => some (integer (-n))
  | real x => some (real (-x))
  | _ => none

def text : Literal → String
  | integer n => toString n.toInt
  | real x => Decimal.spell x
  | string s => "\"" ++ s ++ "\""
  | character c => "'" ++ String.singleton c ++ "'"
  | boolean b => toString b

end Literal

/-- The limits of a declaration, both included. -/
structure Range where
  low : Literal
  high : Literal
  deriving DecidableEq, Repr

namespace Range

/-- The limits of a range between two integers. -/
def integers? (r : Range) : Option (Int32 × Int32) :=
  match r.low, r.high with
  | .integer low, .integer high => some (low, high)
  | _, _ => none

/-- The limits of a range between two numbers, as reals. -/
def reals? (r : Range) : Option (Float32 × Float32) :=
  match r.low.toReal?, r.high.toReal? with
  | some low, some high => some (low, high)
  | _, _ => none

def text (r : Range) : String :=
  "from " ++ r.low.text ++ " to " ++ r.high.text

end Range

end Offside
