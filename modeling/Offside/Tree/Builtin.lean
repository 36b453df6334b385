/-!
# Built-in functions

The functions that every program can call without defining them: their names, how many arguments they take,
and which of these they write to.
-/

namespace Offside

inductive Builtin where
  | read | write | left | right | substring | squareRoot | getRandom | integerToReal | realToInteger
  | start | stop
  deriving DecidableEq, Repr

namespace Builtin

def all : List Builtin :=
  [read, write, left, right, substring, squareRoot, getRandom, integerToReal, realToInteger, start, stop]

def name : Builtin → String
  | read => "Read"
  | write => "Write"
  | left => "Left"
  | right => "Right"
  | substring => "Substring"
  | squareRoot => "SquareRoot"
  | getRandom => "GetRandom"
  | integerToReal => "IntegerToReal"
  | realToInteger => "RealToInteger"
  | start => "Start"
  | stop => "End"

def ofName? (name : String) : Option Builtin :=
  all.find? (·.name = name)

/-- The number of arguments, unless any number will do. -/
def arity : Builtin → Option Nat
  | read | write => none
  | getRandom => some 1
  | squareRoot | integerToReal | realToInteger | start | stop => some 2
  | left | right => some 3
  | substring => some 4

/-- Whether the argument at an index, counted from zero, is written to. -/
def isOutput (b : Builtin) (index : Nat) : Bool :=
  match b with
  | read => true
  | write => false
  | b => b.arity = some (index + 1)

end Builtin

end Offside
