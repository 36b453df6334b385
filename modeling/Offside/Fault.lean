import Offside.Text.Quoted
import Offside.Tree.Builtin
import Offside.Tree.Expr
import Offside.Value.Basic

/-!
# Faults

Why a running program stops, and on which line. A fault starts without a line and takes that of the innermost
statement around it; a line once given stays.
-/

namespace Offside

/-- A kind of value that a built-in function asks for. -/
inductive Shape where
  | string | integer | real | array
  deriving DecidableEq, Repr

def Shape.text : Shape → String
  | string => "string"
  | integer => "integer"
  | real => "real"
  | array => "array"

/-- What a place in a program asks of a value. -/
inductive Demand where
  | condition
  | index
  | firstBound
  | lastBound
  | array
  | number
  /-- An argument of a built-in function, counted from one. -/
  | argument (shape : Shape) (position : Nat) (function : Builtin)
  deriving DecidableEq, Repr

def Demand.text : Demand → String
  | condition => "boolean condition"
  | index => "integer array index"
  | firstBound => "integer for loop start"
  | lastBound => "integer for loop end"
  | array => "array"
  | number => "integer or real"
  | argument shape position function =>
    shape.text ++ " for argument " ++ toString position ++ " of " ++ function.name

/-- Where a value is stored. -/
inductive Slot where
  | named (name : String)
  | element (name : String) (index : Int32)
  deriving DecidableEq, Repr

def Slot.text : Slot → String
  | named name => name
  | element name index => name ++ "[" ++ toString index.toInt ++ "]"

/-- An operation with two operands. -/
inductive Operator where
  | arithmetic (op : Arithmetic)
  | comparison (op : Comparison)
  deriving DecidableEq, Repr

def Operator.text : Operator → String
  | arithmetic op => op.text
  | comparison op => op.text

inductive Cause where
  | undefinedVariable (name : String)
  | undefinedFunction (name : String)
  | constantAssigned (name : String)
  | unsuited (demand : Demand) (found : DataType)
  | mismatch (slot : Slot) (declared found : DataType)
  | operands (operator : Operator) (left right : DataType)
  /-- An argument is marked with `var` and its parameter is not. -/
  | needlessVar (function : String) (position : Nat)
  | unreadable (wanted : DataType) (word : String)
  | unreadableArray
  | arity (function : String) (expected found : Nat)
  | divisionByZero
  | indexOutOfBounds (index lower : Int32) (size : Nat)
  | negativeCut (function : Builtin) (start length : Int32)
  | longCut (function : Builtin) (start length total : Nat)
  | outOfRange (name : String) (value : Value) (range : Range)
  | emptyCount (first last : Int32)
  | notAPlace (function : String) (position : Nat)
  | tooDeep (limit : Nat)
  | endOfInput
  | garbledInput
  /-- The output cannot be written to or flushed. -/
  | output (reason : String)
  deriving Repr

/-- The kinds of causes. -/
inductive FaultKind where
  | undefinedVariable | undefinedFunction | constantAssignment | type | arity | divisionByZero
  | indexOutOfBounds | outOfRange | countBounds | notAPlace | depth | host
  deriving DecidableEq, Repr

namespace Cause

def kind : Cause → FaultKind
  | undefinedVariable _ => .undefinedVariable
  | undefinedFunction _ => .undefinedFunction
  | constantAssigned _ => .constantAssignment
  | unsuited _ _ | mismatch _ _ _ | operands _ _ _ | needlessVar _ _ | unreadable _ _
  | unreadableArray => .type
  | arity _ _ _ => .arity
  | divisionByZero => .divisionByZero
  | indexOutOfBounds _ _ _ | negativeCut _ _ _ | longCut _ _ _ _ => .indexOutOfBounds
  | outOfRange _ _ _ => .outOfRange
  | emptyCount _ _ => .countBounds
  | notAPlace _ _ => .notAPlace
  | tooDeep _ => .depth
  | endOfInput | garbledInput | output _ => .host

/-- A value in a message about its range; strings are limited in length, so theirs is told. -/
def shown : Value → String
  | .string s => Text.quoted s ++ " (length " ++ toString s.length ++ ")"
  | value => value.text

def message : Cause → String
  | undefinedVariable name => "undefined variable: " ++ name
  | undefinedFunction name => "undefined function: " ++ name
  | constantAssigned name => "cannot assign to constant " ++ name
  | unsuited demand found => expected demand.text found.text
  | mismatch slot declared found =>
    "type error: " ++ slot.text ++ " is declared " ++ declared.text ++ " but was given " ++ found.text
  | operands operator left right =>
    "type error: cannot apply " ++ operator.text ++ " to " ++ left.text ++ " and " ++ right.text
  | needlessVar function position =>
    "argument " ++ toString position ++ " of " ++ function ++ " is not a var parameter"
  | unreadable wanted word => expected wanted.text ("input " ++ Text.quoted word)
  | unreadableArray => expected "a scalar variable" "array"
  | arity function expected found =>
    "function " ++ function ++ " expects " ++ toString expected ++ " argument(s), got " ++ toString found
  | divisionByZero => "division by zero"
  | indexOutOfBounds index lower size =>
    "index " ++ toString index.toInt ++ " out of bounds " ++ toString lower.toInt ++ ".." ++
      toString (lower.toInt + size - 1)
  | negativeCut function start length =>
    function.name ++ ": position " ++ toString start.toInt ++ " and length " ++ toString length.toInt ++
      " must not be negative"
  | longCut function start length total =>
    function.name ++ ": " ++ toString length ++ " character(s) from position " ++ toString start ++
      " exceed the " ++ toString total ++ " available"
  | outOfRange name value range => name ++ " := " ++ shown value ++ " is outside " ++ range.text
  | emptyCount first last =>
    "for loop start " ++ toString first.toInt ++ " must be less than its end " ++ toString last.toInt
  | notAPlace function position =>
    "argument " ++ toString position ++ " of " ++ function ++ " is an output and must be a variable"
  | tooDeep limit => "stack overflow: call depth exceeded " ++ toString limit
  | endOfInput => host "end of input while reading"
  | garbledInput => host "stream did not contain valid UTF-8"
  | output reason => host reason
where
  expected (wanted found : String) : String :=
    "type error: expected " ++ wanted ++ ", got " ++ found
  host (reason : String) : String :=
    "IO error: " ++ reason

end Cause

structure Fault where
  cause : Cause
  line : Option Nat
  deriving Repr

namespace Fault

/-- A fault that no statement has placed yet. -/
def of (cause : Cause) : Fault :=
  ⟨cause, none⟩

/-- Places a fault on a line, unless it has one. -/
def atLine (line : Nat) (f : Fault) : Fault :=
  ⟨f.cause, f.line.or (some line)⟩

@[simp] theorem atLine_atLine (outer inner : Nat) (f : Fault) :
    (f.atLine inner).atLine outer = f.atLine inner := by
  cases f with
  | mk cause line => cases line <;> rfl

def message (f : Fault) : String :=
  f.cause.message

def text (f : Fault) : String :=
  match f.line with
  | some line => "Runtime error on line " ++ toString line ++ ": " ++ f.message
  | none => "Runtime error: " ++ f.message

end Fault

end Offside
