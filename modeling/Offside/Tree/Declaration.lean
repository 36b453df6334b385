import Offside.Location
import Offside.Tree.Literal

/-!
# Declarations

Parameters, constants and local variables. A variable without an initial value may have a range, which has
to suit its type; an array must have one.
-/

namespace Offside

/-- A parameter, constant or variable. -/
structure Declaration where
  name : String
  type : DataType
  /-- Not set for constants and for parameters that are not marked with `var`. -/
  mutable : Bool
  /-- The value of a constant, or the first value of a variable. -/
  init : Option Literal
  range : Option Range
  place : Location
  deriving DecidableEq, Repr

/-- Why a range does not suit a declaration. -/
inductive RangeError where
  | boundsMissing (name : String)
  | notIntegers (name : String)
  | notNumbers (name : String)
  | emptyIntegers (name : String) (low high : Int32)
  | emptyReals (name : String) (low high : Float32)
  | negativeLength (name : String)
  | longString (name : String) (least : Int32)
  | longArray (name : String) (extent : Int)
  | notRanged (name : String) (type : DataType)
  deriving DecidableEq, Repr

/-- The most elements of an array, and the longest string that a range may demand. -/
def extentLimit : Nat := 1048576

namespace RangeError

def message : RangeError → String
  | boundsMissing name => "array `" ++ name ++ "` needs index bounds: `from <low> to <high>`"
  | notIntegers name => "range of `" ++ name ++ "` must use integer bounds"
  | notNumbers name => "range of `" ++ name ++ "` must use numeric bounds"
  | emptyIntegers name low high => empty name (toString low.toInt) (toString high.toInt)
  | emptyReals name low high =>
    empty name (Decimal.Notation.positional.write low) (Decimal.Notation.positional.write high)
  | negativeLength name => "length range of string `" ++ name ++ "` cannot be negative"
  | longString name least =>
    "string `" ++ name ++ "` needs at least " ++ toString least.toInt ++ " characters; the limit is " ++
      toString extentLimit
  | longArray name extent =>
    "array `" ++ name ++ "` spans " ++ toString extent ++ " elements; the limit is " ++
      toString extentLimit
  | notRanged name type => "`" ++ name ++ "` has type " ++ type.text ++ ", which cannot take a range"
where
  empty (name low high : String) : String :=
    "range of `" ++ name ++ "` is empty: " ++ low ++ " is greater than " ++ high

end RangeError

namespace Range

/-- The elements between two index bounds. -/
def extent (low high : Int32) : Int :=
  high.toInt - low.toInt + 1

/-- Checks a range between integers, for an integer, a string or an array. -/
def checkIntegers (name : String) (type : DataType) (low high : Int32) : Except RangeError Unit :=
  if high < low then .error (.emptyIntegers name low high)
  else match type with
    | .string =>
      if low < 0 then .error (.negativeLength name)
      else if (extentLimit : Int) < low.toInt then .error (.longString name low)
      else .ok ()
    | .array _ =>
      if (extentLimit : Int) < extent low high then .error (.longArray name (extent low high))
      else .ok ()
    | _ => .ok ()

/-- Checks that a range suits a variable of a type. -/
def check (name : String) (type : DataType) : Option Range → Except RangeError Unit
  | none => if type.isArray then .error (.boundsMissing name) else .ok ()
  | some range =>
    match type with
    | .integer | .string | .array _ =>
      match range.integers? with
      | none => .error (.notIntegers name)
      | some (low, high) => checkIntegers name type low high
    | .real =>
      match range.reals? with
      | none => .error (.notNumbers name)
      | some (low, high) => if high < low then .error (.emptyReals name low high) else .ok ()
    | .character | .boolean => .error (.notRanged name type)

end Range

namespace Declaration

/-- A variable without a first value. -/
def ofType (name : String) (type : DataType) (range : Option Range) (place : Location) :
    Except RangeError Declaration := do
  Range.check name type range
  return ⟨name, type, true, none, range, place⟩

/-- A variable with a first value, which gives it its type. -/
def ofValue (name : String) (value : Literal) (place : Location) : Declaration :=
  ⟨name, value.type, true, some value, none, place⟩

def constant (name : String) (value : Literal) (place : Location) : Declaration :=
  ⟨name, value.type, false, some value, none, place⟩

def parameter (name : String) (type : DataType) (mutable : Bool) (place : Location) : Declaration :=
  ⟨name, type, mutable, none, none, place⟩

/-- A declaration as it stands in a section. -/
def text (d : Declaration) : String :=
  match d.init, d.range with
  | some value, _ => d.name ++ " = " ++ value.text
  | none, some range => d.name ++ ": " ++ d.type.text ++ " " ++ range.text
  | none, none => d.name ++ ": " ++ d.type.text

/-- A declaration as it stands in the head of a function. -/
def signature (d : Declaration) : String :=
  (if d.mutable then "var " else "") ++ d.name ++ ": " ++ d.type.text

end Declaration

end Offside
