import Offside.Host.Basic
import Offside.Value.Reading

/-!
# What the built-in functions do

A built-in function works on the slots of its arguments: it takes values from them and puts its answer into
the slot of its output. `Read` fills all of its slots, `Write` none.
-/

namespace Offside

namespace Builtin

/-- The string at an argument, counted from one. -/
def stringArgument (b : Builtin) (position : Nat) (value : Value) : Except Cause String :=
  match value.string? with
  | some s => .ok s
  | none => .error (.unsuited (.argument .string position b) value.type)

def integerArgument (b : Builtin) (position : Nat) (value : Value) : Except Cause Int32 :=
  match value.integer? with
  | some n => .ok n
  | none => .error (.unsuited (.argument .integer position b) value.type)

def realArgument (b : Builtin) (position : Nat) (value : Value) : Except Cause Float32 :=
  match value.real? with
  | some x => .ok x
  | none => .error (.unsuited (.argument .real position b) value.type)

def arrayArgument (b : Builtin) (position : Nat) (value : Value) : Except Cause (Cells Value) :=
  match value.cells? with
  | some cells => .ok cells
  | none => .error (.unsuited (.argument .array position b) value.type)

/-- The characters of a text from a position on. All of them have to be there. -/
def cut (b : Builtin) (text : String) (start length : Int32) : Except Cause String :=
  if start < 0 ∨ length < 0 then .error (.negativeCut b start length)
  else
    let first := start.toInt.toNat
    let count := length.toInt.toNat
    if text.length < first + count then .error (.longCut b first count text.length)
    else .ok (String.ofList ((text.toList.drop first).take count))

/-- The position at which the last characters of a text start, or its start if there are not so many. -/
def rightStart (text : String) (length : Int32) : Int32 :=
  let total : Int := min text.length Int32.maxValue.toInt.toNat
  if 0 ≤ length.toInt ∧ length.toInt ≤ total then .ofInt (total - length.toInt) else 0

/-- The element at one end of an array. -/
def endItem (cells : Cells Value) (item : Option Value) : Except Cause Value :=
  match item with
  | some value => .ok value
  | none => .error (.indexOutOfBounds cells.lower cells.lower 0)

/-- The answer of a built-in function that only depends on its arguments, its output slot left out. -/
def compute (b : Builtin) (arguments : List Value) : Except Cause Value :=
  match b, arguments with
  | left, [text, length] => do
    let text ← left.stringArgument 1 text
    let length ← left.integerArgument 2 length
    return .string (← left.cut text 0 length)
  | right, [text, length] => do
    let text ← right.stringArgument 1 text
    let length ← right.integerArgument 2 length
    return .string (← right.cut text (rightStart text length) length)
  | substring, [text, position, length] => do
    let text ← substring.stringArgument 1 text
    let position ← substring.integerArgument 2 position
    let length ← substring.integerArgument 3 length
    return .string (← substring.cut text position length)
  | squareRoot, [x] => do return .real (← squareRoot.realArgument 1 x).sqrt
  | integerToReal, [n] => do return .real (← integerToReal.integerArgument 1 n).toFloat32
  | realToInteger, [x] => do return .integer (← realToInteger.realArgument 1 x).toInt32
  | start, [array] => do
    let cells ← start.arrayArgument 1 array
    endItem cells cells.items[0]?
  | stop, [array] => do
    let cells ← stop.arrayArgument 1 array
    endItem cells cells.items.back?
  | b, arguments => .error (.arity b.name (b.arity.getD 0) (arguments.length + 1))

/-- Fills slots with words of the input, each read as the type that the slot holds. Slots before the one
that fails stay filled. -/
def fill : List Value → Host → Except Cause Unit × List Value × Host
  | [], host => (.ok (), [], host)
  | slot :: rest, host =>
    match host.nextWord with
    | (.error cause, host) => (.error cause, slot :: rest, host)
    | (.ok word, host) =>
      match slot.readAs word with
      | .error cause => (.error cause, slot :: rest, host)
      | .ok value =>
        match fill rest host with
        | (ended, rest, host) => (ended, value :: rest, host)

/-- The values of a line that is written. -/
def row (values : List Value) : String :=
  " ".intercalate (values.map Value.text)

/-- Runs a built-in function on argument slots, of which there are as many as its arity says. -/
def perform (b : Builtin) (slots : List Value) (host : Host) : Except Cause Unit × List Value × Host :=
  match b with
  | read => fill slots host
  | write =>
    match host.writeLine (row slots) with
    | (ended, host) => (ended, slots, host)
  | getRandom =>
    match host.draw with
    | (number, host) => (.ok (), slots.dropLast ++ [.integer number], host)
  | b =>
    match b.compute slots.dropLast with
    | .error cause => (.error cause, slots, host)
    | .ok value => (.ok (), slots.dropLast ++ [value], host)

end Builtin

end Offside
