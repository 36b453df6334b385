import Offside.Host.Basic
import Offside.Machine.Outcome
import Offside.Scope.Eval
import Offside.Tree.Program

/-!
# States of an execution

The machine is what all calls share: the host, and the number of calls of user functions that are under way. A
frame adds the scope of the call whose statements run; a call holds the slots of its arguments.
-/

namespace Offside

structure Machine where
  host : Host
  /-- The calls of user functions that are under way. -/
  depth : Nat
  deriving Repr

structure Frame where
  scope : Scope
  machine : Machine
  deriving Repr

structure Call where
  slots : List Value
  machine : Machine
  deriving Repr

namespace Frame

/-- A change of the scope. -/
def onScope (change : Scope → Except Cause Unit × Scope) : Act Frame
  | ⟨scope, machine⟩ =>
    match change scope with
    | (ended, scope) => (.ofExcept ended, ⟨scope, machine⟩)

end Frame

namespace Function

/-- Binds the constants of a function. -/
def bindConstants (s : Scope) : List Declaration → Scope
  | [] => s
  | d :: ds =>
    match d.init with
    | some value => bindConstants (s.define d.name (.ofLiteral value)) ds
    | none => bindConstants s ds

/-- The value that a variable has before it is first assigned. -/
def firstValue (d : Declaration) : Value :=
  match d.init with
  | some value => .ofLiteral value
  | none => .initial d.type d.range

/-- Binds the variables of a function. One that cannot be bound fails on the line of its declaration. -/
def bindVariables (s : Scope) : List Declaration → Except Fault Scope
  | [] => .ok s
  | d :: ds =>
    match s.declare d.name d.type d.range (firstValue d) with
    | (.ok (), s) => bindVariables s ds
    | (.error cause, _) => .error ((Fault.of cause).atLine d.place.line)

/-- Binds parameters to the values of their arguments. -/
def bindParameters (s : Scope) : List Declaration → List Value → Except Fault Scope
  | d :: ds, value :: values =>
    match s.declare d.name d.type d.range value with
    | (.ok (), s) => bindParameters s ds values
    | (.error cause, _) => .error (.of cause)
  | _, _ => .ok s

/-- The scope in which the body of a function starts: constants, then variables, then parameters. -/
def scopeFor (f : Function) (arguments : List Value) : Except Fault Scope :=
  match bindVariables (bindConstants .empty f.constants) f.localVariables with
  | .ok s => bindParameters s f.parameters arguments
  | .error fault => .error fault

end Function

namespace Scope

/-- The argument slots when a body is done: those of `var` parameters take the values of the parameters. -/
def collect (s : Scope) : List Declaration → List Value → List Value
  | d :: ds, slot :: slots =>
    if d.mutable then
      match s.take d.name with
      | (value, s) => value.getD slot :: s.collect ds slots
    else slot :: s.collect ds slots
  | _, slots => slots

/-- Stores the output slots of a call in the places that its arguments name, from left to right. The count
is of the arguments already behind. -/
def storeOutputs (f : Function) : Nat → List Argument → List Value → Scope →
    Except Cause Unit × Scope
  | position, argument :: arguments, slot :: slots, s =>
    match f.isOutput position, argument.value.target? with
    | true, some target =>
      match s.store target slot with
      | (.ok (), s) => storeOutputs f (position + 1) arguments slots s
      | failed => failed
    | _, _ => storeOutputs f (position + 1) arguments slots s
  | _, _, _, s => (.ok (), s)

end Scope

namespace Function

/-- Checks the arguments of a call: an output has to be a place, and only an output may be marked with `var`.
The count is of the arguments already behind. -/
def checkArguments (f : Function) (name : String) : Nat → List Argument → Except Cause Unit
  | _, [] => .ok ()
  | position, argument :: arguments =>
    if f.isOutput position ∧ argument.value.target?.isNone then .error (.notAPlace name (position + 1))
    else if argument.byReference ∧ ¬ f.isOutput position then .error (.needlessVar name (position + 1))
    else f.checkArguments name (position + 1) arguments

end Function

/-- The values of arguments, from left to right. -/
def Argument.evalAll (s : Scope) : List Argument → Except Cause (List Value)
  | [] => .ok []
  | a :: as => do
    let value ← a.value.eval s
    return value :: (← evalAll s as)

end Offside
