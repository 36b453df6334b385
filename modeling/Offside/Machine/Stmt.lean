import Offside.Machine.Basic

/-!
# Running statements

Statements run over a frame. How a function is called is left open: `invoke` runs a function on argument
slots. A failure takes the line of the innermost statement around it. Loops that may never end get `fuel`
rounds.
-/

namespace Offside

namespace Frame

/-- The value of an expression stored at a target. -/
def assign (target : Target) (value : Expr) : Act Frame :=
  .withValue (fun frame => value.eval frame.scope) fun value =>
    onScope fun scope => scope.store target value

/-- A call: its arguments are checked, then evaluated, and its outputs are stored when it is done. -/
def call (program : Program) (invoke : Function → Act Call) (name : String) (arguments : List Argument) :
    Act Frame
  | ⟨scope, machine⟩ =>
    match program.function? name with
    | none => (.failed (.of (.undefinedFunction name)), ⟨scope, machine⟩)
    | some f =>
      match f.checkArguments name 0 arguments with
      | .error cause => (.failed (.of cause), ⟨scope, machine⟩)
      | .ok () =>
        match Argument.evalAll scope arguments with
        | .error cause => (.failed (.of cause), ⟨scope, machine⟩)
        | .ok values =>
          match invoke f ⟨values, machine⟩ with
          | (.done, ⟨slots, machine⟩) =>
            onScope (Scope.storeOutputs f 0 arguments slots) ⟨scope, machine⟩
          | (stopped, ⟨_, machine⟩) => (stopped, ⟨scope, machine⟩)

/-- The bounds of a counting loop, of which the first has to be below the last. -/
def bounds (first last : Expr) (frame : Frame) : Except Cause (Int32 × Int32) := do
  let first ← first.evalInteger frame.scope .firstBound
  let last ← last.evalInteger frame.scope .lastBound
  if first < last then return (first, last) else throw (.emptyCount first last)

/-- A loop over the integers from `first` up to `last`, which is left out. The bounds are evaluated once. -/
def count (counter : String) (first last : Expr) (body : Act Frame) : Act Frame :=
  .withValue (bounds first last) fun (first, last) =>
    .repeatFor
      (fun i => .andThen (onScope fun scope => scope.assign counter (.integer i)) body)
      (last.toInt - first.toInt).toNat first

end Frame

section

variable (program : Program) (invoke : Function → Act Call) (fuel : Nat)

mutual

def Stmt.run : Stmt → Act Frame
  | .assign place target value => (Frame.assign target value).atLine place.line
  | .branch place chain => (Chain.run chain).atLine place.line
  | .count place counter first last body =>
    (Frame.count counter first last (Stmt.runAll body)).atLine place.line
  | .loopWhile place condition body =>
    (Act.repeatWhile (fun frame => condition.evalCondition frame.scope) (Stmt.runAll body) fuel).atLine
      place.line
  | .loopUntil place condition body =>
    (Act.repeatUntil (fun frame => condition.evalCondition frame.scope) (Stmt.runAll body) fuel).atLine
      place.line
  | .call place function arguments => (Frame.call program invoke function arguments).atLine place.line

/-- The body of the first link whose condition holds, or that has none. -/
def Chain.run : Chain → Act Frame
  | .last none body => Stmt.runAll body
  | .last (some condition) body =>
    .withValue (fun frame => condition.evalCondition frame.scope) fun holds =>
      if holds then Stmt.runAll body else .skip
  | .link none body _ => Stmt.runAll body
  | .link (some condition) body next =>
    .withValue (fun frame => condition.evalCondition frame.scope) fun holds =>
      if holds then Stmt.runAll body else Chain.run next

/-- Statements one after the other, up to the first that is not done. -/
def Stmt.runAll : List Stmt → Act Frame
  | [] => .skip
  | s :: ss => (Stmt.run s).andThen (Stmt.runAll ss)

end

end

end Offside
