import Offside.Parse.Expr

/-!
# Reading the arguments of a call

A call stands on a line of its own. Its arguments are in parentheses or bare behind the name. An opening
parenthesis encloses the arguments only if the closing one ends the line; otherwise it belongs to the first
bare argument. If neither reading succeeds, the error of the parenthesised one is reported.
-/

namespace Offside.Parse

/-- An argument. Behind the word `var` it has to name a place. -/
def argument (c : Cursor) : Attempt Argument c :=
  match c.next? with
  | none => c.fail (.expected .argument)
  | some first =>
    if first.value.token = .keyword .var then do
      let value ← comparison first.next
      match value.value.target? with
      | some target => return first.andThen value ⟨target.toExpr, true⟩
      | none => .error (.atLexeme first.value (.notAPlace value.value))
    else do
      let value ← comparison c
      return value.map fun e => ⟨e, false⟩

/-- One or more arguments with commas between them. -/
def arguments (c : Cursor) : Attempt (List Argument) c := do
  let first ← argument c
  match first.next.eat? (.mark .comma) with
  | none => return first.map fun a => [a]
  | some comma => do
    let rest ← arguments comma.next
    return (first.andThen comma ()).andThen rest (first.value :: rest.value)
termination_by c.ahead.length
decreasing_by exact Nat.lt_trans comma.shorter first.shorter

/-- Arguments up to the end of the line, which is read too. -/
def bareArguments (c : Cursor) : Attempt (List Argument) c :=
  match c.eat? .newline with
  | some lineEnd => .ok (lineEnd.map fun _ => [])
  | none => do
    let args ← arguments c
    let lineEnd ← args.next.expectLineEnd
    return args.andThen lineEnd args.value

/-- Arguments behind an opening parenthesis, up to the closing one. -/
def enclosedArguments (c : Cursor) : Attempt (List Argument) c :=
  match c.eat? (.mark .closeParen) with
  | some close => .ok (close.map fun _ => [])
  | none => do
    let args ← arguments c
    let close ← args.next.expectMark .closeParen .closeArguments
    return args.andThen close args.value

/-- What follows the name of a function on the line of a call. -/
def callArguments (c : Cursor) : Attempt (List Argument) c :=
  match c.eat? (.mark .openParen) with
  | none => bareArguments c
  | some opening =>
    match enclosedArguments opening.next with
    | .ok args =>
      match args.next.eat? .newline with
      | some lineEnd => .ok ((opening.andThen args ()).andThen lineEnd args.value)
      | none => bareArguments c
    | .error enclosedError =>
      match bareArguments c with
      | .ok args => .ok args
      | .error _ => .error enclosedError

end Offside.Parse
