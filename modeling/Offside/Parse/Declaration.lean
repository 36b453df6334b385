import Offside.Parse.Literal

/-!
# Reading declarations

Parameters in the head of a function, and the sections of constants and variables that open its body. A
section is one line behind its word, or a block of lines below it.
-/

namespace Offside.Parse

/-- One or more names with commas between them. -/
def names (what : Expected) (c : Cursor) : Attempt (List (String × Lexeme)) c := do
  let first ← c.expectName what
  match first.next.eat? (.mark .comma) with
  | none => return first.map fun n => [n]
  | some comma => do
    let rest ← names what comma.next
    return (first.andThen comma ()).andThen rest (first.value :: rest.value)
termination_by c.ahead.length
decreasing_by exact Nat.lt_trans comma.shorter first.shorter

/-- Parameters of one type, all with or all without the mark `var`. -/
def typedParameters (mutable : Bool) (c : Cursor) : Attempt (List Declaration) c := do
  let group ← names .parameterName c
  let colon ← group.next.expectMark .colon .parameterColon
  let type ← dataType colon.next
  return (group.andThen colon ()).andThen type
    (group.value.map fun (name, l) => .parameter name type.value mutable l.location)

def parameterGroup (c : Cursor) : Attempt (List Declaration) c :=
  match c.eat? (.keyword .var) with
  | some var => do
    let group ← typedParameters true var.next
    return var.andThen group group.value
  | none => typedParameters false c

/-- The semicolon or comma between two groups of parameters. -/
def groupSeparator? (c : Cursor) : Option (Reading Lexeme c) :=
  match c.eat? (.mark .semicolon) with
  | some r => some r
  | none => c.eat? (.mark .comma)

def parameters (c : Cursor) : Attempt (List Declaration) c := do
  let group ← parameterGroup c
  match groupSeparator? group.next with
  | none => return group
  | some separator => do
    let rest ← parameters separator.next
    return (group.andThen separator ()).andThen rest (group.value ++ rest.value)
termination_by c.ahead.length
decreasing_by exact Nat.lt_trans separator.shorter group.shorter

/-- One or more constants with commas between them. -/
def constants (c : Cursor) : Attempt (List Declaration) c := do
  let name ← c.expectName .constantName
  let equal ← name.next.expectMark .equal .constantEqual
  let value ← literal equal.next
  let first := (name.andThen equal ()).andThen value
    (Declaration.constant name.value.1 value.value name.value.2.location)
  match first.next.eat? (.mark .comma) with
  | none => return first.map fun d => [d]
  | some comma => do
    let rest ← constants comma.next
    return (first.andThen comma ()).andThen rest (first.value :: rest.value)
termination_by c.ahead.length
decreasing_by
  exact Nat.lt_trans comma.shorter
    (Nat.lt_trans value.shorter (Nat.lt_trans equal.shorter name.shorter))

/-- A line of constants, up to and with its end. The word `const` may open it. -/
def constantLine (c : Cursor) : Attempt (List Declaration) c :=
  match c.eat? (.keyword .const) with
  | some const => do
    let all ← constants const.next
    let lineEnd ← all.next.expectLineEnd
    return (const.andThen all ()).andThen lineEnd all.value
  | none => do
    let all ← constants c
    let lineEnd ← all.next.expectLineEnd
    return all.andThen lineEnd all.value

/-- Variables of one type, each checked against the range. An error is reported at its name. -/
def typedVariables (type : DataType) (range : Option Range) :
    List (String × Lexeme) → Except SyntaxError (List Declaration)
  | [] => .ok []
  | (name, l) :: rest =>
    match Declaration.ofType name type range l.location with
    | .error e => .error (.atLexeme l (.range e))
    | .ok d => do
      let ds ← typedVariables type range rest
      return d :: ds

/-- The optional limits behind a type, and the line end. -/
def rangeAndLineEnd (c : Cursor) : Attempt (Option Range) c :=
  match c.eat? (.keyword .from_) with
  | none => do
    let lineEnd ← c.expectLineEnd
    return lineEnd.map fun _ => none
  | some from_ => do
    let range ← limits from_.next
    let lineEnd ← range.next.expectLineEnd
    return (from_.andThen range ()).andThen lineEnd (some range.value)

/-- A line of variables, up to and with its end: one variable with its first value, or several of a type. -/
def variableLine (c : Cursor) : Attempt (List Declaration) c := do
  let first ← c.expectName .variableName
  match first.next.eat? (.mark .equal) with
  | some equal => do
    let value ← literal equal.next
    let lineEnd ← value.next.expectLineEnd
    return ((first.andThen equal ()).andThen value ()).andThen lineEnd
      [.ofValue first.value.1 value.value first.value.2.location]
  | none => do
    let all ← names .variableName c
    let colon ← all.next.expectMark .colon .variableColon
    let type ← dataType colon.next
    let range ← rangeAndLineEnd type.next
    let ds ← typedVariables type.value range.value all.value
    return ((all.andThen colon ()).andThen type ()).andThen range ds

inductive Section where
  | constants
  | variables_
  deriving DecidableEq, Repr

namespace Section

def line : Section → (c : Cursor) → Attempt (List Declaration) c
  | constants => constantLine
  | variables_ => variableLine

/-- Lines up to the dedent that ends them, which is read too. -/
def lines (kind : Section) (c : Cursor) : Attempt (List Declaration) c :=
  match c.eat? .dedent with
  | some dedent => .ok (dedent.map fun _ => [])
  | none =>
    if c.ahead.isEmpty then c.fail (.expected .declarationsEnd)
    else do
      let first ← kind.line c
      let rest ← kind.lines first.next
      return first.andThen rest (first.value ++ rest.value)
termination_by c.ahead.length
decreasing_by exact first.shorter

/-- A section, behind the word that opens it. -/
def read (kind : Section) (c : Cursor) : Attempt (List Declaration) c :=
  match c.eat? .newline with
  | none => kind.line c
  | some lineEnd => do
    let indent ← lineEnd.next.expect .indent .declarations
    let all ← kind.lines indent.next
    return (lineEnd.andThen indent ()).andThen all all.value

end Section

/-- The section that a cursor stands in front of. -/
def section? (c : Cursor) : Option (Reading Section c) :=
  match c.eat? (.keyword .constants) with
  | some r => some (r.map fun _ => .constants)
  | none => (c.eat? (.keyword .variables_)).map fun r => r.map fun _ => .variables_

end Offside.Parse
