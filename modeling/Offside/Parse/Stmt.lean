import Offside.Parse.Call

/-!
# Reading statements

A line that starts with the name of a function is a call, and one that starts with any other name is an
assignment. The names of functions are collected from the whole list of lexemes beforehand, so a call may
stand in front of the definition.
-/

namespace Offside.Parse

/-- The names that directly follow the word `define`. -/
def definedNames : List Lexeme → List String
  | a :: b :: ls =>
    match a.token, b.token with
    | .keyword .define, .name name => name :: definedNames (b :: ls)
    | _, _ => definedNames (b :: ls)
  | _ => []

/-- Whether a name can be called, given the names that are defined. -/
def isCallable (defined : List String) (name : String) : Bool :=
  (Builtin.ofName? name).isSome || defined.contains name

/-- The place of a statement, from its first lexeme to the last one read. -/
def placeOf (first : Lexeme) (next : Cursor) : Location :=
  ⟨first.span.merge next.last, first.line⟩

/-- The place written to by an assignment that starts with a name. -/
def target (name : String) (c : Cursor) : Except SyntaxError (Target × Option (Reading Unit c)) :=
  match c.eat? (.mark .openBracket) with
  | none => .ok (.named name, none)
  | some bracket => do
    let index ← sum bracket.next
    let close ← index.next.expectMark .closeBracket .closeIndex
    return (.element name index.value, some ((bracket.andThen index ()).andThen close ()))

/-- The value of an assignment, from its mark to the end of the line. -/
def assignedValue (c : Cursor) : Attempt Expr c := do
  let mark ← c.expectMark .assign .assignMark
  let value ← comparison mark.next
  let lineEnd ← value.next.expectLineEnd
  return (mark.andThen value ()).andThen lineEnd value.value

/-- What follows the name at the start of an assignment. -/
def assignment (name : String) (c : Cursor) : Attempt (Target × Expr) c := do
  match ← target name c with
  | (place, none) => do
    let value ← assignedValue c
    return value.map fun e => (place, e)
  | (place, some index) => do
    let value ← assignedValue index.next
    return index.andThen value (place, value.value)

/-- The counter and the bounds of a counting loop. -/
def countHead (c : Cursor) : Attempt (String × Expr × Expr) c := do
  let counter ← c.expectName .loopVariable
  let from_ ← counter.next.expectWord .from_ .loopFrom
  let first ← sum from_.next
  let to_ ← first.next.expectWord .to_ .loopTo
  let last ← sum to_.next
  return (((counter.andThen from_ ()).andThen first ()).andThen to_ ()).andThen last
    (counter.value.1, first.value, last.value)

/-- The condition of a branch and the word behind it. -/
def branchHead (c : Cursor) : Attempt Expr c := do
  let condition ← comparison c
  let then_ ← condition.next.expectWord .then_ .thenWord
  return condition.andThen then_ condition.value

/-- The condition of a loop that asks it last, with the word in front of it. -/
def untilHead (c : Cursor) : Attempt Expr c := do
  let until_ ← c.expectWord .until_ .untilWord
  let condition ← comparison until_.next
  return until_.andThen condition condition.value

/-- The line end and the indent that open a block. -/
def openBlock (c : Cursor) : Attempt Unit c := do
  let lineEnd ← c.expectLineEnd
  let indent ← lineEnd.next.expect .indent .block
  return lineEnd.andThen indent ()

mutual

def statement (defined : List String) (c : Cursor) : Attempt Stmt c :=
  match c.next? with
  | none => c.fail (.expected .statement)
  | some first =>
    match first.value.token with
    | .keyword .if_ => do
      let links ← chain defined first.next
      return first.andThen links (.branch (placeOf first.value links.next) links.value)
    | .keyword .for_ => do
      let head ← countHead first.next
      let body ← block defined head.next
      return (first.andThen head ()).andThen body
        (.count (placeOf first.value body.next) head.value.1 head.value.2.1 head.value.2.2 body.value)
    | .keyword .while_ => do
      let condition ← comparison first.next
      let body ← block defined condition.next
      return (first.andThen condition ()).andThen body
        (.loopWhile (placeOf first.value body.next) condition.value body.value)
    | .keyword .repeat_ => do
      let condition ← untilHead first.next
      let body ← block defined condition.next
      return (first.andThen condition ()).andThen body
        (.loopUntil (placeOf first.value body.next) condition.value body.value)
    | .name name =>
      if isCallable defined name then do
        let args ← callArguments first.next
        return first.andThen args (.call (placeOf first.value args.next) name args.value)
      else do
        let parts ← assignment name first.next
        return first.andThen parts (.assign (placeOf first.value parts.next) parts.value.1 parts.value.2)
    | _ => c.fail (.expected .statement)
termination_by 2 * c.ahead.length
decreasing_by
  · have := first.shorter
    omega
  · have := Nat.lt_trans head.shorter first.shorter
    omega
  · have := Nat.lt_trans condition.shorter first.shorter
    omega
  · have := Nat.lt_trans condition.shorter first.shorter
    omega

/-- The links of a branching statement, behind the word that opens the first of them. -/
def chain (defined : List String) (c : Cursor) : Attempt Chain c := do
  let head ← branchHead c
  let body ← block defined head.next
  match body.next.eat? (.keyword .elsif) with
  | some elsif => do
    let next ← chain defined elsif.next
    return ((head.andThen body ()).andThen elsif ()).andThen next
      (.link (some head.value) body.value next.value)
  | none =>
    match body.next.eat? (.keyword .else_) with
    | some else_ => do
      let last ← block defined else_.next
      return ((head.andThen body ()).andThen else_ ()).andThen last
        (.link (some head.value) body.value (.last none last.value))
    | none => return head.andThen body (.last (some head.value) body.value)
termination_by 2 * c.ahead.length
decreasing_by
  · have := head.shorter
    omega
  · have := Nat.lt_trans elsif.shorter (Nat.lt_trans body.shorter head.shorter)
    omega
  · have := Nat.lt_trans else_.shorter (Nat.lt_trans body.shorter head.shorter)
    omega

/-- A block on the lines below, one level deeper. -/
def block (defined : List String) (c : Cursor) : Attempt (List Stmt) c := do
  let opening ← openBlock c
  let body ← statements defined .blockEnd opening.next
  return opening.andThen body body.value
termination_by 2 * c.ahead.length
decreasing_by
  have := opening.shorter
  omega

/-- Statements up to the dedent that ends them, which is read too. -/
def statements (defined : List String) (ending : Expected) (c : Cursor) : Attempt (List Stmt) c :=
  match c.eat? .dedent with
  | some dedent => .ok (dedent.map fun _ => [])
  | none =>
    if c.ahead.isEmpty then c.fail (.expected ending)
    else do
      let first ← statement defined c
      let rest ← statements defined ending first.next
      return first.andThen rest (first.value :: rest.value)
termination_by 2 * c.ahead.length + 1
decreasing_by
  · omega
  · have := first.shorter
    omega

end

end Offside.Parse
