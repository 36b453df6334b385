import Offside.Parse.Declaration
import Offside.Parse.Stmt

/-!
# Reading programs
-/

namespace Offside.Parse

/-- Adds the names of declarations to those already taken in a function. -/
def reserve (taken : List String) : List Declaration → Except SyntaxError (List String)
  | [] => .ok taken
  | d :: ds =>
    if taken.contains d.name then
      .error ⟨.declaredTwice d.name, (Token.name d.name).description, d.place⟩
    else reserve (d.name :: taken) ds

/-- The sections and the statements of a function, up to and with the dedent that ends it. -/
def functionBody (defined taken : List String) (c : Cursor) :
    Attempt (List Declaration × List Stmt) c :=
  match section? c with
  | some word => do
    let declared ← word.value.read word.next
    let taken ← reserve taken declared.value
    let rest ← functionBody defined taken declared.next
    return (word.andThen declared ()).andThen rest (declared.value ++ rest.value.1, rest.value.2)
  | none => do
    let body ← statements defined .functionEnd c
    return body.map fun ss => ([], ss)
termination_by c.ahead.length
decreasing_by exact Nat.lt_trans declared.shorter word.shorter

/-- The parameters of a function between their parentheses. -/
def parameterList (c : Cursor) : Attempt (List Declaration) c := do
  let opening ← c.expectMark .openParen .openParameters
  match opening.next.eat? (.mark .closeParen) with
  | some close => return opening.andThen close []
  | none => do
    let all ← parameters opening.next
    let close ← all.next.expectMark .closeParen .closeParameters
    return (opening.andThen all ()).andThen close all.value

def function (defined : List String) (c : Cursor) : Attempt Function c := do
  let define ← c.expectWord .define .define
  let name ← define.next.expectName .functionName
  let declared ← parameterList name.next
  let lineEnd ← declared.next.expectLineEnd
  let indent ← lineEnd.next.expect .indent .functionBody
  let taken ← reserve [] declared.value
  let body ← functionBody defined taken indent.next
  return ((((define.andThen name ()).andThen declared ()).andThen lineEnd ()).andThen indent ()).andThen body
    ⟨name.value.1, declared.value, body.value.1, .user body.value.2,
      ⟨define.value.span.merge body.next.last, define.value.line⟩⟩

/-- Functions up to the end of the input, added to those already read. An error of the table is reported at
the word `define`. -/
def functions (defined : List String) (program : Program) (c : Cursor) : Except SyntaxError Program :=
  if c.ahead.isEmpty then .ok program
  else do
    let f ← function defined c
    match program.define f.value with
    | .error e => c.fail (.definition e)
    | .ok program => functions defined program f.next
termination_by c.ahead.length
decreasing_by exact f.shorter

end Offside.Parse

namespace Offside

/-- The program that a list of lexemes stands for. -/
def Program.ofLexemes (ls : List Lexeme) : Except SyntaxError Program :=
  Parse.functions (Parse.definedNames ls) .empty (.ofLexemes ls)

end Offside
