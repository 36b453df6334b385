import Offside.Tree.Builtin
import Offside.Tree.Declaration
import Offside.Tree.Stmt

/-!
# Programs

A program is a table of functions in the order of their definition. Every name stands for at most one
function, and the names of the built-in functions are taken.
-/

namespace Offside

inductive Body where
  | user (statements : List Stmt)
  | builtin (builtin : Builtin)

structure Function where
  name : String
  parameters : List Declaration
  /-- Constants and variables in the order of the source. -/
  locals : List Declaration
  body : Body
  place : Location

namespace Function

def ofBuiltin (b : Builtin) : Function :=
  ⟨b.name, [], [], .builtin b, ⟨⟨0, 0⟩, 0⟩⟩

/-- The number of arguments, unless any number will do. -/
def arity (f : Function) : Option Nat :=
  match f.body with
  | .builtin b => b.arity
  | .user _ => some f.parameters.length

/-- Whether the argument at an index is written back to the caller. -/
def isOutput (f : Function) (index : Nat) : Bool :=
  match f.body with
  | .builtin b => b.isOutput index
  | .user _ => (f.parameters[index]?.map Declaration.mutable).getD false

def constants (f : Function) : List Declaration :=
  f.locals.filter (!·.mutable)

def localVariables (f : Function) : List Declaration :=
  f.locals.filter (·.mutable)

/-- The rows of a function that a program defines. -/
def rows (f : Function) (statements : List Stmt) : List String :=
  ["define " ++ f.name ++ "(" ++ "; ".intercalate (f.parameters.map Declaration.signature) ++ ")"] ++
    f.locals.map (fun d => Stmt.row 1 ((if d.mutable then "variables " else "constants ") ++ d.text)) ++
    Stmt.blockRows 1 statements

def text (f : Function) : String :=
  match f.body with
  | .builtin b =>
    let slots := match b.arity with
      | none => ".."
      | some n => ", ".intercalate (List.replicate n "_")
    "define " ++ b.name ++ "(" ++ slots ++ ") \x7bbuilt-in\x7d\n"
  | .user statements => Stmt.joinRows (f.rows statements)

end Function

/-- The functions of a program in the order of their definition. -/
structure Program where
  functions : List Function

/-- Why a function cannot be added to a program. -/
inductive DefineError where
  | builtin (name : String)
  | duplicate (name : String)
  deriving DecidableEq, Repr

def DefineError.message : DefineError → String
  | builtin name => "`" ++ name ++ "` is a built-in function and cannot be redefined"
  | duplicate name => "function `" ++ name ++ "` is defined more than once"

namespace Program

def empty : Program :=
  ⟨[]⟩

/-- The function that the program defines under a name. -/
def find? (p : Program) (name : String) : Option Function :=
  p.functions.find? (·.name = name)

/-- Adds a function at the end. -/
def define (p : Program) (f : Function) : Except DefineError Program :=
  if (Builtin.ofName? f.name).isSome then .error (.builtin f.name)
  else if (p.find? f.name).isSome then .error (.duplicate f.name)
  else .ok ⟨p.functions ++ [f]⟩

/-- The function that a name stands for, built-in functions included. -/
def function? (p : Program) (name : String) : Option Function :=
  match p.find? name with
  | some f => some f
  | none => (Builtin.ofName? name).map Function.ofBuiltin

/-- The functions with an empty line between them. -/
def text (p : Program) : String :=
  "\n".intercalate (p.functions.map Function.text)

end Program

end Offside
