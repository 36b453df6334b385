import Offside.Location
import Offside.Tree.Expr

/-!
# Statements

A statement has its place in the source. A branching statement is a chain of links, each with a condition or
without one; an `else` is a link without a condition.
-/

namespace Offside

/-- An argument of a call; `byReference` records that it is marked with `var`. -/
structure Argument where
  value : Expr
  byReference : Bool
  deriving DecidableEq, Repr

mutual

inductive Stmt where
  | assign (place : Location) (target : Target) (value : Expr)
  | branch (place : Location) (chain : Chain)
  /-- A loop from the first bound up to the second, which is not reached. -/
  | count (place : Location) (counter : String) (first last : Expr) (body : List Stmt)
  | loopWhile (place : Location) (condition : Expr) (body : List Stmt)
  /-- A loop whose body runs before its condition is asked. -/
  | loopUntil (place : Location) (condition : Expr) (body : List Stmt)
  | call (place : Location) (function : String) (arguments : List Argument)

inductive Chain where
  | last (condition : Option Expr) (body : List Stmt)
  | link (condition : Option Expr) (body : List Stmt) (next : Chain)

end

namespace Argument

def text (a : Argument) : String :=
  (if a.byReference then "var " else "") ++ a.value.text

end Argument

namespace Chain

def condition : Chain → Option Expr
  | last condition _ => condition
  | link condition _ _ => condition

def body : Chain → List Stmt
  | last _ body => body
  | link _ body _ => body

def next? : Chain → Option Chain
  | last _ _ => none
  | link _ _ next => some next

/-- The links in order: condition, body, and whether another link follows. -/
def links : Chain → List (Option Expr × List Stmt × Bool)
  | last condition body => [(condition, body, false)]
  | link condition body next => (condition, body, true) :: next.links

end Chain

namespace Stmt

def place : Stmt → Location
  | assign place _ _ => place
  | branch place _ => place
  | count place _ _ _ _ => place
  | loopWhile place _ _ => place
  | loopUntil place _ _ => place
  | call place _ _ => place

def line (s : Stmt) : Nat :=
  s.place.line

/-- A row of text at a nesting depth, four spaces a level. -/
def row (depth : Nat) (text : String) : String :=
  String.ofList (List.replicate (4 * depth) ' ') ++ text

/-- The row that opens a link of a chain. -/
def linkRow (first : Bool) : Option Expr → String
  | some condition => (if first then "if " else "elsif ") ++ condition.text ++ " then"
  | none => "else"

def callRow (function : String) (arguments : List Argument) : String :=
  match arguments with
  | [] => function
  | _ => function ++ " " ++ ", ".intercalate (arguments.map Argument.text)

mutual

/-- The rows of a statement at a nesting depth. -/
def rows (depth : Nat) : Stmt → List String
  | assign _ target value => [row depth (target.text ++ " := " ++ value.text)]
  | branch _ chain => chainRows depth true chain
  | count _ counter first last body =>
    row depth ("for " ++ counter ++ " from " ++ first.text ++ " to " ++ last.text) ::
      blockRows (depth + 1) body
  | loopWhile _ condition body => row depth ("while " ++ condition.text) :: blockRows (depth + 1) body
  | loopUntil _ condition body =>
    row depth ("repeat until " ++ condition.text) :: blockRows (depth + 1) body
  | call _ function arguments => [row depth (callRow function arguments)]

def chainRows (depth : Nat) (first : Bool) : Chain → List String
  | .last condition body => row depth (linkRow first condition) :: blockRows (depth + 1) body
  | .link condition body next =>
    row depth (linkRow first condition) :: blockRows (depth + 1) body ++ chainRows depth false next

def blockRows (depth : Nat) : List Stmt → List String
  | [] => []
  | s :: ss => rows depth s ++ blockRows depth ss

end

/-- Rows as a text, each with its line end. -/
def joinRows (rows : List String) : String :=
  String.join (rows.map (· ++ "\n"))

/-- A statement by itself, without the line ends behind it. -/
def text (s : Stmt) : String :=
  String.ofList (((joinRows (s.rows 0)).toList.reverse.dropWhile (· = '\n')).reverse)

end Stmt

end Offside
