import Offside.Lexeme.Basic

/-!
# Lexemes written back as text

The tokens of a line are set apart by single spaces behind one tab per level. Empty lines and comments that
hold only line feeds stand for what the source skipped, so that every token is on its line again.
-/

namespace Offside

/-- Where the writing has come to. -/
structure Pen where
  depth : Nat
  atLineStart : Bool
  line : Nat
  deriving DecidableEq, Repr

namespace Pen

def start : Pen :=
  ⟨0, true, 1⟩

def repeated (n : Nat) (c : Char) : String :=
  String.ofList (List.replicate n c)

/-- A comment that leads from the current line down to a later one; nothing if the line is reached. -/
def padding (pen : Pen) (line : Nat) : String :=
  if line ≤ pen.line then "" else " \x7b" ++ repeated (line - pen.line) '\n' ++ "\x7d"

/-- The text of a lexeme, or the spelling of its token if the text is missing. -/
def textOf (l : Lexeme) : String :=
  if l.text = "" then l.token.spelling else l.text

/-- The text in front of a token with content. -/
def lead (pen : Pen) (line : Nat) : String :=
  if pen.atLineStart then repeated (line - pen.line) '\n' ++ repeated pen.depth '\t'
  else pen.padding line ++ " "

/-- What one lexeme adds, and the state behind it. -/
def write (pen : Pen) (l : Lexeme) : String × Pen :=
  match l.token with
  | .indent => ("", { pen with depth := pen.depth + 1 })
  | .dedent => ("", { pen with depth := pen.depth - 1 })
  | .newline =>
    (pen.padding l.line ++ "\n", { pen with atLineStart := true, line := max pen.line l.line + 1 })
  | _ =>
    let text := textOf l
    (pen.lead l.line ++ text,
      { pen with atLineStart := false, line := max pen.line l.line + lineFeeds text.toList })

def writeAll (pen : Pen) : List Lexeme → List String
  | [] => []
  | l :: ls => (pen.write l).1 :: writeAll (pen.write l).2 ls

end Pen

/-- The source text rebuilt from its lexemes. -/
def rebuild (ls : List Lexeme) : String :=
  String.join (Pen.start.writeAll ls)

/-- The lexemes without their texts, which are then spelled from the tokens. -/
def withoutText (ls : List Lexeme) : List Lexeme :=
  ls.map fun l => { l with text := "" }

end Offside
