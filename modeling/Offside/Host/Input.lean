import Offside.Text.Blank
import Offside.Fault

/-!
# Input

A program reads words. Words are taken from the input a line at a time; a line whose bytes are no text fails
once, when a word is asked of it, and is then behind.
-/

namespace Offside

/-- A line of input. -/
inductive InputLine where
  | text (text : String)
  | garbled
  deriving DecidableEq, Repr

/-- What is left of the input: words of the line begun, and lines not begun. -/
structure Input where
  pending : List String
  lines : List InputLine
  deriving DecidableEq, Repr

namespace Input

def ofText (text : String) : Input :=
  ⟨[], (Text.split (· = '\n') text.toList).map fun line => .text (String.ofList line)⟩

/-- The line that a stretch of bytes without a line feed stands for. -/
def lineOfBytes (bytes : List UInt8) : InputLine :=
  match String.fromUTF8? ⟨⟨bytes⟩⟩ with
  | some text => .text text
  | none => .garbled

def ofBytes (bytes : List UInt8) : Input :=
  ⟨[], (Text.split (· = 10) bytes).map lineOfBytes⟩

/-- The first word of some lines. -/
def nextOfLines : List InputLine → Except Cause String × Input
  | [] => (.error .endOfInput, ⟨[], []⟩)
  | .garbled :: rest => (.error .garbledInput, ⟨[], rest⟩)
  | .text line :: rest =>
    match Text.words line with
    | [] => nextOfLines rest
    | word :: more => (.ok word, ⟨more, rest⟩)

/-- The next word, and the input behind it. -/
def next (input : Input) : Except Cause String × Input :=
  match input with
  | ⟨word :: more, lines⟩ => (.ok word, ⟨more, lines⟩)
  | ⟨[], lines⟩ => nextOfLines lines

end Input

end Offside
