import Offside.Token.Scan

/-!
# Lexemes

A lexeme is a token with the text it was read from and its place. The layout pass turns the pieces of a
source text into lexemes: gaps vanish, a line without content vanishes with its line end, and a change of
indentation between two lines becomes indents or dedents in front of the later one.
-/

namespace Offside

/-- A token with its text and its place. Tokens that the layout adds have an empty text. -/
structure Lexeme where
  token : Token
  text : String
  location : Location
  deriving DecidableEq, Repr

namespace Lexeme

def span (l : Lexeme) : Span :=
  l.location.span

def line (l : Lexeme) : Nat :=
  l.location.line

/-- A token that stands for no text. -/
def synthetic (token : Token) (p : Position) : Lexeme :=
  ⟨token, "", ⟨.point p.offset, p.line⟩⟩

end Lexeme

/-- Why a source text has no lexemes. -/
inductive LexCause where
  | unclosed (what : Unclosed)
  /-- An integer literal above the limit. -/
  | hugeInteger (digits : String)
  /-- A character that starts no token, or a character literal that holds no single character. -/
  | unexpected (text : String)
  /-- Leading blanks that amount to no whole number of levels. -/
  | unevenIndent (columns : Nat)
  deriving DecidableEq, Repr

def indentWidth : Nat := 4

namespace LexCause

def message : LexCause → String
  | unclosed .string => "unterminated string literal"
  | unclosed .character => "malformed character literal"
  | unclosed .comment => "unterminated comment"
  | hugeInteger digits => "integer literal `" ++ digits ++ "` does not fit in 32 bits"
  | unexpected text => "unexpected character: " ++ Text.quoted text
  | unevenIndent columns =>
    "indentation of " ++ toString columns ++ " columns is not a multiple of " ++ toString indentWidth

/-- The cause of a malformed piece. -/
def ofMalformed (text : List Char) : LexCause :=
  if text ≠ [] ∧ text.all Char.isDigit then hugeInteger (.ofList text) else unexpected (.ofList text)

end LexCause

structure LexError where
  cause : LexCause
  location : Location
  deriving DecidableEq, Repr

def LexError.text (e : LexError) : String :=
  "Lex error on line " ++ toString e.location.line ++ ": " ++ e.cause.message

/-- The columns of leading blanks: a tab fills a whole level. -/
def columns : List Char → Nat
  | [] => 0
  | c :: cs => (if c = '\t' then indentWidth else 1) + columns cs

/-- The state of the layout pass in front of a piece. -/
structure Layout where
  position : Position
  /-- The open levels. -/
  depth : Nat
  /-- The current line has content. -/
  lineOpen : Bool
  /-- The place behind the last line end. -/
  lineStart : Position
  /-- The text since then, as long as the line has no content. -/
  margin : List Char
  /-- The line of the last lexeme. -/
  lastLine : Nat
  deriving DecidableEq, Repr

namespace Layout

def start : Layout :=
  ⟨.start, 0, false, .start, [], 1⟩

/-- The blanks that open the margin; a comment ends them. -/
def leading (st : Layout) : List Char :=
  st.margin.takeWhile fun c => c = ' ' || c = '\t'

/-- The levels at which a line with this margin stands. -/
def level (st : Layout) : Except LexError Nat :=
  let width := columns st.leading
  if width % indentWidth = 0 then .ok (width / indentWidth)
  else .error ⟨.unevenIndent width, st.lineStart.covering st.leading⟩

/-- The tokens that lead from one depth to another. -/
def change (place : Position) (depth level : Nat) : List Lexeme :=
  List.replicate (level - depth) (.synthetic .indent place) ++
    List.replicate (depth - level) (.synthetic .dedent place)

/-- The state behind a piece that leaves the line as it is. -/
def pass (st : Layout) (text : List Char) : Layout :=
  { st with
    position := st.position.advance text
    margin := if st.lineOpen then st.margin else st.margin ++ text }

/-- A line end. It is kept only behind content. -/
def endLine (st : Layout) (text : List Char) : List Lexeme × Layout :=
  let next := st.position.advance text
  let fresh : Layout :=
    { st with position := next, lineOpen := false, lineStart := next, margin := [] }
  if st.lineOpen then
    ([⟨.newline, .ofList text, st.position.covering text⟩], { fresh with lastLine := st.position.line })
  else ([], fresh)

/-- A token with text. The first one of a line settles the depth. -/
def content (st : Layout) (token : Token) (text : List Char) : Except LexError (List Lexeme × Layout) :=
  let lexeme : Lexeme := ⟨token, .ofList text, st.position.covering text⟩
  let next : Layout :=
    { st with
      position := st.position.advance text
      lineOpen := true
      lastLine := st.position.line }
  if st.lineOpen then .ok ([lexeme], next)
  else do
    let level ← st.level
    return (change st.position st.depth level ++ [lexeme], { next with depth := level })

/-- One piece: the lexemes it gives rise to, and the state behind it. -/
def step (st : Layout) (p : Piece) : Except LexError (List Lexeme × Layout) :=
  match p.item with
  | .gap => .ok ([], st.pass p.text)
  | .malformed => .error ⟨.ofMalformed p.text, st.position.covering p.text⟩
  | .token (.unclosed what) => .error ⟨.unclosed what, st.position.spanning p.reach⟩
  | .token .newline => .ok (st.endLine p.text)
  | .token token => st.content token p.text

/-- The tokens that close an open line and the open levels. -/
def finish (st : Layout) : List Lexeme :=
  let place : Position := ⟨st.position.offset, st.lastLine⟩
  (if st.lineOpen then [.synthetic .newline place] else []) ++
    List.replicate st.depth (.synthetic .dedent place)

def run (st : Layout) : List Piece → Except LexError (List Lexeme)
  | [] => .ok st.finish
  | p :: ps => do
    let (lexemes, next) ← st.step p
    let rest ← next.run ps
    return lexemes ++ rest

end Layout

/-- The lexemes of a source text. -/
def lexemes (source : String) : Except LexError (List Lexeme) :=
  Layout.start.run (pieces source.toList)

end Offside
