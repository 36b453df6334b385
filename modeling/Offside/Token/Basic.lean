import Offside.Decimal.Notation
import Offside.Text.Quoted

/-!
# Tokens

The words, marks, literals and names of the language, with the layout tokens that indentation gives rise to.
A token has a spelling, from which it can be read again, a description for messages, and the name of its
kind for listings.
-/

namespace Offside

/-- The reserved words. Type names are among them. -/
inductive Keyword where
  | define | variables_ | constants | const | var
  | if_ | then_ | elsif | else_ | for_ | from_ | to_ | while_ | repeat_ | until_
  | array | of_ | true_ | false_
  | integer | real | string | character | boolean
  deriving DecidableEq, Repr

namespace Keyword

def all : List Keyword :=
  [define, variables_, constants, const, var, if_, then_, elsif, else_, for_, from_, to_, while_, repeat_,
   until_, array, of_, true_, false_, integer, real, string, character, boolean]

def spelling : Keyword → String
  | define => "define"
  | variables_ => "variables"
  | constants => "constants"
  | const => "const"
  | var => "var"
  | if_ => "if"
  | then_ => "then"
  | elsif => "elsif"
  | else_ => "else"
  | for_ => "for"
  | from_ => "from"
  | to_ => "to"
  | while_ => "while"
  | repeat_ => "repeat"
  | until_ => "until"
  | array => "array"
  | of_ => "of"
  | true_ => "true"
  | false_ => "false"
  | integer => "integer"
  | real => "real"
  | string => "string"
  | character => "character"
  | boolean => "boolean"

/-- The keyword with a spelling. The type `character` may be written `char`. -/
def ofSpelling? (word : String) : Option Keyword :=
  if word = "char" then some character else all.find? (·.spelling = word)

/-- The name of a keyword in listings. -/
def kind : Keyword → String
  | define => "Define"
  | variables_ => "Variables"
  | constants => "Constants"
  | const => "Const"
  | var => "Var"
  | if_ => "If"
  | then_ => "Then"
  | elsif => "Elsif"
  | else_ => "Else"
  | for_ => "For"
  | from_ => "From"
  | to_ => "To"
  | while_ => "While"
  | repeat_ => "Repeat"
  | until_ => "Until"
  | array => "Array"
  | of_ => "Of"
  | true_ => "True"
  | false_ => "False"
  | integer => "TyInteger"
  | real => "TyReal"
  | string => "TyString"
  | character => "TyCharacter"
  | boolean => "TyBoolean"

end Keyword

/-- The operators and the punctuation. -/
inductive Mark where
  | assign | colon | equalEqual | equal | notEqual | lessEqual | greaterEqual | less | greater
  | plus | minus | star | slash | percent
  | openParen | closeParen | openBracket | closeBracket | comma | semicolon
  deriving DecidableEq, Repr

namespace Mark

def spelling : Mark → String
  | assign => ":="
  | colon => ":"
  | equalEqual => "=="
  | equal => "="
  | notEqual => "<>"
  | lessEqual => "<="
  | greaterEqual => ">="
  | less => "<"
  | greater => ">"
  | plus => "+"
  | minus => "-"
  | star => "*"
  | slash => "/"
  | percent => "%"
  | openParen => "("
  | closeParen => ")"
  | openBracket => "["
  | closeBracket => "]"
  | comma => ","
  | semicolon => ";"

/-- The name of a mark in listings. -/
def kind : Mark → String
  | assign => "ColonEq"
  | colon => "Colon"
  | equalEqual => "EqEq"
  | equal => "Eq"
  | notEqual => "NotEq"
  | lessEqual => "LtEq"
  | greaterEqual => "GtEq"
  | less => "Lt"
  | greater => "Gt"
  | plus => "Plus"
  | minus => "Minus"
  | star => "Star"
  | slash => "Slash"
  | percent => "Percent"
  | openParen => "LParen"
  | closeParen => "RParen"
  | openBracket => "LBracket"
  | closeBracket => "RBracket"
  | comma => "Comma"
  | semicolon => "Semi"

end Mark

/-- What an opening delimiter without its partner was meant to start. -/
inductive Unclosed where
  | string | character | comment
  deriving DecidableEq, Repr

inductive Token where
  | keyword (word : Keyword)
  | mark (sign : Mark)
  /-- The magnitude of an integer literal; a minus sign is a token of its own. -/
  | integer (magnitude : Nat)
  | real (value : Float32)
  | string (value : String)
  | character (value : Char)
  | name (name : String)
  | newline
  | indent
  | dedent
  | unclosed (what : Unclosed)
  deriving DecidableEq, Repr

namespace Token

/-- One character of a literal between quotes of the given kind, spelled so that it reads back. -/
def escapedChar (quote c : Char) : List Char :=
  if c = '\\' then ['\\', '\\']
  else if c = '\t' then ['\\', 't']
  else if c = quote then ['\\', quote]
  else [c]

/-- A token as it may stand in a source text. The layout tokens have no text of their own. -/
def spelling : Token → String
  | keyword word => word.spelling
  | mark m => m.spelling
  | integer n => toString n
  | real x => Decimal.spell x
  | string s => "\"" ++ String.ofList (s.toList.flatMap (escapedChar '"')) ++ "\""
  | character c => "'" ++ String.ofList (escapedChar '\'' c) ++ "'"
  | name s => s
  | newline => "\n"
  | indent => ""
  | dedent => ""
  | unclosed .string => "\"<unterminated>"
  | unclosed .character => "'<unterminated>"
  | unclosed .comment => "\x7b<unterminated>"

/-- A token as messages name it. -/
def description : Token → String
  | integer _ => "integer literal"
  | real _ => "real literal"
  | string _ => "string literal"
  | character _ => "character literal"
  | name s => "identifier `" ++ s ++ "`"
  | newline => "end of line"
  | indent => "indentation"
  | dedent => "end of block"
  | t => "`" ++ t.spelling ++ "`"

def isKeyword : Token → Bool
  | keyword _ => true
  | _ => false

/-- Listings write reals with the fewest digits, positionally from `0.0001` up to sixteen places before the
point. -/
def listedReal : Decimal.Notation where
  plain := some (-4, 16)
  pointZero := true
  exponentPlus := false
  tie := .upward

/-- A token in listings: the name of its kind, and its value in parentheses. -/
def kind : Token → String
  | keyword word => word.kind
  | mark m => m.kind
  | integer n => "IntLit(" ++ toString n ++ ")"
  | real x => "RealLit(" ++ listedReal.write x ++ ")"
  | string s => "StringLit(" ++ Text.quoted s ++ ")"
  | character c => "CharLit(" ++ Text.quotedCharacter c ++ ")"
  | name s => "Ident(" ++ Text.quoted s ++ ")"
  | newline => "Newline"
  | indent => "Indent"
  | dedent => "Dedent"
  | unclosed .string => "UnterminatedString"
  | unclosed .character => "UnterminatedChar"
  | unclosed .comment => "UnterminatedComment"

/-- Whether a token belongs to the text of a line, and not to its layout. -/
def isContent : Token → Bool
  | newline | indent | dedent => false
  | _ => true

end Token

end Offside
