import Offside.Lexeme.Basic
import Offside.Tree.Program

/-!
# Syntax errors

An error names the token at which reading stopped, or the end of the input, and says what was wrong there.
-/

namespace Offside

/-- What the grammar asks for at a place. -/
inductive Expected where
  | define | functionName | openParameters | closeParameters | functionBody | functionEnd
  | parameterName | parameterColon
  | declarations | declarationsEnd | constantName | constantEqual | variableName | variableColon
  | ofArray | typeName | rangeTo | literal
  | lineEnd | statement | block | blockEnd
  | thenWord | loopVariable | loopFrom | loopTo | untilWord
  | argument | closeArguments | assignMark
  | expression | closeExpression | closeIndex
  deriving DecidableEq, Repr

def Expected.text : Expected → String
  | define => "`define` to start a function"
  | functionName => "function name"
  | openParameters => "`(` after the function name"
  | closeParameters => "`)` to close the parameter list"
  | functionBody => "an indented function body"
  | functionEnd => "end of the function body"
  | parameterName => "parameter name"
  | parameterColon => "`:` before the parameter type"
  | declarations => "indented declarations"
  | declarationsEnd => "end of the declaration block"
  | constantName => "constant name"
  | constantEqual => "`=` after the constant name"
  | variableName => "variable name"
  | variableColon => "`:` before the variable type"
  | ofArray => "`of` after `array`"
  | typeName => "a type name"
  | rangeTo => "`to` in the range"
  | literal => "a literal value"
  | lineEnd => "end of line"
  | statement => "a statement"
  | block => "an indented block"
  | blockEnd => "end of block"
  | thenWord => "`then` after the condition"
  | loopVariable => "loop variable after `for`"
  | loopFrom => "`from` after the loop variable"
  | loopTo => "`to` in the loop bounds"
  | untilWord => "`until` after `repeat`"
  | argument => "an argument"
  | closeArguments => "`)` to close the argument list"
  | assignMark => "`:=` in assignment"
  | expression => "an expression"
  | closeExpression => "`)` to close the expression"
  | closeIndex => "`]` after the index"

inductive SyntaxCause where
  | expected (what : Expected)
  /-- A name was expected where a keyword stands. -/
  | reserved (what : Expected) (token : Token)
  | declaredTwice (name : String)
  | definition (error : DefineError)
  | range (error : RangeError)
  | nestedArray
  /-- An argument marked with `var` that names no place. -/
  | notAPlace (argument : Expr)
  /-- The magnitude of the least integer without its minus sign. -/
  | bareMagnitude
  | negatedText
  deriving DecidableEq, Repr

def SyntaxCause.message : SyntaxCause → String
  | expected what => "expected " ++ what.text
  | reserved what token => "expected " ++ what.text ++ ", but `" ++ token.spelling ++ "` is a reserved word"
  | declaredTwice name => "`" ++ name ++ "` is declared more than once"
  | definition error => error.message
  | range error => error.message
  | nestedArray => "arrays of arrays are not supported"
  | notAPlace argument => "`var` argument must be a variable, found `" ++ argument.text ++ "`"
  | bareMagnitude => "integer literal " ++ toString magnitudeLimit ++ " only fits after a minus sign"
  | negatedText => "only numbers can be negated"

structure SyntaxError where
  cause : SyntaxCause
  /-- The token as messages name it. -/
  token : String
  location : Location
  deriving DecidableEq, Repr

/-- An error at a lexeme. -/
def SyntaxError.atLexeme (l : Lexeme) (cause : SyntaxCause) : SyntaxError :=
  ⟨cause, l.token.description, l.location⟩

def SyntaxError.text (e : SyntaxError) : String :=
  "Syntax error on line " ++ toString e.location.line ++ " at " ++ e.token ++ ": " ++ e.cause.message

end Offside
