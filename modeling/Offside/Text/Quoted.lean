import Offside.Text.Unprintable

/-!
# Quoted text

Messages and token listings show text between quotes. Inside the quotes a backslash, the quote itself and
the common controls have a short escape, and what does not print is spelled by its code point in braces.
-/

namespace Offside.Text

/-- The digits of a number in base sixteen, in lower case. -/
def hexDigits (n : Nat) : List Char :=
  Nat.toDigits 16 n

/-- One character between quotes of the given kind. -/
def quotedChar (quote c : Char) : List Char :=
  if c = quote then ['\\', c]
  else match c with
    | '\x00' => ['\\', '0']
    | '\t' => ['\\', 't']
    | '\r' => ['\\', 'r']
    | '\n' => ['\\', 'n']
    | '\\' => ['\\', '\\']
    | c =>
      if isUnprintable c then ['\\', 'u', '\x7b'] ++ hexDigits c.toNat ++ ['\x7d']
      else [c]

/-- A text between double quotes. -/
def quoted (text : String) : String :=
  "\"" ++ String.ofList (text.toList.flatMap (quotedChar '"')) ++ "\""

/-- A character between single quotes. -/
def quotedCharacter (c : Char) : String :=
  "'" ++ String.ofList (quotedChar '\'' c) ++ "'"

end Offside.Text
