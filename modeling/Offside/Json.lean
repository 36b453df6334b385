/-!
# JSON text

Values of the JSON format, written on one line or with an indentation of two spaces a level.
-/

namespace Offside

inductive Json where
  | null
  | boolean (value : Bool)
  /-- A number by its text. -/
  | number (text : String)
  | string (value : String)
  | list (items : List Json)
  /-- Fields in the order in which they are written. -/
  | object (fields : List (String × Json))

namespace Json

def ofNat (n : Nat) : Json :=
  number (toString n)

def ofInt (n : Int) : Json :=
  number (toString n)

/-- An object with one field. -/
def tagged (tag : String) (value : Json) : Json :=
  object [(tag, value)]

/-- A character inside a quoted string: quotes, backslashes and controls are escaped. -/
def escapedChar (c : Char) : List Char :=
  match c with
  | '"' => ['\\', '"']
  | '\\' => ['\\', '\\']
  | '\x08' => ['\\', 'b']
  | '\x0c' => ['\\', 'f']
  | '\n' => ['\\', 'n']
  | '\r' => ['\\', 'r']
  | '\t' => ['\\', 't']
  | c =>
    if c.toNat < 0x20 then
      ['\\', 'u', '0', '0'] ++ [Nat.digitChar (c.toNat / 16), Nat.digitChar (c.toNat % 16)]
    else [c]

def quote (s : String) : String :=
  "\"" ++ String.ofList (s.toList.flatMap escapedChar) ++ "\""

mutual

/-- The text on one line, without blanks. -/
def compact : Json → String
  | null => "null"
  | boolean b => toString b
  | number text => text
  | string s => quote s
  | list items => "[" ++ ",".intercalate (compactItems items) ++ "]"
  | object fields => "\x7b" ++ ",".intercalate (compactFields fields) ++ "\x7d"

def compactItems : List Json → List String
  | [] => []
  | j :: js => compact j :: compactItems js

def compactFields : List (String × Json) → List String
  | [] => []
  | (key, j) :: rest => (quote key ++ ":" ++ compact j) :: compactFields rest

end

/-- A line break and the indentation of a level. -/
def lineAt (level : Nat) : String :=
  "\n" ++ String.ofList (List.replicate (2 * level) ' ')

/-- Entries between brackets, each on a line of its own. -/
def enclosed (level : Nat) (opening closing : String) (entries : List String) : String :=
  match entries with
  | [] => opening ++ closing
  | _ =>
    opening ++ lineAt (level + 1) ++ ("," ++ lineAt (level + 1)).intercalate entries ++ lineAt level ++
      closing

mutual

/-- The text over several lines, for a value that stands at a level. -/
def pretty (level : Nat) : Json → String
  | null => "null"
  | boolean b => toString b
  | number text => text
  | string s => quote s
  | list items => enclosed level "[" "]" (prettyItems (level + 1) items)
  | object fields => enclosed level "\x7b" "\x7d" (prettyFields (level + 1) fields)

def prettyItems (level : Nat) : List Json → List String
  | [] => []
  | j :: js => pretty level j :: prettyItems level js

def prettyFields (level : Nat) : List (String × Json) → List String
  | [] => []
  | (key, j) :: rest => (quote key ++ ": " ++ pretty level j) :: prettyFields level rest

end

end Json

end Offside
