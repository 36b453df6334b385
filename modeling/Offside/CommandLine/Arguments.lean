/-!
# Arguments of a command

Arguments are options, which start with two dashes, and operands. An option may come before or after an
operand, takes its value from behind an equals sign or from the next argument, and may not be repeated. Two
dashes alone end the options.
-/

namespace Offside.CommandLine

/-- Whether an option stands alone or takes a value. -/
inductive OptionForm where
  | flag
  | valued
  deriving DecidableEq, Repr

/-- The options and operands that were given, in order. The value of a flag is empty. -/
structure Arguments where
  options : List (String × String)
  operands : List String
  deriving DecidableEq, Repr

namespace Arguments

def addOption (name value : String) (a : Arguments) : Arguments :=
  ⟨(name, value) :: a.options, a.operands⟩

def addOperand (operand : String) (a : Arguments) : Arguments :=
  ⟨a.options, operand :: a.operands⟩

/-- The text of an argument behind its two dashes, if it is an option. -/
def optionText? (argument : String) : Option (List Char) :=
  match argument.toList with
  | '-' :: '-' :: text => some text
  | _ => none

/-- Whether an argument has the look of an option; a dash alone has not. -/
def looksLikeOption (argument : String) : Bool :=
  match argument.toList with
  | '-' :: _ :: _ => true
  | _ => false

/-- The name of an option, and the value behind an equals sign. -/
def splitOption (text : List Char) : String × Option String :=
  let name := String.ofList (text.takeWhile (· ≠ '='))
  match text.dropWhile (· ≠ '=') with
  | [] => (name, none)
  | _ :: value => (name, some (String.ofList value))

/-- Reads arguments by the options that `form?` knows. -/
def read? (form? : String → Option OptionForm) : List String → Option Arguments
  | [] => some ⟨[], []⟩
  | "--" :: operands => some ⟨[], operands⟩
  | argument :: rest =>
    match optionText? argument with
    | none =>
      if looksLikeOption argument then none else (read? form? rest).map (addOperand argument)
    | some text =>
      match splitOption text with
      | (name, value?) =>
        match form? name, value?, rest with
        | some .flag, none, rest => (read? form? rest).map (addOption name "")
        | some .valued, some value, rest => (read? form? rest).map (addOption name value)
        | some .valued, none, value :: rest =>
          if looksLikeOption value then none else (read? form? rest).map (addOption name value)
        | _, _, _ => none

/-- Whether every option was given at most once. -/
def distinct (a : Arguments) : Bool :=
  (a.options.map Prod.fst).Nodup

/-- The value of an option. -/
def value? (a : Arguments) (name : String) : Option String :=
  a.options.lookup name

/-- Whether a flag was given. -/
def has (a : Arguments) (name : String) : Bool :=
  (a.value? name).isSome

/-- The one operand, which has to be some text. -/
def operand? (a : Arguments) : Option String :=
  match a.operands with
  | [operand] => if operand.isEmpty then none else some operand
  | _ => none

end Arguments

end Offside.CommandLine
