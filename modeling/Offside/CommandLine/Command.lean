import Offside.CommandLine.Arguments
import Offside.Decimal.Reading
import Offside.Machine.Session

/-!
# Commands

What the command line asks for. An argument list that is no command has no other answer than the usage.
-/

namespace Offside.CommandLine

/-- How tokens are shown. -/
inductive TokenForm where
  | rows
  | json
  /-- The source that is rebuilt from the tokens. -/
  | source
  deriving DecidableEq, Repr

inductive Command where
  | run (file : String) (settings : Settings)
  | parse (file : String)
  | tokens (file : String) (form : TokenForm)
  deriving DecidableEq, Repr

namespace Command

def usage : String :=
  "usage: run FILE [--entry NAME] [--seed NUMBER] [--max-depth NUMBER]\n" ++
  "       parse FILE\n" ++
  "       tokens FILE [--json | --reconstruct]\n"

def file : Command → String
  | run file _ => file
  | parse file => file
  | tokens file _ => file

/-- A number of at most 64 bits, with an optional plus. -/
def readNumber? (text : String) : Option Nat :=
  match text.toList with
  | '-' :: _ => none
  | _ =>
    match Decimal.readInt? text with
    | some n => if n < 18446744073709551616 then some n.toNat else none
    | none => none

/-- The number that an option gives, if it is given; none if it is no number. -/
def number? (a : Arguments) (name : String) : Option (Option Nat) :=
  match a.value? name with
  | none => some none
  | some text => (readNumber? text).map some

def runOption? : String → Option OptionForm
  | "entry" | "seed" | "max-depth" => some .valued
  | _ => none

def tokensOption? : String → Option OptionForm
  | "json" | "reconstruct" => some .flag
  | _ => none

def ofRunArguments? (a : Arguments) : Option Command := do
  let file ← a.operand?
  let seed ← number? a "seed"
  let depth ← number? a "max-depth"
  return run file ⟨a.value? "entry", seed.map Nat.toUInt64, depth.getD Settings.standard.maxDepth⟩

def ofTokensArguments? (a : Arguments) : Option Command := do
  let file ← a.operand?
  match a.has "json", a.has "reconstruct" with
  | true, true => none
  | true, false => return tokens file .json
  | false, true => return tokens file .source
  | false, false => return tokens file .rows

/-- Arguments in which no option is repeated. -/
def readDistinct? (form? : String → Option OptionForm) (arguments : List String) : Option Arguments := do
  let a ← Arguments.read? form? arguments
  if a.distinct then some a else none

def ofArguments? : List String → Option Command
  | "run" :: rest => do ofRunArguments? (← readDistinct? runOption? rest)
  | "parse" :: rest => do return parse (← (← readDistinct? (fun _ => none) rest).operand?)
  | "tokens" :: rest => do ofTokensArguments? (← readDistinct? tokensOption? rest)
  | _ => none

end Command

end Offside.CommandLine
