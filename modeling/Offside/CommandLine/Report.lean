import Offside.CommandLine.Command
import Offside.Lexeme.Rebuild
import Offside.Parse.Program
import Offside.Tree.Json

/-!
# Carrying out a command

A report is what a command leaves behind: an exit code, what it wrote, and a complaint if it failed. Output
written before a failure stays.
-/

namespace Offside

/-- A program read from a source text, or a complaint. -/
def Program.ofSource (source : String) : Except String Program :=
  match lexemes source with
  | .error e => .error e.text
  | .ok ls =>
    match Program.ofLexemes ls with
    | .error e => .error e.text
    | .ok p => .ok p

namespace CommandLine

structure Report where
  code : Nat
  output : String
  complaint : Option String
  /-- The program stopped because it asked for more input than there was. -/
  starved : Bool
  deriving DecidableEq, Repr

namespace Report

def success (output : String) : Report :=
  ⟨0, output, none, false⟩

def failure (complaint : String) : Report :=
  ⟨1, "", some complaint, false⟩

/-- The report on arguments that are no command. -/
def misuse : Report :=
  ⟨2, "", some Command.usage, false⟩

end Report

/-- A number in a column of four. -/
def column (n : Nat) : String :=
  String.ofList ((toString n).toList.leftpad 4 ' ')

def tokenRow (l : Lexeme) : String :=
  column l.line ++ "  " ++ l.token.kind ++ " @ " ++ l.span.text

def tokenJson (l : Lexeme) : Json :=
  .object [("kind", .string l.token.kind), ("text", .string l.text), ("line", .ofNat l.line),
    ("start", .ofNat l.span.start), ("end", .ofNat l.span.stop)]

def tokensText (ls : List Lexeme) : TokenForm → String
  | .rows => String.join (ls.map fun l => tokenRow l ++ "\n")
  | .json => String.join (ls.map fun l => (tokenJson l).compact ++ "\n")
  | .source => rebuild ls

def runReport (settings : Settings) (host : Host) (p : Program) : Report :=
  match (Session.start p settings host).run Session.ample with
  | (outcome, session) =>
    let output := session.machine.host.output
    match outcome with
    | .done => .success output
    | .failed fault =>
      let starved := match fault.cause with
        | .endOfInput => true
        | _ => false
      ⟨1, output, some fault.text, starved⟩
    | .exhausted => ⟨1, output, some "the program does not end", false⟩

namespace Command

/-- Carries out a command on the source text of its file, if the file could be read. -/
def perform (command : Command) (source : Option String) (host : Host) : Report :=
  match source with
  | none => .failure ("cannot read " ++ command.file)
  | some source =>
    match command with
    | run _ settings =>
      match Program.ofSource source with
      | .error complaint => .failure complaint
      | .ok p => runReport settings host p
    | parse _ =>
      match Program.ofSource source with
      | .error complaint => .failure complaint
      | .ok p => .success (p.toJson.pretty 0 ++ "\n")
    | tokens _ form =>
      match lexemes source with
      | .error e => .failure e.text
      | .ok ls => .success (tokensText ls form)

end Command

/-- The report on arguments, for files whose texts are known. -/
def report (arguments : List String) (file? : String → Option String) (host : Host) : Report :=
  match Command.ofArguments? arguments with
  | none => .misuse
  | some command => command.perform (file? command.file) host

end CommandLine

end Offside
