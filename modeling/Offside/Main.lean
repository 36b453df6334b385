import Offside.CommandLine.Report

/-!
# The command line

A program may write before it reads, so its input is fetched only when it asks for more: the run starts over
with what has arrived, and only new output is shown. Without a seed, one is drawn for the whole command.
-/

namespace Offside.CommandLine

/-- Adds a line of input, and tells whether the input ends with it. -/
partial def fetchLine (stream : IO.FS.Stream) (bytes : ByteArray) : IO (ByteArray × Bool) := do
  let chunk ← stream.read 1
  if chunk.isEmpty then return (bytes, true)
  else if chunk.data = #[10] then return (bytes ++ chunk, false)
  else fetchLine stream (bytes ++ chunk)

/-- Carries out a command, `shown` characters of whose output are out already. -/
partial def converse (command : Command) (source : Option String) (random : Random) (bytes : ByteArray)
    (closed : Bool) (shown : Nat) : IO UInt32 := do
  let report := command.perform source (.start (.ofBytes bytes.data.toList) random)
  (← IO.getStdout).putStr (String.ofList (report.output.toList.drop shown))
  (← IO.getStdout).flush
  if report.starved && !closed then
    let (bytes, closed) ← fetchLine (← IO.getStdin) bytes
    converse command source random bytes closed report.output.length
  else
    if let some complaint := report.complaint then IO.eprintln complaint
    return report.code.toUInt32

end Offside.CommandLine

open Offside CommandLine

def main (arguments : List String) : IO UInt32 := do
  match Command.ofArguments? arguments with
  | none =>
    IO.eprint Command.usage
    return Report.misuse.code.toUInt32
  | some command =>
    let source ← try some <$> IO.FS.readFile command.file catch _ => pure none
    let seed := (← IO.getRandomBytes 8).foldl (fun n byte => n * 256 + byte.toUInt64) 0
    converse command source (.ofSeed seed) .empty false 0
