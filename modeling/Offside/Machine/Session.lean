import Offside.Machine.Call

/-!
# Sessions

A program with its settings and a machine. Runs and calls follow one another on the same machine: input,
random numbers and output go on where the last one left them.
-/

namespace Offside

structure Settings where
  /-- The function to run; every user function without parameters if there is none. -/
  entry : Option String
  /-- The seed of the random numbers. -/
  seed : Option UInt64
  /-- The most calls of user functions that may be under way. -/
  maxDepth : Nat
  deriving DecidableEq, Repr

def Settings.standard : Settings :=
  ⟨none, none, 10000⟩

structure Session where
  program : Program
  settings : Settings
  machine : Machine

namespace Session

/-- More steps than any execution will take. -/
def ample : Nat :=
  4611686018427387904

/-- Replaces the settings. Random numbers start anew only if there is a seed. -/
def configure (s : Session) (settings : Settings) : Session :=
  match settings.seed with
  | some seed => ⟨s.program, settings, ⟨s.machine.host.reseed seed, s.machine.depth⟩⟩
  | none => ⟨s.program, settings, s.machine⟩

/-- A session at its start. -/
def start (program : Program) (settings : Settings) (host : Host) : Session :=
  configure ⟨program, .standard, ⟨host, 0⟩⟩ settings

/-- Calls a function by its name. -/
def callNamed (program : Program) (limit fuel : Nat) (name : String) : Act Call :=
  match program.function? name with
  | none => .fail (.undefinedFunction name)
  | some f => f.run program limit fuel

/-- Calls functions without arguments, one after the other. -/
def callAll (program : Program) (limit fuel : Nat) : List Function → Act Machine
  | [], machine => (.done, machine)
  | f :: fs, machine =>
    match f.run program limit fuel ⟨[], machine⟩ with
    | (.done, ⟨_, machine⟩) => callAll program limit fuel fs machine
    | (stopped, ⟨_, machine⟩) => (stopped, machine)

/-- Calls the entry function, or every user function without parameters. -/
def execute (program : Program) (settings : Settings) (fuel : Nat) : Act Machine :=
  match settings.entry with
  | some name => fun machine =>
    match callNamed program settings.maxDepth fuel name ⟨[], machine⟩ with
    | (outcome, ⟨_, machine⟩) => (outcome, machine)
  | none =>
    callAll program settings.maxDepth fuel (program.functions.filter (·.parameters.isEmpty))

/-- The outcome of a run whose output is flushed at the end: a failure of the run comes first. -/
def flushed (outcome : Outcome) (host : Host) : Outcome :=
  match outcome with
  | .done => .ofExcept host.flush
  | stopped => stopped

/-- Runs the program. -/
def run (fuel : Nat) (s : Session) : Outcome × Session :=
  match s with
  | ⟨program, settings, machine⟩ =>
    match execute program settings fuel machine with
    | (outcome, machine) => (flushed outcome machine.host, ⟨program, settings, machine⟩)

/-- Calls one function on argument slots. -/
def call (fuel : Nat) (s : Session) (name : String) (slots : List Value) :
    Outcome × List Value × Session :=
  match s with
  | ⟨program, settings, machine⟩ =>
    match callNamed program settings.maxDepth fuel name ⟨slots, machine⟩ with
    | (outcome, ⟨slots, machine⟩) => (outcome, slots, ⟨program, settings, machine⟩)

/-- What has been written so far, and the session with nothing written. -/
def takeOutput (s : Session) : String × Session :=
  let host := s.machine.host
  (host.output, ⟨s.program, s.settings, ⟨{ host with output := "" }, s.machine.depth⟩⟩)

end Session

end Offside
