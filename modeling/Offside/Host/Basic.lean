import Offside.Host.Input
import Offside.Host.Random

/-!
# The host of a program

What a program touches outside itself: words in, lines out, and random numbers.
-/

namespace Offside

structure Host where
  input : Input
  /-- What has been written so far. -/
  output : String
  random : Random
  /-- What comes of the next writes: why each of them fails, if it does. -/
  writes : List (Option String)
  /-- Why the writes behind these fail, if they do. -/
  writeFault : Option String
  /-- Why the output cannot be flushed, if so. -/
  flushFault : Option String
  deriving Repr

namespace Host

/-- A host at its start, with an output that works. -/
def start (input : Input) (random : Random) : Host :=
  ⟨input, "", random, [], none, none⟩

/-- Why the write fails that comes behind `n` others, if it does. -/
def fault? (h : Host) (n : Nat) : Option String :=
  h.writes.getD n h.writeFault

/-- The next word of the input. -/
def nextWord (h : Host) : Except Cause String × Host :=
  match h with
  | ⟨input, output, random, writes, writeFault, flushFault⟩ =>
    match input.next with
    | (word, input) => (word, ⟨input, output, random, writes, writeFault, flushFault⟩)

/-- Writes a line, or nothing of it. -/
def writeLine (h : Host) (line : String) : Except Cause Unit × Host :=
  match h.fault? 0, h with
  | none, ⟨input, output, random, writes, writeFault, flushFault⟩ =>
    (.ok (), ⟨input, output ++ line ++ "\n", random, writes.tail, writeFault, flushFault⟩)
  | some reason, ⟨input, output, random, writes, writeFault, flushFault⟩ =>
    (.error (.output reason), ⟨input, output, random, writes.tail, writeFault, flushFault⟩)

/-- The next random number. -/
def draw (h : Host) : Int32 × Host :=
  match h with
  | ⟨input, output, random, writes, writeFault, flushFault⟩ =>
    match random.next with
    | (number, random) => (number, ⟨input, output, random, writes, writeFault, flushFault⟩)

/-- Restarts the random numbers from a seed. -/
def reseed (h : Host) (seed : UInt64) : Host :=
  { h with random := .ofSeed seed }

/-- Brings the written lines out. -/
def flush (h : Host) : Except Cause Unit :=
  match h.flushFault with
  | none => .ok ()
  | some reason => .error (.output reason)

end Host

end Offside
