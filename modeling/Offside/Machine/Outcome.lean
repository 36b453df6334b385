import Offside.Fault

/-!
# How an execution ends

An execution is done, has failed, or was stopped because it ran out of steps. The state it leaves behind
counts in all three cases: a failure keeps what was stored and written before it.
-/

namespace Offside

inductive Outcome where
  | done
  | failed (fault : Fault)
  /-- The steps allowed were too few to tell how the execution ends. -/
  | exhausted
  deriving Repr

namespace Outcome

def ofExcept : Except Cause Unit → Outcome
  | .ok () => done
  | .error cause => failed (.of cause)

/-- Places a failure on a line, unless it has one. -/
def atLine (line : Nat) : Outcome → Outcome
  | failed fault => failed (fault.atLine line)
  | outcome => outcome

end Outcome

/-- A step on a state. -/
abbrev Act (σ : Type) := σ → Outcome × σ

namespace Act

variable {σ : Type}

/-- Does nothing. -/
def skip : Act σ :=
  fun s => (.done, s)

def fail (cause : Cause) : Act σ :=
  fun s => (.failed (.of cause), s)

/-- The second act follows if the first is done. -/
def andThen (first second : Act σ) : Act σ :=
  fun s =>
    match first s with
    | (.done, s) => second s
    | stopped => stopped

/-- Places the failure of an act on a line, unless it has one. -/
def atLine (line : Nat) (act : Act σ) : Act σ :=
  fun s =>
    match act s with
    | (outcome, s) => (outcome.atLine line, s)

/-- Goes on with a value that the state determines, or fails. -/
def withValue {α : Type} (value : σ → Except Cause α) (next : α → Act σ) : Act σ :=
  fun s =>
    match value s with
    | .error cause => (.failed (.of cause), s)
    | .ok a => next a s

/-- Repeats an act while a condition holds, with at most `fuel` questions of the condition. -/
def repeatWhile (condition : σ → Except Cause Bool) (act : Act σ) : Nat → Act σ
  | 0, s => (.exhausted, s)
  | fuel + 1, s =>
    match condition s with
    | .error cause => (.failed (.of cause), s)
    | .ok false => (.done, s)
    | .ok true =>
      match act s with
      | (.done, s) => repeatWhile condition act fuel s
      | stopped => stopped

/-- Repeats an act until a condition holds after it, with at most `fuel` rounds. -/
def repeatUntil (condition : σ → Except Cause Bool) (act : Act σ) : Nat → Act σ
  | 0, s => (.exhausted, s)
  | fuel + 1, s =>
    match act s with
    | (.done, s) =>
      match condition s with
      | .error cause => (.failed (.of cause), s)
      | .ok true => (.done, s)
      | .ok false => repeatUntil condition act fuel s
    | stopped => stopped

/-- Runs an act for `count` numbers in a row, from `first` on. -/
def repeatFor (act : Int32 → Act σ) : Nat → Int32 → Act σ
  | 0, _, s => (.done, s)
  | count + 1, first, s =>
    match act first s with
    | (.done, s) => repeatFor act count (first + 1) s
    | stopped => stopped

end Act

end Offside
