import Offside.Machine.Session

/-!
# Requests to a session

A session answers runs, calls and new settings in any order, each on the machine that the one before left behind.
-/

namespace Offside

/-- What may be asked of a session. -/
inductive Request where
  | run
  | call (name : String) (slots : List Value)
  | configure (settings : Settings)
  deriving Repr

/-- How a request ends, and the slots of its arguments afterwards. -/
structure Answer where
  outcome : Outcome
  slots : List Value
  deriving Repr

namespace Session

def answer (fuel : Nat) (s : Session) : Request → Answer × Session
  | .run =>
    match s.run fuel with
    | (outcome, s) => (⟨outcome, []⟩, s)
  | .call name slots =>
    match s.call fuel name slots with
    | (outcome, slots, s) => (⟨outcome, slots⟩, s)
  | .configure settings => (⟨.done, []⟩, s.configure settings)

/-- The answers to requests that follow one another, whatever the outcome of each. -/
def answerAll (fuel : Nat) (s : Session) : List Request → List Answer × Session
  | [] => ([], s)
  | request :: requests =>
    match s.answer fuel request with
    | (first, s) =>
      match s.answerAll fuel requests with
      | (rest, s) => (first :: rest, s)

end Session

end Offside
