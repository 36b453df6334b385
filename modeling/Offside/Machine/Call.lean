import Offside.Host.Builtin
import Offside.Machine.Stmt

/-!
# Calling functions

A call of a user function runs its body in a scope of its own. `fuel` limits how deep calls nest and how many
rounds a loop takes; running out of it is no answer about the program, while the depth limit of the settings
is a rule of the language and its violation a failure.
-/

namespace Offside

namespace Call

/-- A built-in function on the argument slots. -/
def perform (b : Builtin) : Act Call
  | ⟨slots, host, depth⟩ =>
    match b.perform slots host with
    | (ended, slots, host) => (.ofExcept ended, ⟨slots, host, depth⟩)

/-- A user function on the argument slots: its scope is set up, its body is run, and the slots of its `var`
parameters take their last values. The slots change only when the body is done. -/
def enter (f : Function) (body : Act Frame) : Act Call
  | ⟨slots, machine⟩ =>
    match f.scopeFor slots with
    | .error fault => (.failed fault, ⟨slots, machine⟩)
    | .ok scope =>
      match body ⟨scope, machine⟩ with
      | (.done, ⟨scope, machine⟩) => (.done, ⟨scope.collect f.parameters slots, machine⟩)
      | (stopped, ⟨_, machine⟩) => (stopped, ⟨slots, machine⟩)

/-- Counts an act among the calls under way, of which there may be `limit`. -/
def nested (limit : Nat) (act : Act Call) : Act Call
  | ⟨slots, host, depth⟩ =>
    if limit ≤ depth then (.failed (.of (.tooDeep limit)), ⟨slots, host, depth⟩)
    else
      match act ⟨slots, host, depth + 1⟩ with
      | (outcome, ⟨slots, host, depth⟩) => (outcome, ⟨slots, host, depth - 1⟩)

end Call

namespace Function

/-- Whether a function takes so many arguments. -/
def takes (f : Function) (count : Nat) : Bool :=
  f.arity.all (· = count)

/-- Runs a function on argument slots. -/
def run (program : Program) (limit : Nat) : Nat → Function → Act Call
  | 0, _, call => (.exhausted, call)
  | fuel + 1, f, call =>
    if ¬ f.takes call.slots.length then
      (.failed (.of (.arity f.name (f.arity.getD 0) call.slots.length)), call)
    else
      match f.body with
      | .builtin b => Call.perform b call
      | .user body =>
        Call.nested limit (Call.enter f (Stmt.runAll program (run program limit fuel) fuel body)) call

end Function

end Offside
