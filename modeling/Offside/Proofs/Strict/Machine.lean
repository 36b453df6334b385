import Offside.Machine.Session
import Offside.Proofs.Strict.Values

/-!
# Strict execution

Statements over the strict values. How a function is called is left open, as it is for the statements themselves.
`Act.surely` turns an act into a strict one, and every strict statement is such a one if every strict call is.
-/

namespace Offside.Strict

/-- A step on a state, wherever the operations are defined. -/
abbrev Act (σ : Type) := σ → Option (Outcome × σ)

namespace Act

variable {σ α : Type}

/-- A step that needs no operation with a domain. -/
def surely (act : Offside.Act σ) : Act σ :=
  fun s => some (act s)

/-- The second act follows if the first is done. -/
def andThen (first second : Act σ) : Act σ :=
  fun s => do
    match ← first s with
    | (.done, s) => second s
    | stopped => return stopped

/-- Places the failure of an act on a line, unless it has one. -/
def atLine (line : Nat) (act : Act σ) : Act σ :=
  fun s => (act s).map fun (outcome, s) => (outcome.atLine line, s)

/-- Goes on with a value that the state determines, or fails. -/
def withValue (value : σ → Result α) (next : α → Act σ) : Act σ :=
  fun s => do
    match ← (value s).run with
    | .error cause => return (.failed (.of cause), s)
    | .ok a => next a s

/-- Repeats an act while a condition holds, with at most `fuel` questions of the condition. -/
def repeatWhile (condition : σ → Result Bool) (act : Act σ) : Nat → Act σ
  | 0, s => some (.exhausted, s)
  | fuel + 1, s => do
    match ← (condition s).run with
    | .error cause => return (.failed (.of cause), s)
    | .ok false => return (.done, s)
    | .ok true =>
      match ← act s with
      | (.done, s) => repeatWhile condition act fuel s
      | stopped => return stopped

/-- Repeats an act until a condition holds after it, with at most `fuel` rounds. -/
def repeatUntil (condition : σ → Result Bool) (act : Act σ) : Nat → Act σ
  | 0, s => some (.exhausted, s)
  | fuel + 1, s => do
    match ← act s with
    | (.done, s) =>
      match ← (condition s).run with
      | .error cause => return (.failed (.of cause), s)
      | .ok true => return (.done, s)
      | .ok false => repeatUntil condition act fuel s
    | stopped => return stopped

/-- Runs an act for `count` numbers in a row, from `first` on. -/
def repeatFor (act : Int32 → Act σ) : Nat → Int32 → Act σ
  | 0, _, s => some (.done, s)
  | count + 1, first, s => do
    match ← act first s with
    | (.done, s) => repeatFor act count (first + 1) s
    | stopped => return stopped

variable {act : Offside.Act σ} {condition : σ → Except Cause Bool}

@[simp] theorem surely_apply (act : Offside.Act σ) (s : σ) : surely act s = some (act s) := rfl

theorem andThen_surely (first second : Offside.Act σ) :
    andThen (surely first) (surely second) = surely (first.andThen second) := by
  funext s
  cases hs : first s with
  | mk outcome t => cases outcome <;> simp [andThen, Offside.Act.andThen, hs]

theorem withValue_given (value : σ → Except Cause α) (next : α → Offside.Act σ) :
    withValue (fun s => given (value s)) (fun a => surely (next a)) = surely (.withValue value next) := by
  funext s
  cases hs : value s <;> simp [withValue, Offside.Act.withValue, hs]

theorem repeatWhile_surely (fuel : Nat) :
    repeatWhile (fun s => given (condition s)) (surely act) fuel = surely (.repeatWhile condition act fuel) := by
  induction fuel with
  | zero => rfl
  | succ fuel ih =>
    funext s
    cases hcondition : condition s with
    | error cause => simp [repeatWhile, Offside.Act.repeatWhile, hcondition]
    | ok holds =>
      cases holds with
      | false => simp [repeatWhile, Offside.Act.repeatWhile, hcondition]
      | true =>
        cases hs : act s with
        | mk outcome t => cases outcome <;> simp [repeatWhile, Offside.Act.repeatWhile, hcondition, hs, ih]

theorem repeatUntil_surely (fuel : Nat) :
    repeatUntil (fun s => given (condition s)) (surely act) fuel = surely (.repeatUntil condition act fuel) := by
  induction fuel with
  | zero => rfl
  | succ fuel ih =>
    funext s
    cases hs : act s with
    | mk outcome t =>
      cases outcome with
      | done =>
        cases hcondition : condition t with
        | error cause => simp [repeatUntil, Offside.Act.repeatUntil, hs, hcondition]
        | ok holds => cases holds <;> simp [repeatUntil, Offside.Act.repeatUntil, hs, hcondition, ih]
      | _ => simp [repeatUntil, Offside.Act.repeatUntil, hs]

theorem repeatFor_surely (act : Int32 → Offside.Act σ) (count : Nat) (first : Int32) :
    repeatFor (fun i => surely (act i)) count first = surely (.repeatFor act count first) := by
  induction count generalizing first with
  | zero => rfl
  | succ count ih =>
    funext s
    cases hs : act first s with
    | mk outcome t => cases outcome <;> simp [repeatFor, Offside.Act.repeatFor, hs, ih]

end Act

/-! ### Statements -/

/-- A change of the scope. -/
def onScope (change : Scope → Option (Except Cause Unit × Scope)) : Act Frame
  | ⟨scope, machine⟩ => (change scope).map fun (ended, scope) => (.ofExcept ended, ⟨scope, machine⟩)

/-- The value of an expression stored at a target. -/
def assign (target : Target) (value : Expr) : Act Frame :=
  .withValue (fun frame => eval frame.scope value) fun value =>
    onScope fun scope => store scope target value

/-- Stores the output slots of a call in the places that its arguments name, from left to right. The count
is of the arguments already behind. -/
def storeOutputs (f : Function) : Nat → List Argument → List Value → Scope → Option (Except Cause Unit × Scope)
  | position, argument :: arguments, slot :: slots, s =>
    match f.isOutput position, argument.value.target? with
    | true, some target => do
      match ← store s target slot with
      | (.ok (), s) => storeOutputs f (position + 1) arguments slots s
      | failed => return failed
    | _, _ => storeOutputs f (position + 1) arguments slots s
  | _, _, _, s => some (.ok (), s)

/-- The values of arguments, from left to right. -/
def evalAll (s : Scope) : List Argument → Result (List Value)
  | [] => return []
  | a :: as => do
    let value ← eval s a.value
    return value :: (← evalAll s as)

/-- A call: its arguments are checked, then evaluated, and its outputs are stored when it is done. -/
def call (program : Program) (invoke : Function → Act Call) (name : String) (arguments : List Argument) : Act Frame
  | ⟨scope, machine⟩ =>
    match program.function? name with
    | none => some (.failed (.of (.undefinedFunction name)), ⟨scope, machine⟩)
    | some f =>
      match f.checkArguments name 0 arguments with
      | .error cause => some (.failed (.of cause), ⟨scope, machine⟩)
      | .ok () => do
        match ← (evalAll scope arguments).run with
        | .error cause => return (.failed (.of cause), ⟨scope, machine⟩)
        | .ok values =>
          match ← invoke f ⟨values, machine⟩ with
          | (.done, ⟨slots, machine⟩) => onScope (storeOutputs f 0 arguments slots) ⟨scope, machine⟩
          | (stopped, ⟨_, machine⟩) => return (stopped, ⟨scope, machine⟩)

/-- The bounds of a counting loop, of which the first has to be below the last. -/
def bounds (first last : Expr) (frame : Frame) : Result (Int32 × Int32) := do
  let first ← evalInteger frame.scope .firstBound first
  let last ← evalInteger frame.scope .lastBound last
  if first < last then return (first, last) else throw (.emptyCount first last)

/-- A loop over the integers from `first` up to `last`, which is left out. The bounds are evaluated once. -/
def count (counter : String) (first last : Expr) (body : Act Frame) : Act Frame :=
  .withValue (bounds first last) fun (first, last) =>
    .repeatFor (fun i => .andThen (onScope fun scope => some (scope.assign counter (.integer i))) body)
      (last.toInt - first.toInt).toNat first

section

variable (program : Program) (invoke : Function → Act Call) (fuel : Nat)

mutual

def run : Stmt → Act Frame
  | .assign place target value => (assign target value).atLine place.line
  | .branch place chain => (runChain chain).atLine place.line
  | .count place counter first last body => (count counter first last (runAll body)).atLine place.line
  | .loopWhile place condition body =>
    (Act.repeatWhile (fun frame => evalCondition frame.scope condition) (runAll body) fuel).atLine place.line
  | .loopUntil place condition body =>
    (Act.repeatUntil (fun frame => evalCondition frame.scope condition) (runAll body) fuel).atLine place.line
  | .call place function arguments => (call program invoke function arguments).atLine place.line

/-- The body of the first link whose condition holds, or that has none. -/
def runChain : Chain → Act Frame
  | .last none body => runAll body
  | .last (some condition) body =>
    .withValue (fun frame => evalCondition frame.scope condition) fun holds =>
      if holds then runAll body else .surely .skip
  | .link none body _ => runAll body
  | .link (some condition) body next =>
    .withValue (fun frame => evalCondition frame.scope condition) fun holds =>
      if holds then runAll body else runChain next

/-- Statements one after the other, up to the first that is not done. -/
def runAll : List Stmt → Act Frame
  | [] => .surely .skip
  | s :: ss => (run s).andThen (runAll ss)

end

end

open Offside.Strict.Act

theorem onScope_surely (change : Scope → Except Cause Unit × Scope) :
    onScope (fun scope => some (change scope)) = surely (Frame.onScope change) := rfl

theorem assign_eq (target : Target) (value : Expr) : assign target value = surely (Frame.assign target value) := by
  simp only [assign, Frame.assign, eval_eq, store_eq, onScope_surely, withValue_given]

theorem storeOutputs_eq (f : Function) (position : Nat) (arguments : List Argument) (slots : List Value) (s : Scope) :
    storeOutputs f position arguments slots s = some (s.storeOutputs f position arguments slots) := by
  induction arguments generalizing position slots s with
  | nil => cases slots <;> rfl
  | cons argument arguments ih =>
    cases slots with
    | nil => rfl
    | cons slot slots =>
      cases houtput : f.isOutput position with
      | false => simp [storeOutputs, Scope.storeOutputs, houtput, ih]
      | true =>
        cases htarget : argument.value.target? with
        | none => simp [storeOutputs, Scope.storeOutputs, houtput, htarget, ih]
        | some target =>
          cases hstore : s.store target slot with
          | mk ended t => cases ended <;> simp [storeOutputs, Scope.storeOutputs, houtput, htarget, store_eq, hstore, ih]

theorem evalAll_eq (s : Scope) (arguments : List Argument) :
    evalAll s arguments = given (Argument.evalAll s arguments) := by
  induction arguments with
  | nil => rfl
  | cons argument arguments ih => simp only [evalAll, Argument.evalAll, eval_eq, ih, given_bind, given_pure]

theorem bounds_eq (first last : Expr) : bounds first last = fun frame => given (Frame.bounds first last frame) := by
  funext frame
  simp only [bounds, Frame.bounds, evalInteger_eq, given_bind]
  congr
  funext first
  congr
  funext last
  split <;> rfl

theorem count_eq (counter : String) (first last : Expr) (body : Offside.Act Frame) :
    count counter first last (surely body) = surely (Frame.count counter first last body) := by
  simp only [count, Frame.count, bounds_eq, onScope_surely, andThen_surely, repeatFor_surely]
  exact withValue_given _ _

variable {program : Program} {strict : Function → Act Call} {invoke : Function → Offside.Act Call} {fuel : Nat}

theorem call_eq (hinvoke : ∀ f, strict f = surely (invoke f)) (name : String) (arguments : List Argument) :
    call program strict name arguments = surely (Frame.call program invoke name arguments) := by
  funext frame
  obtain ⟨scope, machine⟩ := frame
  cases hf : program.function? name with
  | none => simp [call, Frame.call, hf]
  | some f =>
    cases hcheck : f.checkArguments name 0 arguments with
    | error cause => simp [call, Frame.call, hf, hcheck]
    | ok done =>
      cases hvalues : Argument.evalAll scope arguments with
      | error cause => simp [call, Frame.call, hf, hcheck, evalAll_eq, hvalues]
      | ok values =>
        cases hs : invoke f ⟨values, machine⟩ with
        | mk outcome after =>
          obtain ⟨slots, machine⟩ := after
          cases outcome with
          | done =>
            simp [call, Frame.call, hf, hcheck, evalAll_eq, hvalues, hinvoke, hs, onScope, storeOutputs_eq,
              Frame.onScope]
          | _ => simp [call, Frame.call, hf, hcheck, evalAll_eq, hvalues, hinvoke, hs]

-- One induction over statements, chains and blocks together.
mutual

theorem run_eq (hinvoke : ∀ f, strict f = surely (invoke f)) :
    ∀ s : Stmt, run program strict fuel s = surely (s.run program invoke fuel)
  | .assign place target value => by
    rw [run, Stmt.run, assign_eq]
    rfl
  | .branch place chain => by
    rw [run, Stmt.run, runChain_eq hinvoke chain]
    rfl
  | .count place counter first last body => by
    rw [run, Stmt.run, runAll_eq hinvoke body, count_eq]
    rfl
  | .loopWhile place condition body => by
    simp only [run, Stmt.run, runAll_eq hinvoke body, evalCondition_eq, repeatWhile_surely]
    rfl
  | .loopUntil place condition body => by
    simp only [run, Stmt.run, runAll_eq hinvoke body, evalCondition_eq, repeatUntil_surely]
    rfl
  | .call place function arguments => by
    rw [run, Stmt.run, call_eq hinvoke]
    rfl

theorem runChain_eq (hinvoke : ∀ f, strict f = surely (invoke f)) :
    ∀ c : Chain, runChain program strict fuel c = surely (c.run program invoke fuel)
  | .last none body => by
    rw [runChain, Chain.run, runAll_eq hinvoke body]
  | .last (some condition) body => by
    simp only [runChain, Chain.run, runAll_eq hinvoke body, evalCondition_eq, ← apply_ite surely]
    exact withValue_given _ _
  | .link none body _ => by
    rw [runChain, Chain.run, runAll_eq hinvoke body]
  | .link (some condition) body next => by
    simp only [runChain, Chain.run, runAll_eq hinvoke body, runChain_eq hinvoke next, evalCondition_eq,
      ← apply_ite surely]
    exact withValue_given _ _

theorem runAll_eq (hinvoke : ∀ f, strict f = surely (invoke f)) :
    ∀ body : List Stmt, runAll program strict fuel body = surely (Stmt.runAll program invoke fuel body)
  | [] => by
    rw [runAll, Stmt.runAll]
  | s :: rest => by
    rw [runAll, Stmt.runAll, run_eq hinvoke s, runAll_eq hinvoke rest, andThen_surely]

end

end Offside.Strict
