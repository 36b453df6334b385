import Offside.CommandLine.Report
import Offside.Proofs.CallDepth
import Offside.Proofs.Requests
import Offside.Proofs.Strict.Lexemes
import Offside.Proofs.Strict.Machine
import Offside.Proofs.Strict.ReadProgram

/-!
# Strict sessions

Calls and sessions over the strict statements, and from a source text to the answers of a session. The number of
calls under way is lowered by a strict difference when a call ends; it has a value because a call leaves this number
as it found it. Whatever the source, the host, the settings and the requests, no operation is used outside its domain.
-/

namespace Offside.Strict

open Offside.Strict.Act

/-! ### Calls -/

/-- The value that a variable has before it is first assigned. -/
def firstValue (d : Declaration) : Option Value :=
  match d.init with
  | some value => some (.ofLiteral value)
  | none => initial d.type d.range

/-- Binds the variables of a function. -/
def bindVariables (s : Scope) : List Declaration → Option (Except Fault Scope)
  | [] => some (.ok s)
  | d :: ds => do
    match s.declare d.name d.type d.range (← firstValue d) with
    | (.ok (), s) => bindVariables s ds
    | (.error cause, _) => return .error ((Fault.of cause).atLine d.place.line)

/-- The scope in which the body of a function starts. -/
def scopeFor (f : Function) (arguments : List Value) : Option (Except Fault Scope) := do
  match ← bindVariables (Function.bindConstants .empty f.constants) f.localVariables with
  | .ok s => return Function.bindParameters s f.parameters arguments
  | .error fault => return .error fault

/-- A built-in function on the argument slots. -/
def performCall (b : Builtin) : Act Call
  | ⟨slots, host, depth⟩ => do
    let (ended, slots, host) ← perform b slots host
    return (.ofExcept ended, ⟨slots, host, depth⟩)

/-- A user function on the argument slots. -/
def enter (f : Function) (body : Act Frame) : Act Call
  | ⟨slots, machine⟩ => do
    match ← scopeFor f slots with
    | .error fault => return (.failed fault, ⟨slots, machine⟩)
    | .ok scope =>
      match ← body ⟨scope, machine⟩ with
      | (.done, ⟨scope, machine⟩) => return (.done, ⟨scope.collect f.parameters slots, machine⟩)
      | (stopped, ⟨_, machine⟩) => return (stopped, ⟨slots, machine⟩)

/-- Counts an act among the calls under way, of which there may be `limit`. -/
def nested (limit : Nat) (act : Act Call) : Act Call
  | ⟨slots, host, depth⟩ =>
    if limit ≤ depth then some (.failed (.of (.tooDeep limit)), ⟨slots, host, depth⟩)
    else do
      let (outcome, ⟨slots, host, depth⟩) ← act ⟨slots, host, depth + 1⟩
      return (outcome, ⟨slots, host, ← sub depth 1⟩)

/-- Runs a function on argument slots. -/
def invoke (program : Program) (limit : Nat) : Nat → Function → Act Call
  | 0, _, call => some (.exhausted, call)
  | fuel + 1, f, call =>
    if ¬ f.takes call.slots.length then
      some (.failed (.of (.arity f.name (f.arity.getD 0) call.slots.length)), call)
    else
      match f.body with
      | .builtin b => performCall b call
      | .user body => nested limit (enter f (runAll program (invoke program limit fuel) fuel body)) call

theorem firstValue_eq (d : Declaration) : firstValue d = some (Function.firstValue d) := by
  cases hinit : d.init <;> simp [firstValue, Function.firstValue, hinit, initial_eq]

theorem bindVariables_eq (s : Scope) (ds : List Declaration) :
    bindVariables s ds = some (Function.bindVariables s ds) := by
  induction ds generalizing s with
  | nil => rfl
  | cons d ds ih =>
    cases hdeclare : s.declare d.name d.type d.range (Function.firstValue d) with
    | mk ended t => cases ended <;> simp [bindVariables, Function.bindVariables, firstValue_eq, hdeclare, ih]

theorem scopeFor_eq (f : Function) (arguments : List Value) : scopeFor f arguments = some (f.scopeFor arguments) := by
  cases hbound : Function.bindVariables (Function.bindConstants .empty f.constants) f.localVariables <;>
    simp [scopeFor, Function.scopeFor, bindVariables_eq, hbound]

theorem enter_surely (f : Function) (body : Offside.Act Frame) :
    enter f (surely body) = surely (Call.enter f body) := by
  funext call
  obtain ⟨slots, machine⟩ := call
  cases hscope : f.scopeFor slots with
  | error fault => simp [enter, Call.enter, scopeFor_eq, hscope]
  | ok scope =>
    cases hran : body ⟨scope, machine⟩ with
    | mk outcome after => cases outcome <;> simp [enter, Call.enter, scopeFor_eq, hscope, hran]

/-- The difference has a value because the act inside leaves one call more than there were before. -/
theorem nested_surely (limit : Nat) {act : Offside.Act Call} (hact : Offside.Act.Moves Call.SameDepth act) :
    nested limit (surely act) = surely (Call.nested limit act) := by
  funext call
  obtain ⟨slots, host, depth⟩ := call
  by_cases hlimit : limit ≤ depth
  · simp [nested, Call.nested, hlimit]
  · have hinside : (act ⟨slots, host, depth + 1⟩).2.machine.depth = depth + 1 := hact ⟨slots, host, depth + 1⟩
    have hsub : sub (act ⟨slots, host, depth + 1⟩).2.machine.depth 1 =
        some ((act ⟨slots, host, depth + 1⟩).2.machine.depth - 1) := sub_of_le (by omega)
    simp [nested, Call.nested, hlimit, hsub]

/-- The check of the number of arguments is made before the call, and the built-in function relies on it. -/
theorem performCall_eq {f : Function} {b : Builtin} (hbody : f.body = .builtin b) {c : Call}
    (htakes : f.takes c.slots.length) : performCall b c = some (Call.perform b c) := by
  obtain ⟨slots, host, depth⟩ := c
  have harity : b.arity.all (· = slots.length) := by
    rw [Function.takes, Function.arity, hbody] at htakes
    exact htakes
  simp [performCall, Call.perform, perform_eq harity]

/-- By induction on how deep calls may nest: the statements of a body call functions with less fuel. -/
theorem invoke_eq (program : Program) (limit fuel : Nat) (f : Function) :
    invoke program limit fuel f = surely (f.run program limit fuel) := by
  induction fuel generalizing f with
  | zero => rfl
  | succ fuel ih =>
    funext c
    rw [surely_apply, invoke, Function.run]
    by_cases htakes : f.takes c.slots.length
    · cases hbody : f.body with
      | builtin b => simpa [htakes] using performCall_eq hbody htakes
      | user body =>
        have hdepth := (Frame.followed_sameDepth program (Function.run_sameDepth program limit fuel)).runAll fuel body
        have huser : nested limit (enter f (runAll program (invoke program limit fuel) fuel body)) =
            surely (Call.nested limit
              (Call.enter f (Stmt.runAll program (Function.run program limit fuel) fuel body))) := by
          rw [runAll_eq ih, enter_surely, nested_surely limit (Call.enter_sameDepth f hdepth)]
        simp [htakes, huser]
    · simp [htakes]

/-! ### Sessions -/

/-- Calls a function by its name. -/
def callNamed (program : Program) (limit fuel : Nat) (name : String) : Act Call :=
  match program.function? name with
  | none => .surely (.fail (.undefinedFunction name))
  | some f => invoke program limit fuel f

/-- Calls functions without arguments, one after the other. -/
def callAll (program : Program) (limit fuel : Nat) : List Function → Act Machine
  | [], machine => some (.done, machine)
  | f :: fs, machine => do
    match ← invoke program limit fuel f ⟨[], machine⟩ with
    | (.done, ⟨_, machine⟩) => callAll program limit fuel fs machine
    | (stopped, ⟨_, machine⟩) => return (stopped, machine)

/-- Calls the entry function, or every user function without parameters. -/
def execute (program : Program) (settings : Settings) (fuel : Nat) : Act Machine :=
  match settings.entry with
  | some name => fun machine => do
    let (outcome, ⟨_, machine⟩) ← callNamed program settings.maxDepth fuel name ⟨[], machine⟩
    return (outcome, machine)
  | none => callAll program settings.maxDepth fuel (program.functions.filter (·.parameters.isEmpty))

def answer (fuel : Nat) (s : Session) : Request → Option (Answer × Session)
  | .run => do
    let (outcome, machine) ← execute s.program s.settings fuel s.machine
    return (⟨Session.flushed outcome machine.host, []⟩, ⟨s.program, s.settings, machine⟩)
  | .call name slots => do
    let (outcome, ⟨slots, machine⟩) ← callNamed s.program s.settings.maxDepth fuel name ⟨slots, s.machine⟩
    return (⟨outcome, slots⟩, ⟨s.program, s.settings, machine⟩)
  | .configure settings => some (⟨.done, []⟩, s.configure settings)

def answerAll (fuel : Nat) (s : Session) : List Request → Option (List Answer × Session)
  | [] => some ([], s)
  | request :: requests => do
    let (first, s) ← answer fuel s request
    let (rest, s) ← answerAll fuel s requests
    return (first :: rest, s)

/-- A program read from a source text, or a complaint. -/
def programOf (source : String) : Option (Except String Program) := do
  match ← lexemes source with
  | .error e => return .error e.text
  | .ok ls =>
    match ← program ls with
    | .error e => return .error e.text
    | .ok p => return .ok p

/-- The answers of a new session with the program of a source text, or a complaint about the text. -/
def answersTo (source : String) (settings : Settings) (host : Host) (fuel : Nat) (requests : List Request) :
    Option (Except String (List Answer × Session)) := do
  match ← programOf source with
  | .error complaint => return .error complaint
  | .ok p => return .ok (← answerAll fuel (.start p settings host) requests)

theorem callNamed_eq (program : Program) (limit fuel : Nat) (name : String) :
    callNamed program limit fuel name = surely (Session.callNamed program limit fuel name) := by
  cases hf : program.function? name <;> simp only [callNamed, Session.callNamed, hf, invoke_eq]

theorem callAll_eq (program : Program) (limit fuel : Nat) (fs : List Function) :
    callAll program limit fuel fs = surely (Session.callAll program limit fuel fs) := by
  induction fs with
  | nil => rfl
  | cons f fs ih =>
    funext machine
    cases hran : f.run program limit fuel ⟨[], machine⟩ with
    | mk outcome after => cases outcome <;> simp [callAll, Session.callAll, invoke_eq, hran, ih]

theorem execute_eq (program : Program) (settings : Settings) (fuel : Nat) :
    execute program settings fuel = surely (Session.execute program settings fuel) := by
  cases hentry : settings.entry with
  | none => simp only [execute, Session.execute, hentry, callAll_eq]
  | some name =>
    simp only [execute, Session.execute, hentry, callNamed_eq]
    rfl

theorem answer_eq (fuel : Nat) (s : Session) (request : Request) :
    answer fuel s request = some (s.answer fuel request) := by
  cases request with
  | run => simp [answer, Session.answer, Session.run, execute_eq]
  | call name slots => simp [answer, Session.answer, Session.call, callNamed_eq]
  | configure settings => rfl

theorem answerAll_eq (fuel : Nat) (s : Session) (requests : List Request) :
    answerAll fuel s requests = some (s.answerAll fuel requests) := by
  induction requests generalizing s with
  | nil => rfl
  | cons request requests ih => simp [answerAll, Session.answerAll, answer_eq, ih]

theorem programOf_eq (source : String) : programOf source = some (Program.ofSource source) := by
  cases hlexemes : Offside.lexemes source with
  | error e => simp [programOf, Program.ofSource, lexemes_eq, hlexemes]
  | ok ls =>
    cases hprogram : Program.ofLexemes ls <;>
      simp [programOf, Program.ofSource, lexemes_eq, hlexemes, program_eq, hprogram]

/-- Every operation with a domain that reading a source and answering requests comes upon is inside it, and what
comes out is what the session answers: whatever the source, the settings, the host with its input and random
numbers, the number of steps allowed, and the requests with the values of their arguments. -/
theorem answersTo_eq (source : String) (settings : Settings) (host : Host) (fuel : Nat) (requests : List Request) :
    answersTo source settings host fuel requests =
      some ((Program.ofSource source).map fun p => (Session.start p settings host).answerAll fuel requests) := by
  rw [answersTo, programOf_eq]
  cases Program.ofSource source with
  | error complaint => rfl
  | ok p =>
    have hanswers := answerAll_eq fuel (.start p settings host) requests
    simp [hanswers, Except.map]

end Offside.Strict
