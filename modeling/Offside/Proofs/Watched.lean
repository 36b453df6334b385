import Offside.Proofs.CutOff
import Offside.Proofs.Requests

/-!
# Watched executions

An execution can be watched without the program noticing. The record of what is seen stands beside the state: which
invocations of user functions are active, and at which moments functions were called and bodies started. An
invocation is active from the moment its scope is about to be set up until it ends, in whatever way. The count of
calls under way that the machine keeps has no part in the record, and the record none in the execution: what is left
of a watched session when the record is dropped is the session.
-/

namespace Offside.Watched

/-- What is worth a record. -/
inductive Event where
  /-- A function is about to be run on argument slots. -/
  | called (f : Function) (call : Call)
  /-- The scope of a user function is set up, and its body starts in this frame. -/
  | started (f : Function) (frame : Frame)

/-- An event with what was true when it happened: the limit in force and the active invocations, the innermost first. -/
structure Moment where
  limit : Nat
  active : List Function
  event : Event

structure Record where
  active : List Function
  moments : List Moment

namespace Record

def empty : Record :=
  ⟨[], []⟩

def note (limit : Nat) (event : Event) (r : Record) : Record :=
  ⟨r.active, r.moments ++ [⟨limit, r.active, event⟩]⟩

def enter (f : Function) (r : Record) : Record :=
  ⟨f :: r.active, r.moments⟩

def leave (r : Record) : Record :=
  ⟨r.active.tail, r.moments⟩

end Record

/-- An act that finds nothing worth a record. -/
def quietly {σ : Type} (act : Act σ) : Act (σ × Record)
  | (s, r) =>
    match act s with
    | (outcome, s) => (outcome, s, r)

/-! ### Statements -/

def call (program : Program) (invoke : Function → Act (Call × Record)) (name : String) (arguments : List Argument) :
    Act (Frame × Record)
  | (⟨scope, machine⟩, r) =>
    match Frame.prepared program name arguments scope with
    | .error cause => (.failed (.of cause), ⟨scope, machine⟩, r)
    | .ok (f, values) =>
      match invoke f (⟨values, machine⟩, r) with
      | (.done, ⟨slots, machine⟩, r) =>
        quietly (Frame.onScope (Scope.storeOutputs f 0 arguments slots)) (⟨scope, machine⟩, r)
      | (stopped, ⟨_, machine⟩, r) => (stopped, ⟨scope, machine⟩, r)

def count (counter : String) (first last : Expr) (body : Act (Frame × Record)) : Act (Frame × Record) :=
  .withValue (fun w => Frame.bounds first last w.1) fun (first, last) =>
    .repeatFor
      (fun i => .andThen (quietly (Frame.onScope fun scope => scope.assign counter (.integer i))) body)
      (last.toInt - first.toInt).toNat first

section

variable (program : Program) (invoke : Function → Act (Call × Record)) (fuel : Nat)

mutual

def run : Stmt → Act (Frame × Record)
  | .assign place target value => (quietly (Frame.assign target value)).atLine place.line
  | .branch place chain => (runChain chain).atLine place.line
  | .count place counter first last body => (count counter first last (runAll body)).atLine place.line
  | .loopWhile place condition body =>
    (Act.repeatWhile (fun w => condition.evalCondition w.1.scope) (runAll body) fuel).atLine place.line
  | .loopUntil place condition body =>
    (Act.repeatUntil (fun w => condition.evalCondition w.1.scope) (runAll body) fuel).atLine place.line
  | .call place function arguments => (call program invoke function arguments).atLine place.line

def runChain : Chain → Act (Frame × Record)
  | .last none body => runAll body
  | .last (some condition) body =>
    .withValue (fun w => condition.evalCondition w.1.scope) fun holds => if holds then runAll body else .skip
  | .link none body _ => runAll body
  | .link (some condition) body next =>
    .withValue (fun w => condition.evalCondition w.1.scope) fun holds =>
      if holds then runAll body else runChain next

def runAll : List Stmt → Act (Frame × Record)
  | [] => .skip
  | s :: ss => (run s).andThen (runAll ss)

end

end

/-! ### Functions and sessions -/

/-- A user function on the argument slots. Its invocation is active as long as this takes. -/
def enter (limit : Nat) (f : Function) (body : Act (Frame × Record)) : Act (Call × Record)
  | (⟨slots, machine⟩, r) =>
    match f.scopeFor slots with
    | .error fault => (.failed fault, ⟨slots, machine⟩, (r.enter f).leave)
    | .ok scope =>
      match body (⟨scope, machine⟩, (r.enter f).note limit (.started f ⟨scope, machine⟩)) with
      | (.done, ⟨scope, machine⟩, r) => (.done, ⟨scope.collect f.parameters slots, machine⟩, r.leave)
      | (stopped, ⟨_, machine⟩, r) => (stopped, ⟨slots, machine⟩, r.leave)

def nested (limit : Nat) (act : Act (Call × Record)) : Act (Call × Record)
  | (⟨slots, host, depth⟩, r) =>
    if limit ≤ depth then (.failed (.of (.tooDeep limit)), ⟨slots, host, depth⟩, r)
    else
      match act (⟨slots, host, depth + 1⟩, r) with
      | (outcome, ⟨slots, host, depth⟩, r) => (outcome, ⟨slots, host, depth - 1⟩, r)

def invoke (program : Program) (limit : Nat) : Nat → Function → Act (Call × Record)
  | 0, _, w => (.exhausted, w)
  | fuel + 1, f, (call, r) =>
    let r := r.note limit (.called f call)
    if ¬ f.takes call.slots.length then
      (.failed (.of (.arity f.name (f.arity.getD 0) call.slots.length)), call, r)
    else
      match f.body with
      | .builtin b => quietly (Call.perform b) (call, r)
      | .user body => nested limit (enter limit f (runAll program (invoke program limit fuel) fuel body)) (call, r)

def callNamed (program : Program) (limit fuel : Nat) (name : String) : Act (Call × Record) :=
  match program.function? name with
  | none => .fail (.undefinedFunction name)
  | some f => invoke program limit fuel f

def callAll (program : Program) (limit fuel : Nat) : List Function → Act (Machine × Record)
  | [], w => (.done, w)
  | f :: fs, (machine, r) =>
    match invoke program limit fuel f (⟨[], machine⟩, r) with
    | (.done, ⟨_, machine⟩, r) => callAll program limit fuel fs (machine, r)
    | (stopped, ⟨_, machine⟩, r) => (stopped, machine, r)

def execute (program : Program) (settings : Settings) (fuel : Nat) : Act (Machine × Record) :=
  match settings.entry with
  | some name => fun (machine, r) =>
    match callNamed program settings.maxDepth fuel name (⟨[], machine⟩, r) with
    | (outcome, ⟨_, machine⟩, r) => (outcome, machine, r)
  | none => callAll program settings.maxDepth fuel (program.functions.filter (·.parameters.isEmpty))

def answer (fuel : Nat) (s : Session) (r : Record) : Request → Answer × Session × Record
  | .run =>
    match execute s.program s.settings fuel (s.machine, r) with
    | (outcome, machine, r) => (⟨Session.flushed outcome machine.host, []⟩, ⟨s.program, s.settings, machine⟩, r)
  | .call name slots =>
    match callNamed s.program s.settings.maxDepth fuel name (⟨slots, s.machine⟩, r) with
    | (outcome, ⟨slots, machine⟩, r) => (⟨outcome, slots⟩, ⟨s.program, s.settings, machine⟩, r)
  | .configure settings => (⟨.done, []⟩, s.configure settings, r)

/-- Requests that follow one another. The record goes on from each to the next. -/
def answerAll (fuel : Nat) (s : Session) (r : Record) : List Request → List Answer × Session × Record
  | [] => ([], s, r)
  | request :: requests =>
    match answer fuel s r request with
    | (first, s, r) =>
      match answerAll fuel s r requests with
      | (rest, s, r) => (first :: rest, s, r)

/-! ### Nothing but the record is new -/

/-- What is left when the record is dropped. -/
def drop {α σ : Type} (ended : α × σ × Record) : α × σ :=
  (ended.1, ended.2.1)

/-- A watched act does what the act does. -/
def Follows {σ : Type} (watched : Act (σ × Record)) (act : Act σ) : Prop :=
  ∀ s r, drop (watched (s, r)) = act s

section

variable {σ α : Type} {watched : Act (σ × Record)} {act : Act σ}

/-- A watched act is done where the act is, in the same state. -/
theorem Follows.apply (h : Follows watched act) (s : σ) (r : Record) :
    ∃ outcome t r', watched (s, r) = (outcome, t, r') ∧ act s = (outcome, t) :=
  ⟨_, _, _, rfl, (h s r).symm⟩

theorem follows_quietly (act : Act σ) : Follows (quietly act) act :=
  fun _ _ => rfl

theorem follows_skip : Follows (.skip : Act (σ × Record)) .skip :=
  fun _ _ => rfl

theorem Follows.atLine (h : Follows watched act) (line : Nat) : Follows (watched.atLine line) (act.atLine line) := by
  intro s r
  obtain ⟨outcome, t, r', hw, ha⟩ := h.apply s r
  simp only [Act.atLine, hw, ha, drop]

theorem Follows.andThen {watchedNext : Act (σ × Record)} {next : Act σ} (h : Follows watched act)
    (hnext : Follows watchedNext next) : Follows (watched.andThen watchedNext) (act.andThen next) := by
  intro s r
  obtain ⟨outcome, t, r', hw, ha⟩ := h.apply s r
  simp only [Act.andThen, hw, ha]
  cases outcome with
  | done => exact hnext t r'
  | _ => rfl

theorem follows_withValue (value : σ → Except Cause α) {watchedNext : α → Act (σ × Record)} {next : α → Act σ}
    (h : ∀ a, Follows (watchedNext a) (next a)) :
    Follows (.withValue (fun w => value w.1) watchedNext) (.withValue value next) := by
  intro s r
  simp only [Act.withValue]
  cases value s with
  | error cause => rfl
  | ok a => exact h a s r

theorem Follows.repeatWhile (condition : σ → Except Cause Bool) (h : Follows watched act) (fuel : Nat) :
    Follows (.repeatWhile (fun w => condition w.1) watched fuel) (.repeatWhile condition act fuel) := by
  induction fuel with
  | zero => exact fun _ _ => rfl
  | succ fuel ih =>
    rw [Act.repeatWhile_succ, Act.repeatWhile_succ]
    refine follows_withValue condition fun holds => ?_
    cases holds with
    | false => exact follows_skip
    | true => exact h.andThen ih

theorem Follows.repeatUntil (condition : σ → Except Cause Bool) (h : Follows watched act) (fuel : Nat) :
    Follows (.repeatUntil (fun w => condition w.1) watched fuel) (.repeatUntil condition act fuel) := by
  induction fuel with
  | zero => exact fun _ _ => rfl
  | succ fuel ih =>
    rw [Act.repeatUntil_succ, Act.repeatUntil_succ]
    refine h.andThen (follows_withValue condition fun holds => ?_)
    cases holds with
    | false => exact ih
    | true => exact follows_skip

theorem Follows.repeatFor {watched : Int32 → Act (σ × Record)} {act : Int32 → Act σ}
    (h : ∀ i, Follows (watched i) (act i)) (count : Nat) :
    ∀ first, Follows (.repeatFor watched count first) (.repeatFor act count first) := by
  induction count with
  | zero => exact fun _ => follows_skip
  | succ count ih => exact fun first => (h first).andThen (ih (first + 1))

end

theorem count_follows (counter : String) (first last : Expr) {watched : Act (Frame × Record)} {body : Act Frame}
    (h : Follows watched body) : Follows (count counter first last watched) (Frame.count counter first last body) :=
  follows_withValue _ fun _ => Follows.repeatFor (fun _ => (follows_quietly _).andThen h) _ _

section

variable (program : Program) {watched : Function → Act (Call × Record)} {invoke : Function → Act Call} (fuel : Nat)

theorem call_follows (hinvoke : ∀ f, Follows (watched f) (invoke f)) (name : String) (arguments : List Argument) :
    Follows (call program watched name arguments) (Frame.call program invoke name arguments) := by
  rintro ⟨scope, machine⟩ r
  rw [Frame.call_eq, call]
  cases Frame.prepared program name arguments scope with
  | error cause => rfl
  | ok prepared =>
    obtain ⟨f, values⟩ := prepared
    obtain ⟨outcome, after, r', hw, ha⟩ := (hinvoke f).apply ⟨values, machine⟩ r
    simp only [hw, ha]
    cases outcome <;> rfl

-- One induction over statements, chains and blocks together.
mutual

theorem run_follows (hinvoke : ∀ f, Follows (watched f) (invoke f)) :
    ∀ s : Stmt, Follows (run program watched fuel s) (s.run program invoke fuel)
  | .assign place target value => by
    rw [run, Stmt.run]
    exact (follows_quietly _).atLine place.line
  | .branch place chain => by
    rw [run, Stmt.run]
    exact (runChain_follows hinvoke chain).atLine place.line
  | .count place counter first last body => by
    rw [run, Stmt.run]
    exact (count_follows counter first last (runAll_follows hinvoke body)).atLine place.line
  | .loopWhile place condition body => by
    rw [run, Stmt.run]
    have hround := runAll_follows hinvoke body
    exact (hround.repeatWhile (fun frame => condition.evalCondition frame.scope) fuel).atLine place.line
  | .loopUntil place condition body => by
    rw [run, Stmt.run]
    have hround := runAll_follows hinvoke body
    exact (hround.repeatUntil (fun frame => condition.evalCondition frame.scope) fuel).atLine place.line
  | .call place function arguments => by
    rw [run, Stmt.run]
    exact (call_follows program hinvoke function arguments).atLine place.line

theorem runChain_follows (hinvoke : ∀ f, Follows (watched f) (invoke f)) :
    ∀ c : Chain, Follows (runChain program watched fuel c) (c.run program invoke fuel)
  | .last none body => by
    rw [runChain, Chain.run]
    exact runAll_follows hinvoke body
  | .last (some condition) body => by
    rw [runChain, Chain.run]
    refine follows_withValue (fun frame : Frame => condition.evalCondition frame.scope) fun holds => ?_
    cases holds with
    | true => exact runAll_follows hinvoke body
    | false => exact follows_skip
  | .link none body _ => by
    rw [runChain, Chain.run]
    exact runAll_follows hinvoke body
  | .link (some condition) body next => by
    rw [runChain, Chain.run]
    refine follows_withValue (fun frame : Frame => condition.evalCondition frame.scope) fun holds => ?_
    cases holds with
    | true => exact runAll_follows hinvoke body
    | false => exact runChain_follows hinvoke next

theorem runAll_follows (hinvoke : ∀ f, Follows (watched f) (invoke f)) :
    ∀ body : List Stmt, Follows (runAll program watched fuel body) (Stmt.runAll program invoke fuel body)
  | [] => by
    rw [runAll, Stmt.runAll]
    exact follows_skip
  | s :: rest => by
    rw [runAll, Stmt.runAll]
    exact (run_follows hinvoke s).andThen (runAll_follows hinvoke rest)

end

end

theorem enter_follows (limit : Nat) (f : Function) {watched : Act (Frame × Record)} {body : Act Frame}
    (h : Follows watched body) : Follows (enter limit f watched) (Call.enter f body) := by
  rintro ⟨slots, machine⟩ r
  rw [enter, Call.enter]
  cases f.scopeFor slots with
  | error fault => rfl
  | ok scope =>
    obtain ⟨outcome, after, r', hw, ha⟩ :=
      h.apply ⟨scope, machine⟩ ((r.enter f).note limit (.started f ⟨scope, machine⟩))
    simp only [hw, ha]
    cases outcome <;> rfl

theorem nested_follows (limit : Nat) {watched : Act (Call × Record)} {act : Act Call} (h : Follows watched act) :
    Follows (nested limit watched) (Call.nested limit act) := by
  rintro ⟨slots, host, depth⟩ r
  rw [nested, Call.nested]
  split
  · rfl
  · obtain ⟨outcome, after, r', hw, ha⟩ := h.apply ⟨slots, host, depth + 1⟩ r
    rw [hw, ha]
    rfl

/-- By induction on how deep calls may nest: the statements of a body call functions with less fuel. -/
theorem invoke_follows (program : Program) (limit fuel : Nat) (f : Function) :
    Follows (invoke program limit fuel f) (f.run program limit fuel) := by
  induction fuel generalizing f with
  | zero => exact fun _ _ => rfl
  | succ fuel ih =>
    intro call r
    unfold invoke Function.run
    split
    · rfl
    · cases f.body with
      | builtin b => rfl
      | user body => exact nested_follows limit (enter_follows limit f (runAll_follows program fuel ih body)) call _

theorem callNamed_follows (program : Program) (limit fuel : Nat) (name : String) :
    Follows (callNamed program limit fuel name) (Session.callNamed program limit fuel name) := by
  unfold callNamed Session.callNamed
  cases program.function? name with
  | none => exact fun _ _ => rfl
  | some f => exact invoke_follows program limit fuel f

theorem callAll_follows (program : Program) (limit fuel : Nat) (fs : List Function) :
    Follows (callAll program limit fuel fs) (Session.callAll program limit fuel fs) := by
  induction fs with
  | nil => exact fun _ _ => rfl
  | cons f fs ih =>
    intro machine r
    obtain ⟨outcome, ⟨slots, after⟩, r', hw, ha⟩ := (invoke_follows program limit fuel f).apply ⟨[], machine⟩ r
    simp only [callAll, Session.callAll, hw, ha]
    cases outcome with
    | done => exact ih after r'
    | _ => rfl

theorem execute_follows (program : Program) (settings : Settings) (fuel : Nat) :
    Follows (execute program settings fuel) (Session.execute program settings fuel) := by
  unfold execute Session.execute
  cases settings.entry with
  | none => exact callAll_follows program settings.maxDepth fuel _
  | some name =>
    intro machine r
    obtain ⟨outcome, after, r', hw, ha⟩ :=
      (callNamed_follows program settings.maxDepth fuel name).apply ⟨[], machine⟩ r
    simp only [hw, ha]
    rfl

theorem answer_follows (fuel : Nat) (s : Session) (r : Record) (request : Request) :
    drop (answer fuel s r request) = s.answer fuel request := by
  cases request with
  | run =>
    obtain ⟨outcome, after, r', hw, ha⟩ := (execute_follows s.program s.settings fuel).apply s.machine r
    simp only [answer, Session.answer, Session.run, hw, ha]
    rfl
  | call name slots =>
    obtain ⟨outcome, after, r', hw, ha⟩ :=
      (callNamed_follows s.program s.settings.maxDepth fuel name).apply ⟨slots, s.machine⟩ r
    simp only [answer, Session.answer, Session.call, hw, ha]
    rfl
  | configure settings => rfl

/-- A watched session gives the answers of the session, and leaves the same session behind. -/
theorem answerAll_follows (fuel : Nat) (s : Session) (r : Record) (requests : List Request) :
    drop (answerAll fuel s r requests) = s.answerAll fuel requests := by
  induction requests generalizing s r with
  | nil => rfl
  | cons request requests ih =>
    rw [answerAll, Session.answerAll, ← answer_follows fuel s r request]
    simp only [drop, ← ih (answer fuel s r request).2.1 (answer fuel s r request).2.2]

end Offside.Watched
