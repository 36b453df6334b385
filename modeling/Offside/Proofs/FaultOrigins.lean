import Mathlib.Order.Filter.AtTopBot.Basic
import Offside.Proofs.CallDepth
import Offside.Proofs.Failures
import Offside.Proofs.Statements

/-!
# Where faults come from

A fault is raised without a line and takes one on its way out. Here it is said without lines and steps what fails:
`Stmt.OwnFailure` is the failure of a statement's own work, which is everything that the statement does but run other
statements, and `Stmt.Fails` follows the execution inwards, into bodies and called functions, down to the statement
whose own work fails or to the declaration that cannot be bound. A statement fails in an execution exactly when it
fails in this sense, on the line of what is found there.
-/

namespace Offside

open Act Filter Relation

/-- What may fail: the own work of a statement, or the binding of a local variable. -/
inductive Origin where
  | statement (s : Stmt)
  | declaration (d : Declaration)

def Origin.line : Origin → Nat
  | statement s => s.line
  | declaration d => d.place.line

section

variable (program : Program) (limit : Nat)

/-- Statements are done, and lead from one frame to another. -/
def Stmt.Completes (body : List Stmt) (before after : Frame) : Prop :=
  ∃ fuel, Stmt.executeAll program limit body fuel before = (.done, after)

/-- A call is done. -/
def Function.Completes (f : Function) (before after : Call) : Prop :=
  ∃ fuel, f.run program limit fuel before = (.done, after)

/-- A round of a loop that goes on while its condition holds. -/
def Stmt.WhileRound (condition : Expr) (body : List Stmt) (before after : Frame) : Prop :=
  condition.evalCondition before.scope = .ok true ∧ Stmt.Completes program limit body before after

/-- A round of a loop after which its condition does not hold yet. -/
def Stmt.UntilRound (condition : Expr) (body : List Stmt) (before after : Frame) : Prop :=
  Stmt.Completes program limit body before after ∧ condition.evalCondition after.scope = .ok false

/-- A round of a counting loop, from a number below the last to the next number. -/
inductive Stmt.CountRound (counter : String) (last : Int32) (body : List Stmt) : Int32 × Frame → Int32 × Frame → Prop where
  | mk {i : Int32} {before after : Frame} {scope : Scope} (hlt : i < last)
      (hcounter : before.scope.assign counter (.integer i) = (.ok (), scope))
      (hbody : Stmt.Completes program limit body ⟨scope, before.machine⟩ after) :
      Stmt.CountRound counter last body (i, before) (i + 1, after)

end

/-- The body of a chain that is run: no link before it is, and its own condition holds or it has none. -/
def Chain.Selects (chain : Chain) (scope : Scope) (body : List Stmt) : Prop :=
  ∃ before condition more after, chain.links = before ++ (condition, body, more) :: after ∧ Chain.Passed scope before ∧
    ∀ asked ∈ condition, asked.evalCondition scope = .ok true

/-- A condition of a chain is asked and has no truth value. -/
def Chain.Breaks (chain : Chain) (scope : Scope) (cause : Cause) : Prop :=
  ∃ before condition body more after, chain.links = before ++ (some condition, body, more) :: after ∧
    Chain.Passed scope before ∧ condition.evalCondition scope = .error cause

section

variable (program : Program) (limit : Nat)

/-- A statement comes to run a body, which starts in this frame: a body of its own, or that of the function it calls. -/
inductive Stmt.Enters (frame : Frame) : Stmt → List Stmt → Frame → Prop where
  | branch {place : Location} {chain : Chain} {body : List Stmt} (h : chain.Selects frame.scope body) :
      Stmt.Enters frame (.branch place chain) body frame
  | count {place : Location} {counter : String} {first last : Expr} {body : List Stmt} {low high i : Int32}
      {reached : Frame} {scope : Scope} (hbounds : Frame.bounds first last frame = .ok (low, high))
      (hrounds : ReflTransGen (Stmt.CountRound program limit counter high body) (low, frame) (i, reached))
      (hlt : i < high) (hcounter : reached.scope.assign counter (.integer i) = (.ok (), scope)) :
      Stmt.Enters frame (.count place counter first last body) body ⟨scope, reached.machine⟩
  | loopWhile {place : Location} {condition : Expr} {body : List Stmt} {reached : Frame}
      (hrounds : ReflTransGen (Stmt.WhileRound program limit condition body) frame reached)
      (hcondition : condition.evalCondition reached.scope = .ok true) :
      Stmt.Enters frame (.loopWhile place condition body) body reached
  | loopUntil {place : Location} {condition : Expr} {body : List Stmt} {reached : Frame}
      (hrounds : ReflTransGen (Stmt.UntilRound program limit condition body) frame reached) :
      Stmt.Enters frame (.loopUntil place condition body) body reached
  | call {place : Location} {name : String} {arguments : List Argument} {f : Function} {values : List Value}
      {body : List Stmt} {scope : Scope} (hprepared : Frame.prepared program name arguments frame.scope = .ok (f, values))
      (hadmits : f.Admits limit ⟨values, frame.machine⟩ body) (hscope : f.scopeFor values = .ok scope) :
      Stmt.Enters frame (.call place name arguments) body (frame.machine.entered scope)

/-- The own work of a statement fails: what it does itself, not what the statements do that it comes to run. -/
inductive Stmt.OwnFailure (frame : Frame) : Stmt → Cause → Prop where
  | operand {place : Location} {target : Target} {value : Expr} {cause : Cause}
      (h : value.eval frame.scope = .error cause) : Stmt.OwnFailure frame (.assign place target value) cause
  | store {place : Location} {target : Target} {value : Expr} {result : Value} {cause : Cause}
      (hvalue : value.eval frame.scope = .ok result) (h : (frame.scope.store target result).1 = .error cause) :
      Stmt.OwnFailure frame (.assign place target value) cause
  | condition {place : Location} {chain : Chain} {cause : Cause} (h : chain.Breaks frame.scope cause) :
      Stmt.OwnFailure frame (.branch place chain) cause
  | bounds {place : Location} {counter : String} {first last : Expr} {body : List Stmt} {cause : Cause}
      (h : Frame.bounds first last frame = .error cause) :
      Stmt.OwnFailure frame (.count place counter first last body) cause
  | counter {place : Location} {counter : String} {first last : Expr} {body : List Stmt} {low high i : Int32}
      {reached : Frame} {cause : Cause} (hbounds : Frame.bounds first last frame = .ok (low, high))
      (hrounds : ReflTransGen (Stmt.CountRound program limit counter high body) (low, frame) (i, reached))
      (hlt : i < high) (h : (reached.scope.assign counter (.integer i)).1 = .error cause) :
      Stmt.OwnFailure frame (.count place counter first last body) cause
  | whileCondition {place : Location} {condition : Expr} {body : List Stmt} {reached : Frame} {cause : Cause}
      (hrounds : ReflTransGen (Stmt.WhileRound program limit condition body) frame reached)
      (h : condition.evalCondition reached.scope = .error cause) :
      Stmt.OwnFailure frame (.loopWhile place condition body) cause
  | untilCondition {place : Location} {condition : Expr} {body : List Stmt} {reached after : Frame} {cause : Cause}
      (hrounds : ReflTransGen (Stmt.UntilRound program limit condition body) frame reached)
      (hbody : Stmt.Completes program limit body reached after) (h : condition.evalCondition after.scope = .error cause) :
      Stmt.OwnFailure frame (.loopUntil place condition body) cause
  | argument {place : Location} {name : String} {arguments : List Argument} {cause : Cause}
      (h : Frame.prepared program name arguments frame.scope = .error cause) :
      Stmt.OwnFailure frame (.call place name arguments) cause
  | refused {place : Location} {name : String} {arguments : List Argument} {f : Function} {values : List Value}
      {cause : Cause} (hprepared : Frame.prepared program name arguments frame.scope = .ok (f, values))
      (h : f.Refuses limit ⟨values, frame.machine⟩ cause) : Stmt.OwnFailure frame (.call place name arguments) cause
  | output {place : Location} {name : String} {arguments : List Argument} {f : Function} {values slots : List Value}
      {machine : Machine} {cause : Cause} (hprepared : Frame.prepared program name arguments frame.scope = .ok (f, values))
      (hcall : f.Completes program limit ⟨values, frame.machine⟩ ⟨slots, machine⟩)
      (h : (frame.scope.storeOutputs f 0 arguments slots).1 = .error cause) :
      Stmt.OwnFailure frame (.call place name arguments) cause

/-- A statement comes to run another one from this frame: the first of the body that it enters, or one that follows
when those before it are done. -/
def Stmt.Reaches (frame : Frame) (s t : Stmt) (reached : Frame) : Prop :=
  ∃ before rest entered, s.Enters program limit frame (before ++ t :: rest) entered ∧
    Stmt.Completes program limit before entered reached

/-- A statement fails, and its failure comes from this origin: from its own work, from a local variable of the function
that it calls, or from a statement that it comes to run. -/
inductive Stmt.Fails : Frame → Stmt → Origin → Cause → Prop where
  | own {frame : Frame} {s : Stmt} {cause : Cause} (h : s.OwnFailure program limit frame cause) :
      Stmt.Fails frame s (.statement s) cause
  | declaration {frame : Frame} {place : Location} {name : String} {arguments : List Argument} {f : Function}
      {values : List Value} {body : List Stmt} {d : Declaration} {cause : Cause}
      (hprepared : Frame.prepared program name arguments frame.scope = .ok (f, values))
      (hadmits : f.Admits limit ⟨values, frame.machine⟩ body) (h : f.Unbindable d cause) :
      Stmt.Fails frame (.call place name arguments) (.declaration d) cause
  | inside {frame reached : Frame} {s t : Stmt} {origin : Origin} {cause : Cause}
      (hreaches : s.Reaches program limit frame t reached) (h : Stmt.Fails reached t origin cause) :
      Stmt.Fails frame s origin cause

end

/-! ### From the execution to the origin -/

namespace Stmt

variable (program : Program) (limit : Nat)

/-- What a statement does before its failure is placed. -/
def work (s : Stmt) (fuel : Nat) : Act Frame :=
  match s with
  | .assign _ target value => Frame.assign target value
  | .branch _ chain => Chain.runLinks (fun body => executeAll program limit body fuel) chain.links
  | .count _ counter first last body => Frame.count counter first last (executeAll program limit body fuel)
  | .loopWhile _ condition body =>
    .repeatWhile (fun frame => condition.evalCondition frame.scope) (executeAll program limit body fuel) fuel
  | .loopUntil _ condition body =>
    .repeatUntil (fun frame => condition.evalCondition frame.scope) (executeAll program limit body fuel) fuel
  | .call _ name arguments => Frame.call program (Function.run program limit fuel) name arguments

/-- Every statement places the failure of its work on its own line, whatever statement it is. -/
theorem execute_eq (s : Stmt) (fuel : Nat) :
    s.execute program limit fuel = (s.work program limit fuel).atLine s.line := by
  cases s with
  | branch place chain =>
    rw [execute, Stmt.run, Chain.run_eq_runLinks]
    rfl
  | _ =>
    rw [execute, Stmt.run]
    rfl

variable {program limit} {frame : Frame} {fault : Fault} {fuel : Nat} {body : List Stmt}

theorem executeAll_cons (s : Stmt) (rest : List Stmt) (fuel : Nat) :
    executeAll program limit (s :: rest) fuel =
      (s.execute program limit fuel).andThen (executeAll program limit rest fuel) := by
  rw [executeAll, Stmt.runAll]
  rfl

theorem executeAll_failed (h : (executeAll program limit body fuel frame).1 = .failed fault) :
    ∃ before s rest reached, body = before ++ s :: rest ∧
      executeAll program limit before fuel frame = (.done, reached) ∧
      (s.execute program limit fuel reached).1 = .failed fault := by
  induction body generalizing frame with
  | nil => cases h
  | cons s rest ih =>
    rw [executeAll_cons, andThen_failed] at h
    rcases h with hs | ⟨next, hs, hrest⟩
    · exact ⟨[], s, rest, frame, rfl, rfl, hs⟩
    · obtain ⟨before, t, rest, reached, rfl, hbefore, ht⟩ := ih hrest
      refine ⟨s :: before, t, rest, reached, rfl, ?_, ht⟩
      rw [executeAll_cons]
      exact (andThen_of_done hs).trans hbefore

/-- Failures of a statement that gets so many steps come from somewhere, and are placed there. -/
def Traced (program : Program) (limit fuel : Nat) (s : Stmt) : Prop :=
  ∀ {frame : Frame} {fault : Fault}, (s.execute program limit fuel frame).1 = .failed fault →
    ∃ origin cause, s.Fails program limit frame origin cause ∧ fault = ⟨cause, some origin.line⟩

theorem fails_of_enters {s : Stmt} {entered : Frame} (henters : s.Enters program limit frame body entered)
    (htraced : ∀ t ∈ body, t.Traced program limit fuel)
    (h : (executeAll program limit body fuel entered).1 = .failed fault) :
    ∃ origin cause, s.Fails program limit frame origin cause ∧ fault = ⟨cause, some origin.line⟩ := by
  obtain ⟨before, t, rest, reached, rfl, hbefore, ht⟩ := executeAll_failed h
  obtain ⟨origin, cause, hfails, rfl⟩ := htraced t (by simp) ht
  exact ⟨origin, cause, .inside ⟨before, rest, entered, henters, fuel, hbefore⟩ hfails, rfl⟩

/-- The work of a statement fails by itself or somewhere inside. -/
theorem fails_of_work {s : Stmt} (hinside : ∀ t ∈ s.inside, t.Traced program limit fuel)
    (hcallees : ∀ less, fuel = less + 1 → ∀ t : Stmt, t.Traced program limit less)
    (h : (s.work program limit fuel frame).1 = .failed fault) :
    (∃ cause, s.OwnFailure program limit frame cause ∧ fault = .of cause) ∨
      ∃ origin cause, s.Fails program limit frame origin cause ∧ fault = ⟨cause, some origin.line⟩ := by
  cases s with
  | assign place target value =>
    rcases withValue_failed.mp h with ⟨cause, hcause, rfl⟩ | ⟨result, hvalue, hstore⟩
    · exact .inl ⟨cause, .operand hcause, rfl⟩
    · obtain ⟨cause, hcause, rfl⟩ := Frame.onScope_failed.mp hstore
      exact .inl ⟨cause, .store hvalue hcause, rfl⟩
  | branch place chain =>
    obtain ⟨before, condition, body, more, after, hlinks, hbefore, hend⟩ := Chain.runLinks_failed h
    rcases hend with ⟨asked, cause, rfl, hcause, rfl⟩ | ⟨hholds, hbody⟩
    · exact .inl ⟨cause, .condition ⟨before, asked, body, more, after, hlinks, hbefore, hcause⟩, rfl⟩
    · have hmem : ∀ t ∈ body, t ∈ (Stmt.branch place chain).inside := by
        intro t ht
        rw [inside, hlinks]
        simp [ht]
      exact .inr (fails_of_enters (.branch ⟨before, condition, more, after, hlinks, hbefore, hholds⟩)
        (fun t ht => hinside t (hmem t ht)) hbody)
  | count place counter first last body =>
    rcases withValue_failed.mp h with ⟨cause, hcause, rfl⟩ | ⟨⟨low, high⟩, hbounds, hloop⟩
    · exact .inl ⟨cause, .bounds hcause, rfl⟩
    · obtain ⟨i, reached, hrounds, hlt, hend⟩ := Frame.countFrom_failed hloop
      have hrounds : ReflTransGen (CountRound program limit counter high body) (low, frame) (i, reached) := by
        refine ReflTransGen.mono ?_ _ _ hrounds
        rintro ⟨i, before⟩ ⟨j, after⟩ ⟨hi, hj, scope, hcounter, hbody⟩
        obtain rfl : j = i + 1 := hj
        exact .mk hi hcounter ⟨fuel, hbody⟩
      rcases hend with ⟨cause, hcause, rfl⟩ | ⟨scope, hcounter, hbody⟩
      · exact .inl ⟨cause, .counter hbounds hrounds hlt hcause, rfl⟩
      · exact .inr (fails_of_enters (.count hbounds hrounds hlt hcounter) hinside hbody)
  | loopWhile place condition body =>
    obtain ⟨reached, hrounds, hend⟩ := repeatWhile_failed h
    have hrounds : ReflTransGen (WhileRound program limit condition body) frame reached :=
      ReflTransGen.mono (fun _ _ hround => ⟨hround.1, fuel, hround.2⟩) _ _ hrounds
    rcases hend with ⟨cause, hcause, rfl⟩ | ⟨hholds, hbody⟩
    · exact .inl ⟨cause, .whileCondition hrounds hcause, rfl⟩
    · exact .inr (fails_of_enters (.loopWhile hrounds hholds) hinside hbody)
  | loopUntil place condition body =>
    obtain ⟨reached, hrounds, hend⟩ := repeatUntil_failed h
    have hrounds : ReflTransGen (UntilRound program limit condition body) frame reached :=
      ReflTransGen.mono (fun _ _ hround => ⟨⟨fuel, hround.1⟩, hround.2⟩) _ _ hrounds
    rcases hend with hbody | ⟨after, cause, hdone, hcause, rfl⟩
    · exact .inr (fails_of_enters (.loopUntil hrounds) hinside hbody)
    · exact .inl ⟨cause, .untilCondition hrounds ⟨fuel, hdone⟩ hcause, rfl⟩
  | call place name arguments =>
    rcases Frame.call_failed.mp h with ⟨cause, hcause, rfl⟩ | ⟨f, values, hprepared, hcall | hstored⟩
    · exact .inl ⟨cause, .argument hcause, rfl⟩
    · cases fuel with
      | zero => cases hcall
      | succ less =>
        rcases Function.run_failed.mp hcall with ⟨cause, hrefuses, rfl⟩ | ⟨body, hadmits, hlocal | ⟨scope, hscope, hbody⟩⟩
        · exact .inl ⟨cause, .refused hprepared hrefuses, rfl⟩
        · obtain ⟨d, cause, hd, rfl⟩ := hlocal
          exact .inr ⟨.declaration d, cause, .declaration hprepared hadmits hd, rfl⟩
        · exact .inr (fails_of_enters (.call hprepared hadmits hscope) (fun t _ => hcallees less rfl t) hbody)
    · obtain ⟨slots, machine, cause, hdone, hcause, rfl⟩ := hstored
      exact .inl ⟨cause, .output hprepared ⟨fuel, hdone⟩ hcause, rfl⟩

/-- By induction on the steps, for the bodies of called functions, and inside that on the statement. -/
theorem traced (program : Program) (limit fuel : Nat) (s : Stmt) : s.Traced program limit fuel := by
  induction fuel using Nat.strong_induction_on generalizing s with
  | _ fuel ihFuel =>
    induction s using Stmt.inside_induction with
    | _ s ihInside =>
      intro frame fault h
      rw [execute_eq] at h
      obtain ⟨inner, hwork, rfl⟩ := Outcome.atLine_eq_failed.mp h
      have hcallees : ∀ less, fuel = less + 1 → ∀ t : Stmt, t.Traced program limit less :=
        fun less hless t => ihFuel less (by omega) t
      rcases fails_of_work ihInside hcallees hwork with ⟨cause, hown, rfl⟩ | ⟨origin, cause, hfails, rfl⟩
      · exact ⟨.statement s, cause, .own hown, rfl⟩
      · exact ⟨origin, cause, hfails, rfl⟩

end Stmt

/-! ### From the origin to the execution -/

/-- With enough steps a loop gets through its rounds and comes to its end. The number of rounds is counted on its own
here, since the acts of all rounds get the same steps. -/
theorem eventually_of_rounds {σ : Type} (loop : Nat → Nat → Act σ) {Round : σ → σ → Prop} {s u : σ} {outcome : Outcome}
    (hround : ∀ {a b}, Round a b → ∀ᶠ fuel in atTop, ∀ rounds, loop fuel (rounds + 1) a = loop fuel rounds b)
    (hrounds : ReflTransGen Round s u) (hend : ∀ᶠ fuel in atTop, ∀ rounds, (loop fuel (rounds + 1) u).1 = outcome) :
    ∀ᶠ fuel in atTop, (loop fuel fuel s).1 = outcome := by
  have hcounted : ∃ n, ∀ᶠ fuel in atTop, ∀ rounds, (loop fuel (rounds + n) s).1 = outcome := by
    induction hrounds using ReflTransGen.head_induction_on with
    | refl => exact ⟨1, hend⟩
    | head hab _ ih =>
      obtain ⟨n, hn⟩ := ih
      refine ⟨n + 1, ?_⟩
      filter_upwards [hround hab, hn] with fuel hfirst hrest rounds
      rw [← Nat.add_assoc, hfirst]
      exact hrest rounds
  obtain ⟨n, hn⟩ := hcounted
  filter_upwards [hn, eventually_ge_atTop n] with fuel hfuel hle
  have hsplit := hfuel (fuel - n)
  rwa [Nat.sub_add_cancel hle] at hsplit

theorem eventually_succ {P : Nat → Prop} (h : ∀ᶠ n in atTop, P n) : ∀ᶠ n in atTop, ∃ m, n = m + 1 ∧ P m := by
  obtain ⟨least, hleast⟩ := eventually_atTop.mp h
  filter_upwards [eventually_ge_atTop (least + 1)] with n hn
  exact ⟨n - 1, by omega, hleast _ (by omega)⟩

theorem Stmt.Completes.eventually {program : Program} {limit : Nat} {body : List Stmt} {before after : Frame}
    (h : Stmt.Completes program limit body before after) :
    ∀ᶠ fuel in atTop, Stmt.executeAll program limit body fuel before = (.done, after) := by
  obtain ⟨least, hleast⟩ := h
  filter_upwards [eventually_ge_atTop least] with fuel hle
  have hlonger : Stmt.Longer (· = .exhausted) (Function.run program limit least) (Function.run program limit fuel)
      least fuel :=
    ⟨Outcome.isCut_exhausted, Function.run_extends Outcome.isCut_exhausted program (.inl rfl) hle, hle⟩
  exact (Stmt.runAll_extends program hlonger body).of_done Outcome.isCut_exhausted hleast

theorem Function.Completes.eventually {program : Program} {limit : Nat} {f : Function} {before after : Call}
    (h : f.Completes program limit before after) :
    ∀ᶠ fuel in atTop, f.run program limit fuel before = (.done, after) := by
  obtain ⟨least, hleast⟩ := h
  filter_upwards [eventually_ge_atTop least] with fuel hle
  exact (Function.run_extends Outcome.isCut_exhausted program (.inl rfl) hle f).of_done Outcome.isCut_exhausted hleast

namespace Stmt

variable {program : Program} {limit : Nat} {frame entered reached : Frame} {s t : Stmt} {body : List Stmt}
  {cause : Cause} {fault : Fault}

theorem eventually_executeAll {before rest : List Stmt} (hbefore : Completes program limit before entered reached)
    (ht : ∀ᶠ fuel in atTop, (t.execute program limit fuel reached).1 = .failed fault) :
    ∀ᶠ fuel in atTop, (executeAll program limit (before ++ t :: rest) fuel entered).1 = .failed fault := by
  filter_upwards [hbefore.eventually, ht] with fuel hdone ht
  clear hbefore
  induction before generalizing entered with
  | nil =>
    cases hdone
    rw [List.nil_append, executeAll_cons, andThen_failed]
    exact .inl ht
  | cons s before ih =>
    rw [executeAll_cons] at hdone
    obtain ⟨next, hs, hrest⟩ := andThen_done hdone
    rw [List.cons_append, executeAll_cons, andThen_failed]
    exact .inr ⟨next, hs, ih hrest⟩

/-- The rounds that a counting loop has behind it make no difference to how it ends. -/
theorem eventually_countFrom {counter : String} {last : Int32} {start stop : Int32 × Frame}
    (hrounds : ReflTransGen (CountRound program limit counter last body) start stop) :
    ∀ᶠ fuel in atTop, Frame.countFrom counter (executeAll program limit body fuel) last start.1 start.2 =
      Frame.countFrom counter (executeAll program limit body fuel) last stop.1 stop.2 := by
  induction hrounds with
  | refl => exact .of_forall fun _ => rfl
  | tail _ hround ih =>
    cases hround with
    | mk hlt hcounter hbody =>
      filter_upwards [ih, hbody.eventually] with fuel hbefore hfuel
      rw [hbefore, Frame.countFrom_of_lt _ _ hlt]
      exact andThen_of_done ((andThen_of_done (Frame.onScope_ok hcounter)).trans hfuel)

theorem eventually_while {condition : Expr}
    (hrounds : ReflTransGen (WhileRound program limit condition body) frame reached)
    (hend : ∀ᶠ fuel in atTop, ∀ rounds, (repeatWhile (fun frame => condition.evalCondition frame.scope)
      (executeAll program limit body fuel) (rounds + 1) reached).1 = .failed fault) :
    ∀ᶠ fuel in atTop, (repeatWhile (fun frame => condition.evalCondition frame.scope)
      (executeAll program limit body fuel) fuel frame).1 = .failed fault := by
  refine eventually_of_rounds (fun fuel rounds => repeatWhile (fun frame => condition.evalCondition frame.scope)
    (executeAll program limit body fuel) rounds) ?_ hrounds hend
  rintro a b ⟨hholds, hbody⟩
  filter_upwards [hbody.eventually] with fuel hfuel rounds
  simp only [repeatWhile, hholds, hfuel]

theorem eventually_until {condition : Expr}
    (hrounds : ReflTransGen (UntilRound program limit condition body) frame reached)
    (hend : ∀ᶠ fuel in atTop, ∀ rounds, (repeatUntil (fun frame => condition.evalCondition frame.scope)
      (executeAll program limit body fuel) (rounds + 1) reached).1 = .failed fault) :
    ∀ᶠ fuel in atTop, (repeatUntil (fun frame => condition.evalCondition frame.scope)
      (executeAll program limit body fuel) fuel frame).1 = .failed fault := by
  refine eventually_of_rounds (fun fuel rounds => repeatUntil (fun frame => condition.evalCondition frame.scope)
    (executeAll program limit body fuel) rounds) ?_ hrounds hend
  rintro a b ⟨hbody, hgoesOn⟩
  filter_upwards [hbody.eventually] with fuel hfuel rounds
  simp only [repeatUntil, hfuel, hgoesOn]

theorem OwnFailure.eventually (h : s.OwnFailure program limit frame cause) :
    ∀ᶠ fuel in atTop, (s.work program limit fuel frame).1 = .failed (.of cause) := by
  cases h with
  | operand h => exact .of_forall fun _ => withValue_failed.mpr (.inl ⟨cause, h, rfl⟩)
  | store hvalue h =>
    exact .of_forall fun _ => withValue_failed.mpr (.inr ⟨_, hvalue, Frame.onScope_failed.mpr ⟨cause, h, rfl⟩⟩)
  | condition h =>
    obtain ⟨before, condition, body, more, after, hlinks, hbefore, hcause⟩ := h
    refine .of_forall fun fuel => ?_
    rw [work, hlinks, Chain.runLinks_passed hbefore, Chain.runLinks]
    exact withValue_failed.mpr (.inl ⟨cause, hcause, rfl⟩)
  | bounds h => exact .of_forall fun _ => withValue_failed.mpr (.inl ⟨cause, h, rfl⟩)
  | counter hbounds hrounds hlt h =>
    filter_upwards [eventually_countFrom hrounds] with fuel hfuel
    refine withValue_failed.mpr (.inr ⟨_, hbounds, ?_⟩)
    refine (congrArg Prod.fst hfuel).trans ?_
    rw [Frame.countFrom_of_lt _ _ hlt]
    exact andThen_failed.mpr (.inl (andThen_failed.mpr (.inl (Frame.onScope_failed.mpr ⟨cause, h, rfl⟩))))
  | whileCondition hrounds h =>
    exact eventually_while hrounds (.of_forall fun _ _ => by simp only [repeatWhile, h])
  | untilCondition hrounds hbody h =>
    refine eventually_until hrounds ?_
    filter_upwards [hbody.eventually] with fuel hfuel rounds
    simp only [repeatUntil, hfuel, h]
  | argument h => exact .of_forall fun _ => Frame.call_failed.mpr (.inl ⟨cause, h, rfl⟩)
  | refused hprepared h =>
    filter_upwards [eventually_ge_atTop 1] with fuel hfuel
    obtain ⟨less, rfl⟩ := Nat.exists_eq_add_of_le' hfuel
    exact Frame.call_failed.mpr (.inr ⟨_, _, hprepared, .inl (Function.run_failed.mpr (.inl ⟨cause, h, rfl⟩))⟩)
  | output hprepared hcall h =>
    filter_upwards [hcall.eventually] with fuel hfuel
    exact Frame.call_failed.mpr (.inr ⟨_, _, hprepared, .inr ⟨_, _, cause, hfuel, h, rfl⟩⟩)

/-- What fails in a body that a statement comes to run makes the work of the statement fail. -/
theorem Enters.eventually (h : s.Enters program limit frame body entered)
    (hbody : ∀ᶠ fuel in atTop, (executeAll program limit body fuel entered).1 = .failed fault) :
    ∀ᶠ fuel in atTop, (s.work program limit fuel frame).1 = .failed fault := by
  cases h with
  | branch h =>
    obtain ⟨before, condition, more, after, hlinks, hbefore, hholds⟩ := h
    filter_upwards [hbody] with fuel hfuel
    rw [work, hlinks, Chain.runLinks_passed hbefore, Chain.runLinks_selected hholds]
    exact hfuel
  | count hbounds hrounds hlt hcounter =>
    filter_upwards [eventually_countFrom hrounds, hbody] with fuel hfuel hfailed
    refine withValue_failed.mpr (.inr ⟨_, hbounds, ?_⟩)
    refine (congrArg Prod.fst hfuel).trans ?_
    rw [Frame.countFrom_of_lt _ _ hlt]
    exact andThen_failed.mpr (.inl (andThen_failed.mpr (.inr ⟨_, Frame.onScope_ok hcounter, hfailed⟩)))
  | loopWhile hrounds hcondition =>
    refine eventually_while hrounds ?_
    filter_upwards [hbody] with fuel hfuel rounds
    rw [repeatWhile_succ, withValue_failed]
    exact .inr ⟨true, hcondition, andThen_failed.mpr (.inl hfuel)⟩
  | loopUntil hrounds =>
    refine eventually_until hrounds ?_
    filter_upwards [hbody] with fuel hfuel rounds
    rw [repeatUntil_succ]
    exact andThen_failed.mpr (.inl hfuel)
  | call hprepared hadmits hscope =>
    filter_upwards [eventually_succ hbody] with fuel hfuel
    obtain ⟨less, rfl, hless⟩ := hfuel
    have hcall := Function.run_failed.mpr (.inr ⟨body, hadmits, .inr ⟨_, hscope, hless⟩⟩)
    exact Frame.call_failed.mpr (.inr ⟨_, _, hprepared, .inl hcall⟩)

/-- A failure that has a line leaves the statements around it as it is. -/
theorem execute_of_placed {fuel line : Nat} (h : (s.work program limit fuel frame).1 = .failed ⟨cause, some line⟩) :
    (s.execute program limit fuel frame).1 = .failed ⟨cause, some line⟩ := by
  rw [execute_eq]
  exact Outcome.atLine_eq_failed.mpr ⟨_, h, rfl⟩

theorem Fails.eventually {origin : Origin} (h : s.Fails program limit frame origin cause) :
    ∀ᶠ fuel in atTop, (s.execute program limit fuel frame).1 = .failed ⟨cause, some origin.line⟩ := by
  induction h with
  | own h =>
    filter_upwards [h.eventually] with fuel hfuel
    rw [execute_eq]
    exact Outcome.atLine_eq_failed.mpr ⟨_, hfuel, rfl⟩
  | declaration hprepared hadmits h =>
    filter_upwards [eventually_ge_atTop 1] with fuel hfuel
    obtain ⟨less, rfl⟩ := Nat.exists_eq_add_of_le' hfuel
    refine execute_of_placed (Frame.call_failed.mpr (.inr ⟨_, _, hprepared, .inl ?_⟩))
    exact Function.run_failed.mpr (.inr ⟨_, hadmits, .inl ⟨_, _, h, rfl⟩⟩)
  | inside hreaches _ ih =>
    obtain ⟨before, rest, entered, henters, hbefore⟩ := hreaches
    filter_upwards [henters.eventually (eventually_executeAll hbefore ih)] with fuel hfuel
    exact execute_of_placed hfuel

/-- A statement fails in an execution exactly when its own work or something inside fails, and then on the line of
that. -/
theorem failed_iff : (∃ fuel, (s.execute program limit fuel frame).1 = .failed fault) ↔
    ∃ origin cause, s.Fails program limit frame origin cause ∧ fault = ⟨cause, some origin.line⟩ := by
  constructor
  · rintro ⟨fuel, h⟩
    exact traced program limit fuel s h
  · rintro ⟨origin, cause, h, rfl⟩
    exact h.eventually.exists

end Stmt

/-! ### Origins lie in the program -/

/-- The statements of a program and its local declarations. -/
def Origin.OccursIn (program : Program) : Origin → Prop
  | statement s => program.Has s
  | declaration d => ∃ f ∈ program.functions, d ∈ f.locals

theorem Program.mem_of_function? {program : Program} {name : String} {f : Function} {body : List Stmt}
    (h : program.function? name = some f) (hbody : f.body = .user body) : f ∈ program.functions := by
  unfold Program.function? at h
  split at h
  · rename_i found hfound
    obtain rfl := Option.some.inj h
    exact List.mem_of_find?_eq_some hfound
  · obtain ⟨b, -, rfl⟩ := Option.map_eq_some_iff.mp h
    cases hbody

theorem Frame.function?_of_prepared {program : Program} {name : String} {arguments : List Argument} {scope : Scope}
    {f : Function} {values : List Value} (h : Frame.prepared program name arguments scope = .ok (f, values)) :
    program.function? name = some f := by
  unfold Frame.prepared at h
  split at h
  · cases h
  · rename_i found hfound
    obtain ⟨-, -, h⟩ := bind_eq_ok.mp h
    obtain ⟨_, -, h⟩ := bind_eq_ok.mp h
    cases h
    exact hfound

namespace Stmt

variable {program : Program} {limit : Nat} {frame entered reached : Frame} {s t : Stmt} {body : List Stmt}

theorem Enters.has (h : s.Enters program limit frame body entered) (hs : program.Has s) (ht : t ∈ body) :
    program.Has t := by
  cases h with
  | branch h =>
    obtain ⟨before, condition, more, after, hlinks, -, -⟩ := h
    refine .inside hs ?_
    rw [inside, hlinks]
    simp [ht]
  | count | loopWhile | loopUntil => exact .inside hs ht
  | call hprepared hadmits =>
    exact .body (Program.mem_of_function? (Frame.function?_of_prepared hprepared) hadmits.user) hadmits.user ht

theorem Fails.occursIn {origin : Origin} {cause : Cause} (h : s.Fails program limit frame origin cause)
    (hs : program.Has s) : origin.OccursIn program := by
  induction h with
  | own => exact hs
  | declaration hprepared hadmits h =>
    obtain ⟨before, after, scope, hlocals, -⟩ := h
    refine ⟨_, Program.mem_of_function? (Frame.function?_of_prepared hprepared) hadmits.user, ?_⟩
    exact List.mem_of_mem_filter (hlocals ▸ List.mem_append_right before List.mem_cons_self)
  | inside hreaches _ ih =>
    obtain ⟨before, rest, entered, henters, -⟩ := hreaches
    exact ih (henters.has hs (by simp))

end Stmt

/-- A user function without parameters that there is room for fails in its body or in a local declaration. -/
theorem Function.failed_occursIn {program : Program} {limit fuel : Nat} {f : Function} {machine : Machine} {fault : Fault}
    {body : List Stmt} (hf : f ∈ program.functions) (hbody : f.body = .user body) (hnone : f.parameters = [])
    (hroom : machine.depth < limit) (h : (f.run program limit fuel ⟨[], machine⟩).1 = .failed fault) :
    ∃ (origin : Origin) (cause : Cause), origin.OccursIn program ∧ fault = ⟨cause, some origin.line⟩ := by
  have htakes : f.takes 0 = true := by simp [Function.takes, Function.arity, hbody, hnone]
  cases fuel with
  | zero => cases h
  | succ fuel =>
    have hadmits : f.Admits limit ⟨[], machine⟩ body := ⟨htakes, hbody, hroom⟩
    rw [Function.run_admitted hadmits, Function.scopeFor_eq_error] at h
    rcases h with (⟨d, cause, ⟨before, after, scope, hlocals, -⟩, rfl⟩ | ⟨cause, ⟨scope, -, hpassed⟩, -⟩) |
      ⟨scope, -, hran⟩
    · exact ⟨.declaration d, cause, ⟨f, hf, List.mem_of_mem_filter (hlocals ▸ List.mem_append_right before
        List.mem_cons_self)⟩, rfl⟩
    · rw [hnone] at hpassed
      cases hpassed
    · obtain ⟨before, s, rest, reached, rfl, -, hs⟩ := Stmt.executeAll_failed hran
      obtain ⟨origin, cause, hfails, rfl⟩ := Stmt.traced program limit fuel s hs
      exact ⟨origin, cause, hfails.occursIn (.body hf hbody (by simp)), rfl⟩

theorem Session.callAll_failed {program : Program} {limit fuel : Nat} {fs : List Function} {machine : Machine}
    {fault : Fault} (hfs : ∀ f ∈ fs, f ∈ program.functions ∧ f.parameters = [] ∧ ∃ body, f.body = .user body)
    (hroom : machine.depth < limit) (h : (callAll program limit fuel fs machine).1 = .failed fault) :
    ∃ (origin : Origin) (cause : Cause), origin.OccursIn program ∧ fault = ⟨cause, some origin.line⟩ := by
  induction fs generalizing machine with
  | nil => cases h
  | cons f fs ih =>
    obtain ⟨⟨hf, hnone, body, hbody⟩, hfs⟩ := List.forall_mem_cons.mp hfs
    -- The next function finds as many calls under way as this one did.
    have hdepth := Function.run_sameDepth program limit fuel f ⟨[], machine⟩
    rw [callAll] at h
    split at h
    · rename_i slots next hdone
      rw [hdone] at hdepth
      exact ih hfs (by rw [show next.depth = machine.depth from hdepth]; exact hroom) h
    · rename_i stopped slots next _ hstopped
      exact Function.failed_occursIn hf hbody hnone hroom (by rw [hstopped]; exact h)

/-- The functions that run when a program has no entry are user functions without parameters. -/
theorem Program.mem_filter_parameters {ls : List Lexeme} {program : Program} (h : Program.ofLexemes ls = .ok program)
    {f : Function} (hf : f ∈ program.functions.filter (·.parameters.isEmpty)) :
    f ∈ program.functions ∧ f.parameters = [] ∧ ∃ body, f.body = .user body := by
  obtain ⟨hmem, hempty⟩ := List.mem_filter.mp hf
  obtain ⟨body, -, hbody, -⟩ := Program.isDerived_ofLexemes h f hmem
  exact ⟨hmem, List.isEmpty_iff.mp hempty, body, hbody⟩

/-- The end of a run: that of the calls, and if these are done that of the flush. -/
theorem Session.run_cases {program : Program} {settings : Settings} {machine : Machine} {fuel : Nat} {outcome : Outcome}
    {after : Session} (h : Session.run fuel ⟨program, settings, machine⟩ = (outcome, after)) :
    ((execute program settings fuel machine).1 = .done ∧ outcome = .ofExcept after.machine.host.flush) ∨
      (execute program settings fuel machine).1 = outcome := by
  rcases hexecuted : execute program settings fuel machine with ⟨ended, left⟩
  simp only [Session.run, hexecuted, Prod.mk.injEq] at h
  obtain ⟨rfl, rfl⟩ := h
  cases ended with
  | done => exact .inl ⟨rfl, rfl⟩
  | failed | exhausted => exact .inr rfl

/-- A fault has the line of what failed: of the innermost statement whose own work did, or of the local declaration that
could not be bound. No statement around it changes the fault. So a program that is read and run as a whole is done,
cannot be flushed, or fails on the line of a statement or a local declaration of it. -/
theorem Program.fault_line (program : Program) (limit : Nat) :
    (∀ (s : Stmt) (frame : Frame) (fault : Fault),
      (∃ fuel, (s.execute program limit fuel frame).1 = .failed fault) ↔
        ∃ origin cause, s.Fails program limit frame origin cause ∧ fault = ⟨cause, some origin.line⟩) ∧
    (∀ (s t : Stmt) (frame reached : Frame) (fuel : Nat) (fault : Fault), s.Reaches program limit frame t reached →
      (t.execute program limit fuel reached).1 = .failed fault →
        ∃ more, (s.execute program limit more frame).1 = .failed fault) ∧
    ∀ ls, Program.ofLexemes ls = .ok program → 1 ≤ limit →
      ∀ seed host outcome after, (Session.start program ⟨none, seed, limit⟩ host).Ends outcome after →
        outcome = .done ∨ (∃ cause, outcome = .failed (.of cause) ∧ after.machine.host.flush = .error cause) ∨
          ∃ (origin : Origin) (cause : Cause), origin.OccursIn program ∧
            outcome = .failed ⟨cause, some origin.line⟩ := by
  refine ⟨fun _ _ _ => Stmt.failed_iff, ?_, ?_⟩
  · intro s t frame reached fuel fault hreaches ht
    obtain ⟨origin, cause, hfails, rfl⟩ := Stmt.failed_iff.mp ⟨fuel, ht⟩
    exact Stmt.failed_iff.mpr ⟨origin, cause, .inside hreaches hfails, rfl⟩
  · rintro ls hread hlimit seed host outcome after ⟨hended, fuel, hrun⟩
    obtain ⟨machine, hstart, hdepth⟩ : ∃ machine,
        Session.start program ⟨none, seed, limit⟩ host = ⟨program, ⟨none, seed, limit⟩, machine⟩ ∧ machine.depth = 0 := by
      cases seed <;> exact ⟨_, rfl, rfl⟩
    rw [hstart] at hrun
    rcases Session.run_cases hrun with ⟨-, rfl⟩ | hexecuted
    · cases hflush : after.machine.host.flush with
      | ok => exact .inl rfl
      | error cause => exact .inr (.inl ⟨cause, rfl, rfl⟩)
    · cases outcome with
      | done => exact .inl rfl
      | exhausted => exact absurd rfl hended
      | failed fault =>
        have hroom : machine.depth < limit := by omega
        obtain ⟨origin, cause, hoccurs, rfl⟩ :=
          Session.callAll_failed (fun _ hf => Program.mem_filter_parameters hread hf) hroom hexecuted
        exact .inr (.inr ⟨origin, cause, hoccurs, rfl⟩)

/-- The divisor is zero in a branch of a loop of a called function. -/
def shareSource : String :=
  Stmt.joinRows [
    "define main()",
    "    share 0",
    "define share(parts: integer)",
    "    variables each: integer",
    "    while each = 0",
    "        if parts < 1 then",
    "            each := 12 / parts"]

/-- The fault with which a run of a program fails, by its kind and line. -/
def Example.faultOf (p : Program) : Option (FaultKind × Option Nat) :=
  match ((Session.start p ⟨none, none, 3⟩ (.start (.ofText "") (.ofSeed 0))).run 20).1 with
  | .failed fault => some (fault.cause.kind, fault.line)
  | _ => none

/-- A division by zero in the body of a chain. -/
def Example.guarded : Stmt :=
  .branch ⟨⟨0, 0⟩, 1⟩ (.last none [.assign ⟨⟨0, 0⟩, 2⟩ (.named "x")
    (.arithmetic .divide (.literal (.integer 1)) (.literal (.integer 0)))])

theorem Program.fault_line_share :
    (∃ ls p fault after, lexemes shareSource = .ok ls ∧ Program.ofLexemes ls = .ok p ∧
      (Session.start p ⟨none, none, 3⟩ (.start (.ofText "") (.ofSeed 0))).Ends (.failed fault) after ∧
      fault.cause.kind = .divisionByZero ∧ ∃ origin : Origin, origin.OccursIn p ∧ origin.line = 7) ∧
    ∀ frame, (∃ more, (Example.guarded.execute .empty 1 more frame).1 = .failed ⟨.divisionByZero, some 2⟩) ∧
      ∃ origin, Example.guarded.Fails .empty 1 frame origin .divisionByZero ∧ origin.line = 2 := by
  constructor
  · obtain ⟨ls, p, hls, hp, hfault⟩ : ∃ ls p, lexemes shareSource = .ok ls ∧ Program.ofLexemes ls = .ok p ∧
        Example.faultOf p = some (.divisionByZero, some 7) :=
      exists_program (by decide +kernel)
    unfold Example.faultOf at hfault
    split at hfault
    · rename_i fault hrun
      obtain ⟨hkind, hline⟩ := Prod.mk.inj (Option.some.inj hfault)
      have hends : (Session.start p ⟨none, none, 3⟩ (.start (.ofText "") (.ofSeed 0))).Ends (.failed fault) _ :=
        ⟨nofun, 20, Prod.ext hrun rfl⟩
      refine ⟨ls, p, fault, _, hls, hp, hends, hkind, ?_⟩
      rcases (Program.fault_line p 3).2.2 ls hp (by decide) _ _ _ _ hends with hdone | ⟨cause, hflush, -⟩ | hplaced
      · cases hdone
      · cases hflush
        cases hline
      · obtain ⟨origin, cause, hoccurs, heq⟩ := hplaced
        cases heq
        exact ⟨origin, hoccurs, Option.some.inj hline⟩
    · cases hfault
  · intro frame
    have hreaches : Example.guarded.Reaches .empty 1 frame (.assign ⟨⟨0, 0⟩, 2⟩ (.named "x")
        (.arithmetic .divide (.literal (.integer 1)) (.literal (.integer 0)))) frame :=
      ⟨[], [], frame, .branch ⟨[], none, false, [], rfl, nofun, nofun⟩, 0, rfl⟩
    have hfails := (Program.fault_line .empty 1).2.1 _ _ _ _ 0 ⟨.divisionByZero, some 2⟩ hreaches rfl
    obtain ⟨origin, cause, hguarded, heq⟩ := ((Program.fault_line .empty 1).1 _ _ _).mp hfails
    obtain ⟨rfl, hline⟩ := Fault.mk.inj heq
    exact ⟨hfails, origin, hguarded, (Option.some.inj hline).symm⟩

end Offside
