import Mathlib.Logic.Relation
import Offside.Proofs.CutOff

/-!
# How executions fail

A failure of a combined act is a failure of one of its parts, after the parts before it are done. For loops these are
some rounds that are done and then a condition, a counter or a body that fails; for a call, what it takes to let it in,
the scope that is set up and the body. What comes without a line is told apart from what has one.
-/

namespace Offside

open Act Relation

@[simp] theorem Outcome.atLine_eq_failed {line : Nat} {outcome : Outcome} {fault : Fault} :
    outcome.atLine line = .failed fault ↔ ∃ inner, outcome = .failed inner ∧ fault = inner.atLine line := by
  cases outcome <;> simp [atLine, eq_comm]

@[simp] theorem Outcome.ofExcept_eq_failed {ended : Except Cause Unit} {fault : Fault} :
    ofExcept ended = .failed fault ↔ ∃ cause, ended = .error cause ∧ fault = .of cause := by
  cases ended <;> simp [ofExcept, eq_comm]

namespace Act

variable {σ α : Type} {fault : Fault} {s : σ}

theorem andThen_failed {first second : Act σ} : (first.andThen second s).1 = .failed fault ↔
    (first s).1 = .failed fault ∨ ∃ t, first s = (.done, t) ∧ (second t).1 = .failed fault := by
  unfold andThen
  rcases first s with ⟨outcome, t⟩
  cases outcome <;> simp

theorem andThen_of_done {first second : Act σ} {t : σ} (h : first s = (.done, t)) :
    first.andThen second s = second t := by
  rw [andThen, h]

theorem andThen_done {first second : Act σ} {u : σ} (h : first.andThen second s = (.done, u)) :
    ∃ t, first s = (.done, t) ∧ second t = (.done, u) := by
  unfold andThen at h
  split at h
  · rename_i t hfirst
    exact ⟨t, hfirst, h⟩
  · rename_i hstopped
    exact absurd h (hstopped u)

theorem atLine_done {act : Act σ} {line : Nat} {t : σ} (h : act.atLine line s = (.done, t)) : act s = (.done, t) := by
  rw [atLine] at h
  rcases hact : act s with ⟨outcome, u⟩
  rw [hact] at h
  cases outcome with
  | done => exact h
  | failed | exhausted => cases h

/-- A failure that has a line keeps it. -/
theorem atLine_atLine (outer inner : Nat) (act : Act σ) : (act.atLine inner).atLine outer = act.atLine inner := by
  funext s
  unfold Act.atLine
  rcases act s with ⟨outcome, t⟩
  cases outcome with
  | failed fault => simp [Outcome.atLine]
  | done | exhausted => rfl

theorem atLine_andThen (line : Nat) (first second : Act σ) :
    (first.andThen second).atLine line = (first.atLine line).andThen (second.atLine line) := by
  funext s
  rcases hfirst : first s with ⟨outcome, t⟩
  cases outcome <;> simp [Act.andThen, Act.atLine, hfirst, Outcome.atLine]

theorem withValue_failed {value : σ → Except Cause α} {next : α → Act σ} : (withValue value next s).1 = .failed fault ↔
    (∃ cause, value s = .error cause ∧ fault = .of cause) ∨ ∃ a, value s = .ok a ∧ (next a s).1 = .failed fault := by
  unfold withValue
  cases value s <;> simp [eq_comm]

variable {condition : σ → Except Cause Bool} {act : Act σ}

/-- A loop fails after some rounds: when its condition is asked, or in its body. -/
theorem repeatWhile_failed {fuel : Nat} (h : (repeatWhile condition act fuel s).1 = .failed fault) :
    ∃ u, ReflTransGen (fun a b => condition a = .ok true ∧ act a = (.done, b)) s u ∧
      ((∃ cause, condition u = .error cause ∧ fault = .of cause) ∨
        condition u = .ok true ∧ (act u).1 = .failed fault) := by
  induction fuel generalizing s with
  | zero => cases h
  | succ fuel ih =>
    rw [repeatWhile_succ, withValue_failed] at h
    rcases h with hasked | ⟨holds, hholds, h⟩
    · exact ⟨s, .refl, .inl hasked⟩
    · cases holds with
      | false => cases h
      | true =>
        rcases andThen_failed.mp h with hbody | ⟨t, hdone, h⟩
        · exact ⟨s, .refl, .inr ⟨hholds, hbody⟩⟩
        · obtain ⟨u, hrounds, hu⟩ := ih h
          exact ⟨u, .head ⟨hholds, hdone⟩ hrounds, hu⟩

theorem repeatUntil_failed {fuel : Nat} (h : (repeatUntil condition act fuel s).1 = .failed fault) :
    ∃ u, ReflTransGen (fun a b => act a = (.done, b) ∧ condition b = .ok false) s u ∧
      ((act u).1 = .failed fault ∨
        ∃ t cause, act u = (.done, t) ∧ condition t = .error cause ∧ fault = .of cause) := by
  induction fuel generalizing s with
  | zero => cases h
  | succ fuel ih =>
    rw [repeatUntil_succ, andThen_failed] at h
    rcases h with hbody | ⟨t, hdone, h⟩
    · exact ⟨s, .refl, .inl hbody⟩
    · rcases withValue_failed.mp h with ⟨cause, hcause, rfl⟩ | ⟨holds, hholds, h⟩
      · exact ⟨s, .refl, .inr ⟨t, cause, hdone, hcause, rfl⟩⟩
      · cases holds with
        | true => cases h
        | false =>
          obtain ⟨u, hrounds, hu⟩ := ih h
          exact ⟨u, .head ⟨hdone, hholds⟩ hrounds, hu⟩

end Act

namespace Frame

variable {fault : Fault} {frame : Frame}

theorem onScope_failed {change : Scope → Except Cause Unit × Scope} : (onScope change frame).1 = .failed fault ↔
    ∃ cause, (change frame.scope).1 = .error cause ∧ fault = .of cause :=
  Outcome.ofExcept_eq_failed

theorem onScope_done {change : Scope → Except Cause Unit × Scope} {after : Frame}
    (h : onScope change frame = (.done, after)) :
    ∃ scope, change frame.scope = (.ok (), scope) ∧ after = ⟨scope, frame.machine⟩ := by
  obtain ⟨scope, machine⟩ := frame
  rw [onScope] at h
  rcases hchange : change scope with ⟨ended, changed⟩
  rw [hchange] at h
  cases ended with
  | error cause => cases h
  | ok => exact ⟨changed, rfl, (Prod.mk.inj h).2.symm⟩

theorem onScope_ok {change : Scope → Except Cause Unit × Scope} {scope : Scope}
    (h : change frame.scope = (.ok (), scope)) : onScope change frame = (.done, ⟨scope, frame.machine⟩) := by
  rw [onScope, h]
  rfl

/-- The rest of a counting loop, from the number `i` on. -/
def countFrom (counter : String) (body : Act Frame) (last i : Int32) : Act Frame :=
  .repeatFor (fun i => .andThen (onScope fun scope => scope.assign counter (.integer i)) body)
    (last.toInt - i.toInt).toNat i

theorem toInt_succ {last i : Int32} (h : i < last) : (i + 1).toInt = i.toInt + 1 := by
  have hlt : i.toInt < last.toInt := Int32.lt_iff_toInt_lt.mp h
  have hlow := i.le_toInt
  have hhigh := last.toInt_lt
  rw [Int32.toInt_add]
  exact Int.bmod_eq_of_le (by simp; omega) (by simp; omega)

theorem countFrom_of_lt (counter : String) (body : Act Frame) {last i : Int32} (h : i < last) :
    countFrom counter body last i =
      .andThen (.andThen (onScope fun scope => scope.assign counter (.integer i)) body)
        (countFrom counter body last (i + 1)) := by
  have hlt : i.toInt < last.toInt := Int32.lt_iff_toInt_lt.mp h
  have hnext := toInt_succ h
  have hcount : (last.toInt - i.toInt).toNat = (last.toInt - (i + 1).toInt).toNat + 1 := by omega
  unfold countFrom
  rw [hcount]
  rfl

/-- A counting loop fails after some rounds: when a number is stored in its counter, or in its body. -/
theorem countFrom_failed {counter : String} {body : Act Frame} {last i : Int32}
    (h : (countFrom counter body last i frame).1 = .failed fault) :
    ∃ j reached, ReflTransGen (fun a b : Int32 × Frame => a.1 < last ∧ b.1 = a.1 + 1 ∧ ∃ scope,
        a.2.scope.assign counter (.integer a.1) = (.ok (), scope) ∧ body ⟨scope, a.2.machine⟩ = (.done, b.2))
        (i, frame) (j, reached) ∧ j < last ∧
      ((∃ cause, (reached.scope.assign counter (.integer j)).1 = .error cause ∧ fault = .of cause) ∨
        ∃ scope, reached.scope.assign counter (.integer j) = (.ok (), scope) ∧
          (body ⟨scope, reached.machine⟩).1 = .failed fault) := by
  induction hn : (last.toInt - i.toInt).toNat generalizing i frame with
  | zero =>
    rw [countFrom, hn] at h
    cases h
  | succ n ih =>
    have hlt : i < last := Int32.lt_iff_toInt_lt.mpr (by omega)
    have hrest : (last.toInt - (i + 1).toInt).toNat = n := by
      rw [toInt_succ hlt]
      omega
    rw [countFrom_of_lt counter body hlt, andThen_failed] at h
    rcases h with hround | ⟨next, hround, h⟩
    · rw [andThen_failed, onScope_failed] at hround
      refine ⟨i, frame, .refl, hlt, hround.imp_right ?_⟩
      rintro ⟨t, hstored, hbody⟩
      obtain ⟨scope, hscope, rfl⟩ := onScope_done hstored
      exact ⟨scope, hscope, hbody⟩
    · obtain ⟨t, hstored, hbody⟩ := andThen_done hround
      obtain ⟨scope, hscope, rfl⟩ := onScope_done hstored
      obtain ⟨j, reached, hrounds, hj⟩ := ih h hrest
      exact ⟨j, reached, .head ⟨hlt, rfl, scope, hscope, hbody⟩ hrounds, hj⟩

variable {program : Program} {invoke : Function → Act Call} {name : String} {arguments : List Argument}

theorem call_failed : (Frame.call program invoke name arguments frame).1 = .failed fault ↔
    (∃ cause, prepared program name arguments frame.scope = .error cause ∧ fault = .of cause) ∨
      ∃ f values, prepared program name arguments frame.scope = .ok (f, values) ∧
        ((invoke f ⟨values, frame.machine⟩).1 = .failed fault ∨
          ∃ slots machine cause, invoke f ⟨values, frame.machine⟩ = (.done, ⟨slots, machine⟩) ∧
            (frame.scope.storeOutputs f 0 arguments slots).1 = .error cause ∧ fault = .of cause) := by
  obtain ⟨scope, machine⟩ := frame
  rw [call_eq]
  cases prepared program name arguments scope with
  | error cause => simp [eq_comm]
  | ok prepared =>
    obtain ⟨f, values⟩ := prepared
    rcases hcall : invoke f ⟨values, machine⟩ with ⟨outcome, slots, after⟩
    dsimp only
    rw [hcall]
    constructor
    · intro h
      cases outcome with
      | done =>
        obtain ⟨cause, hcause, rfl⟩ := onScope_failed.mp h
        exact .inr ⟨f, values, rfl, .inr ⟨slots, after, cause, hcall, hcause, rfl⟩⟩
      | failed inner => exact .inr ⟨f, values, rfl, .inl (by rw [hcall]; exact h)⟩
      | exhausted => cases h
    · rintro (⟨_, hother, _⟩ | ⟨f, values, hother, hend⟩)
      · cases hother
      · cases hother
        rw [hcall] at hend
        rcases hend with hfailed | ⟨slots, machine, cause, hdone, hcause, rfl⟩
        · obtain rfl : outcome = .failed fault := hfailed
          rfl
        · cases hdone
          exact onScope_failed.mpr ⟨cause, hcause, rfl⟩

end Frame

/-! ### Statements -/

namespace Stmt

variable {program : Program} {invoke : Function → Act Call} {fuel : Nat}

/-- A statement places every failure, so that no line around it counts. -/
theorem run_atLine (line : Nat) (s : Stmt) : (s.run program invoke fuel).atLine line = s.run program invoke fuel := by
  cases s with
  | _ =>
    rw [Stmt.run]
    exact atLine_atLine _ _ _

theorem runAll_atLine (line : Nat) (body : List Stmt) :
    (Stmt.runAll program invoke fuel body).atLine line = Stmt.runAll program invoke fuel body := by
  induction body with
  | nil =>
    rw [Stmt.runAll]
    rfl
  | cons s rest ih => rw [Stmt.runAll, atLine_andThen, run_atLine, ih]

/-- So a failure among statements has a line. -/
theorem runAll_placed {body : List Stmt} {frame : Frame} {fault : Fault}
    (h : (Stmt.runAll program invoke fuel body frame).1 = .failed fault) (cause : Cause) : fault ≠ .of cause := by
  rintro rfl
  have hline : ((Stmt.runAll program invoke fuel body).atLine 0 frame).1 = .failed (.of cause) := by
    rw [runAll_atLine, h]
  obtain ⟨inner, hinner, hplaced⟩ := Outcome.atLine_eq_failed.mp hline
  cases h.symm.trans hinner
  cases hplaced

end Stmt

/-! ### Chains -/

namespace Chain

/-- The conditions of these links are asked and do not hold. -/
def Passed (scope : Scope) (links : List (Option Expr × List Stmt × Bool)) : Prop :=
  ∀ link ∈ links, ∃ condition, link.1 = some condition ∧ condition.evalCondition scope = .ok false

variable {fault : Fault} {frame : Frame}

/-- The links of a chain in turn, up to the first whose body is run. -/
def runLinks (run : List Stmt → Act Frame) : List (Option Expr × List Stmt × Bool) → Act Frame
  | [] => .skip
  | (none, body, _) :: _ => run body
  | (some condition, body, _) :: rest =>
    .withValue (fun frame => condition.evalCondition frame.scope) fun holds =>
      if holds then run body else runLinks run rest

theorem run_eq_runLinks (program : Program) (invoke : Function → Act Call) (fuel : Nat) (chain : Chain) :
    chain.run program invoke fuel = runLinks (Stmt.runAll program invoke fuel) chain.links := by
  cases chain with
  | last condition body =>
    cases condition with
    | none => rw [Chain.run, links, runLinks]
    | some condition => rw [Chain.run, links, runLinks, runLinks]
  | link condition body next =>
    have hnext := run_eq_runLinks program invoke fuel next
    cases condition with
    | none => rw [Chain.run, links, runLinks]
    | some condition => rw [Chain.run, links, runLinks, hnext]

variable {run : List Stmt → Act Frame} {before after : List (Option Expr × List Stmt × Bool)}
  {condition : Option Expr} {body : List Stmt} {more : Bool}

theorem runLinks_passed (h : Passed frame.scope before) :
    runLinks run (before ++ after) frame = runLinks run after frame := by
  induction before with
  | nil => rfl
  | cons link before ih =>
    obtain ⟨condition, body, more⟩ := link
    obtain ⟨⟨asked, hasked, hfalse⟩, hbefore⟩ := List.forall_mem_cons.mp h
    obtain rfl : condition = some asked := hasked
    rw [List.cons_append, runLinks, withValue, hfalse]
    exact ih hbefore

theorem runLinks_selected (h : ∀ asked ∈ condition, asked.evalCondition frame.scope = .ok true) :
    runLinks run ((condition, body, more) :: after) frame = run body frame := by
  cases condition with
  | none => rfl
  | some asked =>
    rw [runLinks, withValue, h asked rfl]
    rfl

theorem runLinks_failed {links : List (Option Expr × List Stmt × Bool)}
    (h : (runLinks run links frame).1 = .failed fault) :
    ∃ before condition body more after, links = before ++ (condition, body, more) :: after ∧
      Passed frame.scope before ∧
      ((∃ asked cause, condition = some asked ∧ asked.evalCondition frame.scope = .error cause ∧ fault = .of cause) ∨
        (∀ asked ∈ condition, asked.evalCondition frame.scope = .ok true) ∧ (run body frame).1 = .failed fault) := by
  induction links with
  | nil => cases h
  | cons link links ih =>
    obtain ⟨condition, body, more⟩ := link
    cases condition with
    | none => exact ⟨[], none, body, more, links, rfl, nofun, .inr ⟨nofun, h⟩⟩
    | some asked =>
      rw [runLinks, withValue_failed] at h
      rcases h with ⟨cause, hcause, rfl⟩ | ⟨holds, hholds, h⟩
      · exact ⟨[], some asked, body, more, links, rfl, nofun, .inl ⟨asked, cause, rfl, hcause, rfl⟩⟩
      · cases holds with
        | true => exact ⟨[], some asked, body, more, links, rfl, nofun, .inr ⟨by simpa using hholds, h⟩⟩
        | false =>
          obtain ⟨before, condition, body', more', after, rfl, hbefore, hend⟩ := ih h
          exact ⟨(some asked, body, more) :: before, condition, body', more', after, rfl,
            List.forall_mem_cons.mpr ⟨⟨asked, rfl, hholds⟩, hbefore⟩, hend⟩

end Chain

/-! ### Calls -/

namespace Function

/-- A call of a user function is let in: it has as many arguments as it should, and there is room for it. -/
structure Admits (limit : Nat) (f : Function) (call : Call) (body : List Stmt) : Prop where
  takes : f.takes call.slots.length = true
  user : f.body = .user body
  room : call.machine.depth < limit

/-- A local variable cannot be bound, and those before it can. -/
def Unbindable (f : Function) (d : Declaration) (cause : Cause) : Prop :=
  ∃ before after scope, f.localVariables = before ++ d :: after ∧
    bindVariables (bindConstants .empty f.constants) before = .ok scope ∧
    (scope.declare d.name d.type d.range (firstValue d)).1 = .error cause

/-- A parameter cannot take its argument, once the locals are bound. -/
def Unpassable (f : Function) (slots : List Value) (cause : Cause) : Prop :=
  ∃ scope, bindVariables (bindConstants .empty f.constants) f.localVariables = .ok scope ∧
    bindParameters scope f.parameters slots = .error (.of cause)

/-- A call that fails before any statement of a body is run, because of the call itself or in a built-in function. -/
inductive Refuses (limit : Nat) (f : Function) (call : Call) : Cause → Prop where
  | arity (h : f.takes call.slots.length = false) :
      Refuses limit f call (.arity f.name (f.arity.getD 0) call.slots.length)
  | builtin {b : Builtin} {cause : Cause} (htakes : f.takes call.slots.length = true) (hbody : f.body = .builtin b)
      (h : (b.perform call.slots call.machine.host).1 = .error cause) : Refuses limit f call cause
  | depth {body : List Stmt} (htakes : f.takes call.slots.length = true) (hbody : f.body = .user body)
      (h : limit ≤ call.machine.depth) : Refuses limit f call (.tooDeep limit)
  | parameter {body : List Stmt} {cause : Cause} (hadmits : f.Admits limit call body)
      (h : f.Unpassable call.slots cause) : Refuses limit f call cause

end Function

/-- The frame in which the body of a called function starts. -/
def Machine.entered (machine : Machine) (scope : Scope) : Frame :=
  ⟨scope, machine.host, machine.depth + 1⟩

section

variable (program : Program) (limit : Nat)

/-- A statement, whose calls run functions of the program. -/
def Stmt.execute (s : Stmt) (fuel : Nat) : Act Frame :=
  s.run program (Function.run program limit fuel) fuel

def Stmt.executeAll (body : List Stmt) (fuel : Nat) : Act Frame :=
  Stmt.runAll program (Function.run program limit fuel) fuel body

end

namespace Function

variable {fault : Fault} {s : Scope}

theorem bindVariables_eq_error {ds : List Declaration} : bindVariables s ds = .error fault ↔
    ∃ before d after scope cause, ds = before ++ d :: after ∧ bindVariables s before = .ok scope ∧
      (scope.declare d.name d.type d.range (firstValue d)).1 = .error cause ∧ fault = ⟨cause, some d.place.line⟩ := by
  constructor
  · intro h
    induction ds generalizing s with
    | nil => cases h
    | cons d ds ih =>
      rw [bindVariables] at h
      split at h
      · rename_i bound hbound
        obtain ⟨before, d', after, scope, cause, rfl, hbefore, hd⟩ := ih h
        exact ⟨d :: before, d', after, scope, cause, rfl, by rw [bindVariables, hbound]; exact hbefore, hd⟩
      · rename_i cause _ hcause
        exact ⟨[], d, ds, s, cause, rfl, rfl, by rw [hcause], (Except.error.inj h).symm⟩
  · rintro ⟨before, d, after, scope, cause, rfl, hbefore, hcause, rfl⟩
    induction before generalizing s with
    | nil =>
      cases hbefore
      rw [List.nil_append, bindVariables]
      split
      · rename_i hbound
        rw [hbound] at hcause
        cases hcause
      · rename_i hother
        rw [hother] at hcause
        cases hcause
        rfl
    | cons first before ih =>
      rw [bindVariables] at hbefore
      split at hbefore
      · rename_i hbound
        rw [List.cons_append, bindVariables, hbound]
        exact ih hbefore
      · cases hbefore

/-- A value cannot be declared under a name because of its type or because of a range. -/
theorem kind_of_declare {name : String} {type : DataType} {range : Option Range} {value : Value} {cause : Cause}
    (h : (s.declare name type range value).1 = .error cause) : cause.kind = .type ∨ cause.kind = .outOfRange := by
  unfold Scope.declare at h
  split at h
  · rename_i found hcheck
    cases h
    unfold Value.check at hcheck
    split at hcheck
    · cases hcheck
      exact .inl rfl
    · split at hcheck
      · cases hcheck
      · split at hcheck
        · cases hcheck
        · cases hcheck
          exact .inr rfl
  · cases h

theorem bindParameters_failed {ds : List Declaration} {slots : List Value}
    (h : bindParameters s ds slots = .error fault) :
    ∃ cause, fault = .of cause ∧ (cause.kind = .type ∨ cause.kind = .outOfRange) := by
  induction ds generalizing s slots with
  | nil => cases h
  | cons d ds ih =>
    cases slots with
    | nil => cases h
    | cons value slots =>
      rw [bindParameters] at h
      split at h
      · exact ih h
      · rename_i cause _ hdeclare
        exact ⟨cause, (Except.error.inj h).symm, kind_of_declare (congrArg Prod.fst hdeclare)⟩

theorem Unbindable.kind {f : Function} {d : Declaration} {cause : Cause} (h : f.Unbindable d cause) :
    cause.kind = .type ∨ cause.kind = .outOfRange := by
  obtain ⟨before, after, scope, -, -, hdeclare⟩ := h
  exact kind_of_declare hdeclare

theorem Unpassable.kind {f : Function} {slots : List Value} {cause : Cause} (h : f.Unpassable slots cause) :
    cause.kind = .type ∨ cause.kind = .outOfRange := by
  obtain ⟨scope, -, hpassed⟩ := h
  obtain ⟨found, hcause, hkind⟩ := bindParameters_failed hpassed
  cases hcause
  exact hkind

/-- A scope cannot be set up because of a local variable, or because of a parameter; only the first fault has a line. -/
theorem scopeFor_eq_error {f : Function} {slots : List Value} : f.scopeFor slots = .error fault ↔
    (∃ d cause, f.Unbindable d cause ∧ fault = ⟨cause, some d.place.line⟩) ∨
      ∃ cause, f.Unpassable slots cause ∧ fault = .of cause := by
  unfold scopeFor Unbindable Unpassable
  cases hlocals : bindVariables (bindConstants .empty f.constants) f.localVariables with
  | error inner =>
    obtain ⟨before, d, after, scope, cause, hsplit, hbefore, hcause, rfl⟩ := bindVariables_eq_error.mp hlocals
    constructor
    · rintro ⟨⟩
      exact .inl ⟨d, cause, ⟨before, after, scope, hsplit, hbefore, hcause⟩, rfl⟩
    · rintro (⟨d', cause', ⟨before', after', scope', hsplit', hbefore', hcause'⟩, rfl⟩ | ⟨_, ⟨_, hok, _⟩, _⟩)
      · have herror := bindVariables_eq_error.mpr
          ⟨before', d', after', scope', cause', hsplit', hbefore', hcause', rfl⟩
        exact hlocals.symm.trans herror
      · cases hok
  | ok scope =>
    constructor
    · intro h
      obtain ⟨cause, rfl, -⟩ := bindParameters_failed h
      exact .inr ⟨cause, ⟨scope, rfl, h⟩, rfl⟩
    · rintro (⟨d, cause, ⟨before, after, bound, hsplit, hbefore, hcause⟩, rfl⟩ | ⟨cause, ⟨scope', hok, h⟩, rfl⟩)
      · have herror := bindVariables_eq_error.mpr ⟨before, d, after, bound, cause, hsplit, hbefore, hcause, rfl⟩
        exact nomatch hlocals.symm.trans herror
      · cases hok
        exact h

end Function

namespace Call

variable {fault : Fault} {call : Call}

theorem enter_failed {f : Function} {body : Act Frame} : (Call.enter f body call).1 = .failed fault ↔
    f.scopeFor call.slots = .error fault ∨
      ∃ scope, f.scopeFor call.slots = .ok scope ∧ (body ⟨scope, call.machine⟩).1 = .failed fault := by
  obtain ⟨slots, machine⟩ := call
  rw [Call.enter]
  cases hscope : f.scopeFor slots with
  | error inner => simp
  | ok scope =>
    rcases hbody : body ⟨scope, machine⟩ with ⟨outcome, after⟩
    cases outcome <;> simp [hbody]

theorem nested_failed {limit : Nat} {act : Act Call} : (Call.nested limit act call).1 = .failed fault ↔
    limit ≤ call.machine.depth ∧ fault = .of (.tooDeep limit) ∨
      call.machine.depth < limit ∧ (act ⟨call.slots, call.machine.host, call.machine.depth + 1⟩).1 = .failed fault := by
  obtain ⟨slots, host, depth⟩ := call
  rw [Call.nested]
  by_cases hdeep : limit ≤ depth
  · simp [hdeep, Nat.not_lt_of_le hdeep, eq_comm]
  · simp [hdeep, Nat.lt_of_not_le hdeep]

end Call

namespace Function

variable {program : Program} {limit fuel : Nat} {f : Function} {call : Call} {fault : Fault}

theorem run_miscounted (htakes : f.takes call.slots.length = false) :
    f.run program limit (fuel + 1) call =
      (.failed (.of (.arity f.name (f.arity.getD 0) call.slots.length)), call) := by
  rw [Function.run, if_pos (by simp [htakes])]

theorem run_builtin {b : Builtin} (htakes : f.takes call.slots.length = true) (hbody : f.body = .builtin b) :
    f.run program limit (fuel + 1) call = Call.perform b call := by
  rw [Function.run, if_neg (by simp [htakes])]
  simp only [hbody]

theorem run_user {body : List Stmt} (htakes : f.takes call.slots.length = true) (hbody : f.body = .user body) :
    f.run program limit (fuel + 1) call =
      Call.nested limit (Call.enter f (Stmt.executeAll program limit body fuel)) call := by
  rw [Function.run, if_neg (by simp [htakes])]
  simp only [hbody]
  rfl

/-- A call that is let in fails as its scope and its body do. -/
theorem run_admitted {body : List Stmt} (h : f.Admits limit call body) :
    (f.run program limit (fuel + 1) call).1 = .failed fault ↔ f.scopeFor call.slots = .error fault ∨
      ∃ scope, f.scopeFor call.slots = .ok scope ∧
        (Stmt.executeAll program limit body fuel (call.machine.entered scope)).1 = .failed fault := by
  rw [run_user h.takes h.user, Call.nested_failed, Call.enter_failed]
  simp [Nat.not_le_of_lt h.room, h.room, Machine.entered]

/-- The ways in which a call fails that gets a step. -/
theorem run_failed : (f.run program limit (fuel + 1) call).1 = .failed fault ↔
    (∃ cause, f.Refuses limit call cause ∧ fault = .of cause) ∨
      ∃ body, f.Admits limit call body ∧
        ((∃ d cause, f.Unbindable d cause ∧ fault = ⟨cause, some d.place.line⟩) ∨
          ∃ scope, f.scopeFor call.slots = .ok scope ∧
            (Stmt.executeAll program limit body fuel (call.machine.entered scope)).1 = .failed fault) := by
  constructor
  · intro h
    cases htakes : f.takes call.slots.length with
    | false =>
      rw [run_miscounted htakes] at h
      cases h
      exact .inl ⟨_, .arity htakes, rfl⟩
    | true =>
      cases hbody : f.body with
      | builtin b =>
        rw [run_builtin htakes hbody] at h
        obtain ⟨cause, hcause, rfl⟩ := Outcome.ofExcept_eq_failed.mp h
        exact .inl ⟨cause, .builtin htakes hbody hcause, rfl⟩
      | user body =>
        by_cases hdeep : limit ≤ call.machine.depth
        · rw [run_user htakes hbody, Call.nested_failed] at h
          obtain ⟨-, rfl⟩ := h.resolve_right fun hroom => Nat.not_lt_of_le hdeep hroom.1
          exact .inl ⟨_, .depth htakes hbody hdeep, rfl⟩
        · have hadmits : f.Admits limit call body := ⟨htakes, hbody, Nat.lt_of_not_le hdeep⟩
          rw [run_admitted hadmits, scopeFor_eq_error] at h
          rcases h with (hlocal | ⟨cause, hpassed, rfl⟩) | hran
          · exact .inr ⟨body, hadmits, .inl hlocal⟩
          · exact .inl ⟨cause, .parameter hadmits hpassed, rfl⟩
          · exact .inr ⟨body, hadmits, .inr hran⟩
  · rintro (⟨cause, hrefuses, rfl⟩ | ⟨body, hadmits, hinside⟩)
    · cases hrefuses with
      | arity htakes => rw [run_miscounted htakes]
      | builtin htakes hbody h =>
        rw [run_builtin htakes hbody]
        exact Outcome.ofExcept_eq_failed.mpr ⟨cause, h, rfl⟩
      | depth htakes hbody h =>
        rw [run_user htakes hbody, Call.nested_failed]
        exact .inl ⟨h, rfl⟩
      | parameter hadmits h =>
        rw [run_admitted hadmits, scopeFor_eq_error]
        exact .inl (.inr ⟨cause, h, rfl⟩)
    · rw [run_admitted hadmits, scopeFor_eq_error]
      exact hinside.imp_left .inl

end Function

end Offside
