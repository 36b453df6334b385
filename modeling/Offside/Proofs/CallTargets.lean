import Offside.Proofs.FaultOrigins

/-!
# The functions that calls name

The reader tells calls from assignments by the names that follow `define` in the tokens, before it has read a function.
In a program that is read, these are the names of its functions: a call names one of them or a built-in function, and an
assignment names neither. Nothing but a call looks for a function, so that no function is missed in an execution.
-/

namespace Offside

/-! ### Attempts that look for no function -/

section

variable {α β : Type}

/-- An attempt does not fail for want of a function. -/
def Resolves (attempt : Except Cause α) : Prop :=
  ∀ cause, attempt = .error cause → cause.kind ≠ .undefinedFunction

@[simp] theorem resolves_ok (a : α) : Resolves (.ok a) :=
  nofun

@[simp] theorem resolves_error {cause : Cause} :
    Resolves (.error cause : Except Cause α) ↔ cause.kind ≠ .undefinedFunction :=
  ⟨fun h => h cause rfl, fun h _ heq => Except.error.inj heq ▸ h⟩

theorem Resolves.bind {first : Except Cause α} {next : α → Except Cause β} (h : Resolves first)
    (hnext : ∀ a, Resolves (next a)) : Resolves (first >>= next) := by
  cases first with
  | error cause => exact resolves_error.mpr (resolves_error.mp h)
  | ok a => exact hnext a

theorem Resolves.map {first : Except Cause α} {f : α → β} (h : Resolves first) : Resolves (first.map f) := by
  cases first with
  | error cause => exact resolves_error.mpr (resolves_error.mp h)
  | ok a => exact resolves_ok (f a)

end

theorem Arithmetic.resolves_apply (op : Arithmetic) (v w : Value) : Resolves (op.apply v w) := by
  unfold Arithmetic.apply
  split
  · refine Resolves.map ?_
    unfold Arithmetic.onIntegers
    split
    any_goals exact resolves_ok _
    all_goals split <;> simp [Cause.kind]
  · exact resolves_ok _
  · split <;> simp [Cause.kind]
  · simp [Cause.kind]

theorem Comparison.resolves_apply (op : Comparison) (v w : Value) : Resolves (op.apply v w) := by
  unfold Comparison.apply
  split
  any_goals simp [Cause.kind]
  split <;> simp [Cause.kind]

theorem Value.resolves_negate (v : Value) : Resolves v.negate := by
  unfold Value.negate
  split <;> simp [Cause.kind]

theorem Value.resolves_asInteger (demand : Demand) (v : Value) : Resolves (v.asInteger demand) := by
  unfold Value.asInteger
  split <;> simp [Cause.kind]

theorem Value.resolves_asCondition (v : Value) : Resolves v.asCondition := by
  unfold Value.asCondition
  split <;> simp [Cause.kind]

theorem Cells.resolves_locate (c : Cells Value) (index : Int32) : Resolves (c.locate index) := by
  unfold Cells.locate
  split <;> simp [Cause.kind]

theorem Cells.resolves_accept (c : Cells Value) (name : String) (index : Int32) (v : Value) :
    Resolves (c.accept name index v) := by
  unfold Cells.accept
  split
  · rename_i cause hlocate
    exact resolves_error.mpr (c.resolves_locate index cause hlocate)
  · split <;> simp [Cause.kind]

theorem Value.resolves_element (v : Value) (index : Int32) : Resolves (v.element index) := by
  unfold Value.element
  split
  · exact (Cells.resolves_locate _ index).map
  · simp [Cause.kind]

theorem Scope.resolves_load (s : Scope) (name : String) : Resolves (s.load name) := by
  unfold Scope.load
  split <;> simp [Cause.kind]

namespace Expr

variable (s : Scope)

theorem resolves_eval (e : Expr) : Resolves (e.eval s) := by
  induction e with
  | literal value => exact resolves_ok _
  | named name => exact s.resolves_load name
  | element name index ih =>
    refine (s.resolves_load name).bind fun v => ih.bind fun w => ?_
    exact (w.resolves_asInteger .index).bind v.resolves_element
  | negate operand ih => exact ih.bind Value.resolves_negate
  | arithmetic op left right ihLeft ihRight => exact ihLeft.bind fun v => ihRight.bind (op.resolves_apply v)
  | compare op left right ihLeft ihRight =>
    exact ihLeft.bind fun v => ihRight.bind fun w => (op.resolves_apply v w).bind fun _ => resolves_ok _

theorem resolves_evalInteger (demand : Demand) (e : Expr) : Resolves (e.evalInteger s demand) :=
  (e.resolves_eval s).bind (Value.resolves_asInteger demand)

theorem resolves_evalCondition (e : Expr) : Resolves (e.evalCondition s) :=
  (e.resolves_eval s).bind Value.resolves_asCondition

end Expr

theorem Value.resolves_check (name : String) (type : DataType) (range : Option Range) (v : Value) :
    Resolves (v.check name type range) := by
  unfold Value.check
  split
  · simp [Cause.kind]
  · split
    · exact resolves_ok ()
    · split <;> simp [Cause.kind]

namespace Scope

variable (s : Scope) (name : String)

theorem resolves_writable : Resolves (s.writable name) := by
  unfold writable
  split
  · simp [Cause.kind]
  · split <;> simp [Cause.kind]

theorem resolves_checkAssign (v : Value) : Resolves (s.checkAssign name v) := by
  unfold checkAssign
  split
  · rename_i cause hwritable
    exact resolves_error.mpr (s.resolves_writable name cause hwritable)
  · unfold Binding.check
    split
    · split <;> simp [Cause.kind]
    · exact Value.resolves_check name _ _ _

theorem resolves_assign (v : Value) : Resolves (s.assign name v).1 := by
  unfold Scope.assign
  split
  · rename_i cause hcheck
    exact resolves_error.mpr (s.resolves_checkAssign name v cause hcheck)
  · exact resolves_ok ()

theorem resolves_checkAssignElement (index : Int32) (v : Value) : Resolves (s.checkAssignElement name index v) := by
  unfold checkAssignElement
  split
  · rename_i cause hwritable
    exact resolves_error.mpr (s.resolves_writable name cause hwritable)
  · unfold Binding.checkElement
    split
    · exact (Cells.resolves_accept _ name index v).map
    · simp [Cause.kind]

theorem resolves_assignElement (index : Int32) (v : Value) : Resolves (s.assignElement name index v).1 := by
  unfold Scope.assignElement
  split
  · rename_i cause hcheck
    exact resolves_error.mpr (s.resolves_checkAssignElement name index v cause hcheck)
  · exact resolves_ok ()

theorem resolves_store (target : Target) (v : Value) : Resolves (s.store target v).1 := by
  unfold Scope.store
  split
  · exact s.resolves_assign _ v
  · rename_i name index
    split
    · rename_i cause hindex
      exact resolves_error.mpr (index.resolves_evalInteger s .index cause hindex)
    · exact s.resolves_assignElement name _ v

theorem resolves_storeOutputs (f : Function) (arguments : List Argument) (slots : List Value) (position : Nat) :
    Resolves (s.storeOutputs f position arguments slots).1 := by
  induction arguments generalizing s slots position with
  | nil => simp [storeOutputs]
  | cons argument arguments ih =>
    cases slots with
    | nil => simp [storeOutputs]
    | cons slot slots =>
      rw [storeOutputs]
      split
      · rename_i target _ _
        have hstored := s.resolves_store target slot
        split
        · exact ih _ _ _
        · exact hstored
      · exact ih _ _ _

end Scope

theorem Frame.resolves_bounds (first last : Expr) (frame : Frame) : Resolves (Frame.bounds first last frame) := by
  refine (first.resolves_evalInteger _ _).bind fun low => (last.resolves_evalInteger _ _).bind fun high => ?_
  split
  · exact resolves_ok _
  · exact resolves_error.mpr (by simp [Cause.kind])

/-! ### Calls -/

theorem Function.resolves_checkArguments (f : Function) (name : String) (arguments : List Argument) (position : Nat) :
    Resolves (f.checkArguments name position arguments) := by
  induction arguments generalizing position with
  | nil => exact resolves_ok ()
  | cons argument arguments ih =>
    rw [Function.checkArguments]
    split
    · simp [Cause.kind]
    · split
      · simp [Cause.kind]
      · exact ih (position + 1)

theorem Argument.resolves_evalAll (s : Scope) (arguments : List Argument) :
    Resolves (Argument.evalAll s arguments) := by
  induction arguments with
  | nil => exact resolves_ok []
  | cons argument arguments ih =>
    exact (argument.value.resolves_eval s).bind fun _ => ih.bind fun _ => resolves_ok _

theorem Frame.resolves_prepared {program : Program} {name : String} {f : Function} (h : program.function? name = some f)
    (arguments : List Argument) (scope : Scope) : Resolves (Frame.prepared program name arguments scope) := by
  unfold Frame.prepared
  rw [h]
  exact (f.resolves_checkArguments name arguments 0).bind fun _ =>
    (Argument.resolves_evalAll scope arguments).bind fun _ => resolves_ok _

namespace Builtin

variable (b : Builtin) (position : Nat) (v : Value)

theorem resolves_stringArgument : Resolves (b.stringArgument position v) := by
  unfold stringArgument
  split <;> simp [Cause.kind]

theorem resolves_integerArgument : Resolves (b.integerArgument position v) := by
  unfold integerArgument
  split <;> simp [Cause.kind]

theorem resolves_realArgument : Resolves (b.realArgument position v) := by
  unfold realArgument
  split <;> simp [Cause.kind]

theorem resolves_arrayArgument : Resolves (b.arrayArgument position v) := by
  unfold arrayArgument
  split <;> simp [Cause.kind]

theorem resolves_cut (text : String) (start length : Int32) : Resolves (b.cut text start length) := by
  unfold cut
  split
  · simp [Cause.kind]
  · dsimp only
    split <;> simp [Cause.kind]

theorem resolves_endItem (cells : Cells Value) (item : Option Value) : Resolves (endItem cells item) := by
  unfold endItem
  split <;> simp [Cause.kind]

theorem resolves_compute (arguments : List Value) : Resolves (b.compute arguments) := by
  unfold compute
  split
  · exact (resolves_stringArgument _ _ _).bind fun _ => (resolves_integerArgument _ _ _).bind fun _ =>
      (resolves_cut _ _ _ _).bind fun _ => resolves_ok _
  · exact (resolves_stringArgument _ _ _).bind fun _ => (resolves_integerArgument _ _ _).bind fun _ =>
      (resolves_cut _ _ _ _).bind fun _ => resolves_ok _
  · exact (resolves_stringArgument _ _ _).bind fun _ => (resolves_integerArgument _ _ _).bind fun _ =>
      (resolves_integerArgument _ _ _).bind fun _ => (resolves_cut _ _ _ _).bind fun _ => resolves_ok _
  · exact (resolves_realArgument _ _ _).bind fun _ => resolves_ok _
  · exact (resolves_integerArgument _ _ _).bind fun _ => resolves_ok _
  · exact (resolves_realArgument _ _ _).bind fun _ => resolves_ok _
  · exact (resolves_arrayArgument _ _ _).bind fun _ => resolves_endItem _ _
  · exact (resolves_arrayArgument _ _ _).bind fun _ => resolves_endItem _ _
  · simp [Cause.kind]

end Builtin

theorem Value.resolves_readAs (v : Value) (text : String) : Resolves (v.readAs text) := by
  unfold Value.readAs
  dsimp only
  split
  any_goals simp [Cause.kind]
  all_goals split <;> simp [Cause.kind]

theorem Input.resolves_nextOfLines (lines : List InputLine) : Resolves (Input.nextOfLines lines).1 := by
  fun_induction Input.nextOfLines lines with
  | case1 | case2 => simp [Cause.kind]
  | case3 line rest _ ih => exact ih
  | case4 => exact resolves_ok _

theorem Host.resolves_nextWord (host : Host) : Resolves host.nextWord.1 := by
  change Resolves host.input.next.1
  unfold Input.next
  split
  · exact resolves_ok _
  · exact Input.resolves_nextOfLines _

theorem Host.resolves_writeLine (host : Host) (line : String) : Resolves (host.writeLine line).1 := by
  unfold Host.writeLine
  split <;> simp [Cause.kind]

namespace Builtin

theorem resolves_fill (slots : List Value) (host : Host) : Resolves (fill slots host).1 := by
  induction slots generalizing host with
  | nil => exact resolves_ok ()
  | cons slot rest ih =>
    have hword := host.resolves_nextWord
    rw [fill]
    split
    · rename_i cause _ hfailed
      rw [hfailed] at hword
      exact resolves_error.mpr (resolves_error.mp hword)
    · rename_i word _ _
      split
      · rename_i cause hfailed
        exact resolves_error.mpr (slot.resolves_readAs word cause hfailed)
      · exact ih _

theorem resolves_perform (b : Builtin) (slots : List Value) (host : Host) : Resolves (b.perform slots host).1 := by
  unfold perform
  split
  · exact resolves_fill slots host
  · exact host.resolves_writeLine _
  · exact resolves_ok ()
  · split
    · rename_i cause hfailed
      exact resolves_error.mpr (b.resolves_compute _ cause hfailed)
    · exact resolves_ok ()

end Builtin

namespace Function

variable {f : Function} {cause : Cause}

/-- Neither locals nor parameters look for functions. -/
theorem resolved_of_bound (h : cause.kind = .type ∨ cause.kind = .outOfRange) : cause.kind ≠ .undefinedFunction := by
  rcases h with h | h <;> simp [h]

theorem Refuses.resolved {limit : Nat} {call : Call} (h : f.Refuses limit call cause) :
    cause.kind ≠ .undefinedFunction := by
  cases h with
  | arity | depth => simp [Cause.kind]
  | builtin _ _ h => exact Builtin.resolves_perform _ _ _ cause h
  | parameter _ h => exact resolved_of_bound h.kind

end Function

namespace Stmt

variable {program : Program} {limit : Nat} {frame : Frame} {s : Stmt} {cause : Cause}

/-- What a call names, if the statement is one. -/
def callee? : Stmt → Option String
  | .call _ name _ => some name
  | _ => none

/-- The own work of a statement looks for a function only if it is a call, and then finds it. -/
theorem OwnFailure.resolved (h : s.OwnFailure program limit frame cause)
    (hs : ∀ name ∈ s.callee?, (program.function? name).isSome) : cause.kind ≠ .undefinedFunction := by
  cases h with
  | operand h => exact Expr.resolves_eval _ _ cause h
  | store _ h => exact Scope.resolves_store _ _ _ cause h
  | condition h =>
    obtain ⟨before, condition, body, more, after, -, -, hcause⟩ := h
    exact condition.resolves_evalCondition _ cause hcause
  | bounds h => exact Frame.resolves_bounds _ _ _ cause h
  | counter _ _ _ h => exact Scope.resolves_assign _ _ _ cause h
  | whileCondition _ h => exact Expr.resolves_evalCondition _ _ cause h
  | untilCondition _ _ h => exact Expr.resolves_evalCondition _ _ cause h
  | argument h =>
    obtain ⟨f, hf⟩ := Option.isSome_iff_exists.mp (hs _ rfl)
    exact Frame.resolves_prepared hf _ _ cause h
  | refused _ h => exact h.resolved
  | output _ _ h => exact Scope.resolves_storeOutputs _ _ _ _ _ cause h

theorem Fails.resolved (hcalls : ∀ t, program.Has t → ∀ name ∈ t.callee?, (program.function? name).isSome)
    {origin : Origin} (h : s.Fails program limit frame origin cause) (hs : program.Has s) :
    cause.kind ≠ .undefinedFunction := by
  induction h with
  | own h => exact h.resolved (hcalls _ hs)
  | declaration _ _ h => exact Function.resolved_of_bound h.kind
  | inside hreaches _ ih =>
    obtain ⟨before, rest, entered, henters, -⟩ := hreaches
    exact ih (henters.has hs (by simp))

end Stmt

/-! ### Programs that are read -/

open Grammar Parse

theorem Grammar.IsStmt.callable_of_call {callable : String → Bool} {ts : List Token} {name : String}
    {arguments : List Argument} (h : IsStmt callable ts (.call .blank name arguments)) : callable name = true := by
  cases h with
  | call hname => exact hname

theorem Grammar.IsStmt.not_callable_of_assign {callable : String → Bool} {ts : List Token} {target : Target}
    {value : Expr} (h : IsStmt callable ts (.assign .blank target value)) : callable target.name = false := by
  cases h with
  | assign hname => exact hname

namespace Program

variable {p : Program} {s : Stmt}

theorem isSome_function? (name : String) :
    (p.function? name).isSome = isCallable (p.functions.map Function.name) name := by
  have hfind : (p.find? name).isSome = (p.functions.map Function.name).contains name := by
    rw [Bool.eq_iff_iff, find?, List.find?_isSome]
    simp
  unfold function? isCallable
  rw [← hfind]
  cases p.find? name <;> simp

theorem IsDerived.callee (hp : p.IsDerived) (hs : p.Has s) : ∀ name ∈ s.callee?, (p.function? name).isSome := by
  intro name hname
  obtain ⟨ls, hstmt⟩ := hp.stmtAt hs
  cases hstmt with
  | call h =>
    obtain rfl := Option.some.inj hname
    rw [isSome_function?]
    exact h.callable_of_call
  | _ => cases hname

theorem IsDerived.target (hp : p.IsDerived) {place : Location} {target : Target} {value : Expr}
    (hs : p.Has (.assign place target value)) :
    (∀ f ∈ p.functions, f.name ≠ target.name) ∧ Builtin.ofName? target.name = none := by
  obtain ⟨ls, hstmt⟩ := hp.stmtAt hs
  cases hstmt with
  | assign h =>
    have hname := h.not_callable_of_assign
    simp only [isCallable, Bool.or_eq_false_iff, Option.isSome_eq_false_iff, Option.isNone_iff_eq_none] at hname
    refine ⟨fun f hf heq => ?_, hname.1⟩
    have hmem : target.name ∈ p.functions.map Function.name := List.mem_map.mpr ⟨f, hf, heq⟩
    simp [hmem] at hname

/-- In a program that is read, a call names a function that the program finds, and an assignment names neither a
function of the program nor a built-in one. So no execution of a function of it fails for want of a function. -/
theorem calls_resolve {ls : List Lexeme} (h : Program.ofLexemes ls = .ok p) :
    (∀ place name arguments, p.Has (.call place name arguments) → ∃ f, p.function? name = some f) ∧
    (∀ place target value, p.Has (.assign place target value) →
      (∀ f ∈ p.functions, f.name ≠ target.name) ∧ Builtin.ofName? target.name = none) ∧
    ∀ f ∈ p.functions, ∀ limit fuel call fault, (f.run p limit fuel call).1 = .failed fault →
      fault.cause.kind ≠ .undefinedFunction := by
  have hp := Program.isDerived_ofLexemes h
  refine ⟨fun _ name _ hs => Option.isSome_iff_exists.mp (hp.callee hs name rfl), fun _ _ _ => hp.target, ?_⟩
  intro f hf limit fuel call fault hrun
  cases fuel with
  | zero => cases hrun
  | succ fuel =>
    rcases Function.run_failed.mp hrun with ⟨cause, hrefuses, rfl⟩ | ⟨body, hadmits, hlocal | ⟨scope, -, hbody⟩⟩
    · exact hrefuses.resolved
    · obtain ⟨d, cause, hd, rfl⟩ := hlocal
      exact Function.resolved_of_bound hd.kind
    · obtain ⟨before, s, rest, reached, rfl, -, hs⟩ := Stmt.executeAll_failed hbody
      obtain ⟨origin, cause, hfails, rfl⟩ := Stmt.traced p limit fuel s hs
      exact hfails.resolved (fun t ht => hp.callee ht) (.body hf hadmits.user (by simp))

end Program

/-- A call in front of the definition of its function. What it stores back is out of range. -/
def belowSource : String :=
  Stmt.joinRows [
    "define main()",
    "    variables n: integer from 0 to 9",
    "    if n < 1 then",
    "        down var n",
    "    else",
    "        Write n",
    "define down(var n: integer)",
    "    n := n - 1"]

namespace Example

/-- The callee in the first branch of the first function and the target in the second function, of a program that looks
like `belowSource`. -/
def namesOf : Program → Option (String × String)
  | ⟨[⟨_, [], _, .user [.branch _ (.link _ [.call _ callee _] _)], _⟩, ⟨_, _, _, .user [.assign _ target _], _⟩]⟩ =>
    some (callee, target.name)
  | _ => none

theorem has_of_namesOf {p : Program} {callee name : String} (h : namesOf p = some (callee, name)) :
    (∃ place arguments, p.Has (.call place callee arguments)) ∧
      ∃ place target value, p.Has (.assign place target value) ∧ target.name = name := by
  unfold namesOf at h
  split at h
  · obtain ⟨rfl, rfl⟩ := Prod.mk.inj (Option.some.inj h)
    exact ⟨⟨_, _, .inside (.body List.mem_cons_self rfl List.mem_cons_self) List.mem_cons_self⟩,
      ⟨_, _, _, .body (List.mem_cons_of_mem _ List.mem_cons_self) rfl List.mem_cons_self, rfl⟩⟩
  · cases h

/-- The kind and the line of the failure of the first function. -/
def failureOf (p : Program) : Option (FaultKind × Option Nat) :=
  match p.functions with
  | [] => none
  | f :: _ =>
    match (f.run p 3 9 ⟨[], .start (.ofText "") (.ofSeed 0), 0⟩).1 with
    | .failed fault => some (fault.cause.kind, fault.line)
    | _ => none

theorem failed_of_failureOf {p : Program} {kind : FaultKind} {line : Option Nat}
    (h : failureOf p = some (kind, line)) : ∃ f ∈ p.functions, ∃ fault,
      (f.run p 3 9 ⟨[], .start (.ofText "") (.ofSeed 0), 0⟩).1 = .failed fault ∧ fault.cause.kind = kind ∧
        fault.line = line := by
  unfold failureOf at h
  split at h
  · cases h
  · rename_i f rest hfunctions
    split at h
    · rename_i fault hfailed
      obtain ⟨hkind, hline⟩ := Prod.mk.inj (Option.some.inj h)
      exact ⟨f, hfunctions ▸ List.mem_cons_self, fault, hfailed, hkind, hline⟩
    · cases h

end Example

/-- The call on the fourth line is run, and fails when its output is stored. -/
theorem Program.calls_resolve_down : ∃ ls p, lexemes belowSource = .ok ls ∧ Program.ofLexemes ls = .ok p ∧
    (∃ place arguments f, p.Has (.call place "down" arguments) ∧ p.function? "down" = some f) ∧
    (∃ place target value, p.Has (.assign place target value) ∧ target.name = "n" ∧
      (∀ f ∈ p.functions, f.name ≠ target.name) ∧ Builtin.ofName? target.name = none) ∧
    ∃ f ∈ p.functions, ∃ fault, (f.run p 3 9 ⟨[], .start (.ofText "") (.ofSeed 0), 0⟩).1 = .failed fault ∧
      fault.line = some 4 ∧ fault.cause.kind = .outOfRange ∧ fault.cause.kind ≠ .undefinedFunction := by
  obtain ⟨ls, p, hls, hp, hview⟩ : ∃ ls p, lexemes belowSource = .ok ls ∧ Program.ofLexemes ls = .ok p ∧
      (Example.namesOf p, Example.failureOf p) = (some ("down", "n"), some (.outOfRange, some 4)) :=
    exists_program (by decide +kernel)
  obtain ⟨hnames, hfailure⟩ := Prod.mk.inj hview
  obtain ⟨⟨place, arguments, hcall⟩, ⟨place', target, value, hassign, htarget⟩⟩ := Example.has_of_namesOf hnames
  obtain ⟨f, hf, fault, hfailed, hkind, hline⟩ := Example.failed_of_failureOf hfailure
  obtain ⟨hcalls, htargets, hruns⟩ := Program.calls_resolve hp
  obtain ⟨found, hfound⟩ := hcalls _ _ _ hcall
  exact ⟨ls, p, hls, hp, ⟨place, arguments, found, hcall, hfound⟩,
    ⟨place', target, value, hassign, htarget, htargets _ _ _ hassign⟩,
    f, hf, fault, hfailed, hline, hkind, hruns f hf 3 9 _ _ hfailed⟩

end Offside
