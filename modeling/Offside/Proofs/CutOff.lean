import Offside.Proofs.Moves
import Offside.Machine.Session

/-!
# Runs that are cut off

A run is cut off when its steps run out, and by the language itself when calls nest deeper than the limit. With more
steps or under a greater limit it takes the same way and only goes further: `Act.Extends cut longer act` says that
`longer` ends like `act`, in the same state, unless the end of `act` is a cut. It is enough to know this of calls,
since statements do nothing else with steps and limits but hand them on.
-/

namespace Offside

namespace Outcome

/-- The kind of a failure. -/
def kind? : Outcome → Option FaultKind
  | failed fault => some fault.cause.kind
  | _ => none

@[simp] theorem kind?_atLine (line : Nat) (outcome : Outcome) : (outcome.atLine line).kind? = outcome.kind? := by
  cases outcome <;> rfl

@[simp] theorem atLine_eq_exhausted {line : Nat} {outcome : Outcome} :
    outcome.atLine line = exhausted ↔ outcome = exhausted := by
  cases outcome <;> simp [atLine]

/-- Ends of runs that are cut off. Running out of steps is one, being done is none, and the lines of failures do not
count. -/
structure IsCut (cut : Outcome → Prop) : Prop where
  exhausted : cut exhausted
  done : ¬ cut done
  atLine : ∀ {outcome : Outcome}, cut outcome → ∀ line, cut (outcome.atLine line)

/-- What is done was not cut off. -/
theorem IsCut.not_of_done {σ : Type} {cut : Outcome → Prop} (hcut : IsCut cut) {ended : Outcome × σ} {s : σ}
    (h : ended = (.done, s)) : ¬ cut ended.1 := by
  rw [h]
  exact hcut.done

theorem isCut_exhausted : IsCut (· = exhausted) :=
  ⟨rfl, nofun, fun h _ => atLine_eq_exhausted.mpr h⟩

/-- A run that ran out of steps or whose calls nested too deep. -/
def TooDeep (outcome : Outcome) : Prop :=
  outcome = exhausted ∨ outcome.kind? = some .depth

theorem isCut_tooDeep : IsCut TooDeep where
  exhausted := .inl rfl
  done := by simp [TooDeep, kind?]
  atLine := fun h _ => h.imp atLine_eq_exhausted.mpr fun hkind => (kind?_atLine _ _).trans hkind

end Outcome

namespace Act

variable {σ α : Type} {cut : Outcome → Prop} {act longer : Act σ}

/-- An act goes on where another is cut off, and is the same everywhere else. -/
def Extends (cut : Outcome → Prop) (longer act : Act σ) : Prop :=
  ∀ s, cut (act s).1 ∨ longer s = act s

theorem extends_refl (act : Act σ) : Extends cut act act :=
  fun _ => .inr rfl

theorem Extends.of_done (hcut : Outcome.IsCut cut) (h : Extends cut longer act) {s t : σ} (hs : act s = (.done, t)) :
    longer s = (.done, t) :=
  ((h s).resolve_left (hcut.not_of_done hs)).trans hs

theorem Extends.atLine (hcut : Outcome.IsCut cut) (h : Extends cut longer act) (line : Nat) :
    Extends cut (longer.atLine line) (act.atLine line) := by
  intro s
  rcases h s with hs | heq
  · exact .inl (hcut.atLine hs line)
  · refine .inr ?_
    unfold Act.atLine
    rw [heq]

theorem Extends.andThen {next longerNext : Act σ} (hcut : Outcome.IsCut cut) (h : Extends cut longer act)
    (hnext : Extends cut longerNext next) : Extends cut (longer.andThen longerNext) (act.andThen next) := by
  intro s
  unfold Act.andThen
  rcases h s with hs | heq
  · split
    · rename_i t hdone
      exact absurd hs (hcut.not_of_done hdone)
    · exact .inl hs
  · rw [heq]
    split
    · exact hnext _
    · exact .inr rfl

theorem extends_withValue {value : σ → Except Cause α} {next longerNext : α → Act σ}
    (h : ∀ a, Extends cut (longerNext a) (next a)) : Extends cut (withValue value longerNext) (withValue value next) := by
  intro s
  unfold withValue
  split
  · exact .inr rfl
  · exact h _ s

variable {condition : σ → Except Cause Bool}

theorem repeatWhile_succ (rounds : Nat) : repeatWhile condition act (rounds + 1) =
    withValue condition fun holds => if holds then act.andThen (repeatWhile condition act rounds) else skip := by
  funext s
  rw [repeatWhile, withValue]
  cases condition s with
  | error cause => rfl
  | ok holds => cases holds <;> rfl

theorem repeatUntil_succ (rounds : Nat) : repeatUntil condition act (rounds + 1) =
    act.andThen (withValue condition fun holds => if holds then skip else repeatUntil condition act rounds) := by
  funext s
  rw [repeatUntil, andThen]
  split
  · rename_i t _
    rw [withValue]
    cases condition t with
    | error cause => rfl
    | ok holds => cases holds <;> rfl
  · rfl

theorem Extends.repeatWhile (hcut : Outcome.IsCut cut) (h : Extends cut longer act) {fuel more : Nat} (hle : fuel ≤ more) :
    Extends cut (repeatWhile condition longer more) (repeatWhile condition act fuel) := by
  induction fuel generalizing more with
  | zero => exact fun _ => .inl hcut.exhausted
  | succ fuel ih =>
    obtain ⟨more, rfl⟩ : ∃ n, more = n + 1 := ⟨more - 1, by omega⟩
    rw [repeatWhile_succ, repeatWhile_succ]
    refine extends_withValue fun holds => ?_
    cases holds with
    | false => exact extends_refl skip
    | true => exact h.andThen hcut (ih (by omega))

theorem Extends.repeatUntil (hcut : Outcome.IsCut cut) (h : Extends cut longer act) {fuel more : Nat} (hle : fuel ≤ more) :
    Extends cut (repeatUntil condition longer more) (repeatUntil condition act fuel) := by
  induction fuel generalizing more with
  | zero => exact fun _ => .inl hcut.exhausted
  | succ fuel ih =>
    obtain ⟨more, rfl⟩ : ∃ n, more = n + 1 := ⟨more - 1, by omega⟩
    rw [repeatUntil_succ, repeatUntil_succ]
    refine h.andThen hcut (extends_withValue fun holds => ?_)
    cases holds with
    | false => exact ih (by omega)
    | true => exact extends_refl skip

theorem Extends.repeatFor {act longer : Int32 → Act σ} (hcut : Outcome.IsCut cut)
    (h : ∀ i, Extends cut (longer i) (act i)) (count : Nat) :
    ∀ first, Extends cut (repeatFor longer count first) (repeatFor act count first) := by
  induction count with
  | zero => exact fun _ => extends_refl skip
  | succ count ih => exact fun first => (h first).andThen hcut (ih (first + 1))

end Act

open Act

/-! ### Statements -/

namespace Frame

/-- The function that a call names, and the values of its arguments. -/
def prepared (program : Program) (name : String) (arguments : List Argument) (scope : Scope) :
    Except Cause (Function × List Value) :=
  match program.function? name with
  | none => .error (.undefinedFunction name)
  | some f => do
    f.checkArguments name 0 arguments
    return (f, ← Argument.evalAll scope arguments)

/-- A call in three steps: it is prepared, the function is run, and the outputs are stored. -/
theorem call_eq (program : Program) (invoke : Function → Act Call) (name : String) (arguments : List Argument)
    (scope : Scope) (machine : Machine) :
    Frame.call program invoke name arguments ⟨scope, machine⟩ =
      match prepared program name arguments scope with
      | .error cause => (.failed (.of cause), ⟨scope, machine⟩)
      | .ok (f, values) =>
        match invoke f ⟨values, machine⟩ with
        | (.done, ⟨slots, machine⟩) => onScope (Scope.storeOutputs f 0 arguments slots) ⟨scope, machine⟩
        | (stopped, ⟨_, machine⟩) => (stopped, ⟨scope, machine⟩) := by
  unfold Frame.call prepared
  cases program.function? name with
  | none => rfl
  | some f =>
    cases hcheck : f.checkArguments name 0 arguments with
    | error cause => simp [hcheck, bind, Except.bind]
    | ok =>
      cases hvalues : Argument.evalAll scope arguments with
      | error cause => simp [hcheck, hvalues, bind, Except.bind]
      | ok values => simp only [hcheck, hvalues]; rfl

end Frame

theorem Frame.count_extends {cut : Outcome → Prop} (hcut : Outcome.IsCut cut) (counter : String) (first last : Expr)
    {body longer : Act Frame} (hbody : Extends cut longer body) :
    Extends cut (Frame.count counter first last longer) (Frame.count counter first last body) :=
  extends_withValue fun _ => Extends.repeatFor hcut (fun _ => (extends_refl _).andThen hcut hbody) _ _

theorem Frame.call_extends {cut : Outcome → Prop} (hcut : Outcome.IsCut cut) (program : Program)
    {invoke longer : Function → Act Call} (hinvoke : ∀ f, Extends cut (longer f) (invoke f)) (name : String)
    (arguments : List Argument) :
    Extends cut (Frame.call program longer name arguments) (Frame.call program invoke name arguments) := by
  rintro ⟨scope, machine⟩
  rw [Frame.call_eq, Frame.call_eq]
  cases Frame.prepared program name arguments scope with
  | error cause => exact .inr rfl
  | ok prepared =>
    obtain ⟨f, values⟩ := prepared
    dsimp only
    rcases hinvoke f ⟨values, machine⟩ with hs | heq
    · split
      · rename_i hdone
        exact absurd hs (hcut.not_of_done hdone)
      · rename_i hstopped
        rw [hstopped] at hs
        exact .inl hs
    · rw [heq]
      exact .inr rfl

/-- The ways of calling functions and the rounds of loops that make one run of statements longer than another. -/
structure Stmt.Longer (cut : Outcome → Prop) (invoke longer : Function → Act Call) (fuel more : Nat) : Prop where
  isCut : Outcome.IsCut cut
  invoke : ∀ f, Extends cut (longer f) (invoke f)
  rounds : fuel ≤ more

-- One induction over statements, chains and blocks together.
mutual

theorem Stmt.run_extends (program : Program) {cut : Outcome → Prop} {invoke longer : Function → Act Call}
    {fuel more : Nat} (h : Stmt.Longer cut invoke longer fuel more) :
    ∀ s : Stmt, Extends cut (s.run program longer more) (s.run program invoke fuel)
  | .assign place target value => by
    rw [Stmt.run, Stmt.run]
    exact extends_refl _
  | .branch place chain => by
    rw [Stmt.run, Stmt.run]
    exact (Chain.run_extends program h chain).atLine h.isCut place.line
  | .count place counter first last body => by
    rw [Stmt.run, Stmt.run]
    exact (Frame.count_extends h.isCut counter first last (Stmt.runAll_extends program h body)).atLine h.isCut place.line
  | .loopWhile place condition body => by
    rw [Stmt.run, Stmt.run]
    exact ((Stmt.runAll_extends program h body).repeatWhile h.isCut h.rounds).atLine h.isCut place.line
  | .loopUntil place condition body => by
    rw [Stmt.run, Stmt.run]
    exact ((Stmt.runAll_extends program h body).repeatUntil h.isCut h.rounds).atLine h.isCut place.line
  | .call place function arguments => by
    rw [Stmt.run, Stmt.run]
    exact (Frame.call_extends h.isCut program h.invoke function arguments).atLine h.isCut place.line

theorem Chain.run_extends (program : Program) {cut : Outcome → Prop} {invoke longer : Function → Act Call}
    {fuel more : Nat} (h : Stmt.Longer cut invoke longer fuel more) :
    ∀ c : Chain, Extends cut (c.run program longer more) (c.run program invoke fuel)
  | .last none body => by
    rw [Chain.run, Chain.run]
    exact Stmt.runAll_extends program h body
  | .last (some condition) body => by
    rw [Chain.run, Chain.run]
    refine extends_withValue fun holds => ?_
    cases holds with
    | true => exact Stmt.runAll_extends program h body
    | false => exact extends_refl _
  | .link none body _ => by
    rw [Chain.run, Chain.run]
    exact Stmt.runAll_extends program h body
  | .link (some condition) body next => by
    rw [Chain.run, Chain.run]
    refine extends_withValue fun holds => ?_
    cases holds with
    | true => exact Stmt.runAll_extends program h body
    | false => exact Chain.run_extends program h next

theorem Stmt.runAll_extends (program : Program) {cut : Outcome → Prop} {invoke longer : Function → Act Call}
    {fuel more : Nat} (h : Stmt.Longer cut invoke longer fuel more) :
    ∀ body : List Stmt, Extends cut (Stmt.runAll program longer more body) (Stmt.runAll program invoke fuel body)
  | [] => by
    rw [Stmt.runAll, Stmt.runAll]
    exact extends_refl _
  | s :: rest => by
    rw [Stmt.runAll, Stmt.runAll]
    exact (Stmt.run_extends program h s).andThen h.isCut (Stmt.runAll_extends program h rest)

end

/-! ### Functions and sessions -/

theorem Call.enter_extends {cut : Outcome → Prop} (hcut : Outcome.IsCut cut) (f : Function) {body longer : Act Frame}
    (h : Extends cut longer body) : Extends cut (Call.enter f longer) (Call.enter f body) := by
  rintro ⟨slots, machine⟩
  rw [Call.enter, Call.enter]
  cases f.scopeFor slots with
  | error fault => exact .inr rfl
  | ok scope =>
    dsimp only
    rcases h ⟨scope, machine⟩ with hs | heq
    · split
      · rename_i hdone
        exact absurd hs (hcut.not_of_done hdone)
      · rename_i hstopped
        rw [hstopped] at hs
        exact .inl hs
    · rw [heq]
      exact .inr rfl

/-- A limit may grow if nesting too deep counts as a cut. -/
def Outcome.MayGrow (cut : Outcome → Prop) (limit greater : Nat) : Prop :=
  limit = greater ∨ limit ≤ greater ∧ cut (.failed (.of (.tooDeep limit)))

theorem Call.nested_extends {cut : Outcome → Prop} {limit greater : Nat} (hlimit : Outcome.MayGrow cut limit greater)
    {act longer : Act Call} (h : Extends cut longer act) :
    Extends cut (Call.nested greater longer) (Call.nested limit act) := by
  rintro ⟨slots, host, depth⟩
  have hroom : ¬ limit ≤ depth → ¬ greater ≤ depth := by
    rcases hlimit with rfl | ⟨hle, -⟩ <;> omega
  rw [Call.nested, Call.nested]
  by_cases hdeep : limit ≤ depth
  · rw [if_pos hdeep]
    rcases hlimit with rfl | ⟨-, hcut⟩
    · exact .inr (if_pos hdeep)
    · exact .inl hcut
  · rw [if_neg hdeep, if_neg (hroom hdeep)]
    rcases h ⟨slots, host, depth + 1⟩ with hs | heq
    · exact .inl hs
    · rw [heq]
      exact .inr rfl

/-- By induction on the steps: the statements of a body call functions with fewer of them. -/
theorem Function.run_extends {cut : Outcome → Prop} (hcut : Outcome.IsCut cut) (program : Program)
    {limit greater fuel more : Nat} (hlimit : Outcome.MayGrow cut limit greater) (hle : fuel ≤ more) (f : Function) :
    Extends cut (f.run program greater more) (f.run program limit fuel) := by
  induction fuel generalizing more f with
  | zero => exact fun _ => .inl hcut.exhausted
  | succ fuel ih =>
    obtain ⟨more, rfl⟩ : ∃ n, more = n + 1 := ⟨more - 1, by omega⟩
    have hle : fuel ≤ more := by omega
    intro call
    unfold Function.run
    split
    · exact .inr rfl
    · split
      · exact .inr rfl
      · rename_i body _
        have hbody := Stmt.runAll_extends program ⟨hcut, fun f => ih hle f, hle⟩ body
        exact Call.nested_extends hlimit (Call.enter_extends hcut f hbody) call

namespace Session

variable {cut : Outcome → Prop} (hcut : Outcome.IsCut cut) (program : Program) {limit greater fuel more : Nat}
  (hlimit : Outcome.MayGrow cut limit greater) (hle : fuel ≤ more)
include hcut hlimit hle

theorem callNamed_extends (name : String) :
    Extends cut (callNamed program greater more name) (callNamed program limit fuel name) := by
  unfold callNamed
  split
  · exact extends_refl _
  · exact Function.run_extends hcut program hlimit hle _

theorem callAll_extends (fs : List Function) :
    Extends cut (callAll program greater more fs) (callAll program limit fuel fs) := by
  induction fs with
  | nil => exact extends_refl _
  | cons f fs ih =>
    intro machine
    rw [callAll, callAll]
    rcases Function.run_extends hcut program hlimit hle f ⟨[], machine⟩ with hs | heq
    · split
      · rename_i hdone
        exact absurd hs (hcut.not_of_done hdone)
      · rename_i hstopped
        rw [hstopped] at hs
        exact .inl hs
    · rw [heq]
      split
      · exact ih _
      · exact .inr rfl

theorem execute_extends (entry : Option String) (seed : Option UInt64) :
    Extends cut (execute program ⟨entry, seed, greater⟩ more) (execute program ⟨entry, seed, limit⟩ fuel) := by
  cases entry with
  | none => exact callAll_extends hcut program hlimit hle _
  | some name =>
    intro machine
    have hcalled := callNamed_extends hcut program hlimit hle name ⟨[], machine⟩
    simp only [execute]
    rcases hcalled with hs | heq
    · exact .inl hs
    · rw [heq]
      exact .inr rfl

/-- Only a run that is done is flushed, so that a cut stays one. -/
theorem run_extends (entry : Option String) (seed : Option UInt64) (machine : Machine) :
    cut (run fuel ⟨program, ⟨entry, seed, limit⟩, machine⟩).1 ∨
      run more ⟨program, ⟨entry, seed, greater⟩, machine⟩ =
        ((run fuel ⟨program, ⟨entry, seed, limit⟩, machine⟩).1,
          ⟨program, ⟨entry, seed, greater⟩, (run fuel ⟨program, ⟨entry, seed, limit⟩, machine⟩).2.machine⟩) := by
  have hexecute := execute_extends hcut program hlimit hle entry seed machine
  simp only [run]
  rcases hexecute with hs | heq
  · refine .inl ?_
    unfold flushed
    split
    · rename_i hdone
      rw [hdone] at hs
      exact absurd hs hcut.done
    · exact hs
  · rw [heq]
    exact .inr rfl

omit hcut hlimit hle

/-- More steps do not change a run that has come to its end. -/
theorem run_more {s : Session} (hle : fuel ≤ more) (h : (s.run fuel).1 ≠ .exhausted) : s.run more = s.run fuel := by
  obtain ⟨program, ⟨entry, seed, limit⟩, machine⟩ := s
  exact (run_extends Outcome.isCut_exhausted program (.inl rfl) hle entry seed machine).resolve_left h

/-- A run of the program comes to its end in this way, and leaves this session behind. -/
def Ends (s : Session) (outcome : Outcome) (after : Session) : Prop :=
  outcome ≠ .exhausted ∧ ∃ fuel, s.run fuel = (outcome, after)

/-- A run has one end, however many steps it was allowed. -/
theorem Ends.unique {s after after' : Session} {outcome outcome' : Outcome} (h : s.Ends outcome after)
    (h' : s.Ends outcome' after') : outcome' = outcome ∧ after' = after := by
  obtain ⟨hended, fuel, hrun⟩ := h
  obtain ⟨hended', fuel', hrun'⟩ := h'
  have heq : s.run fuel' = s.run fuel := by
    rcases Nat.le_total fuel fuel' with hle | hle
    · exact run_more hle (by rw [hrun]; exact hended)
    · exact (run_more hle (by rw [hrun']; exact hended')).symm
  rw [hrun, hrun'] at heq
  exact Prod.mk.inj heq

/-- The limit on nested calls does nothing but cut runs off. A run that does not fail because of it ends in the same
way under every greater limit, and on the same machine: the same output, input that is left and random numbers. -/
theorem ends_of_greater_limit (s : Session) (entry : Option String) (seed : Option UInt64) {limit greater : Nat}
    (hle : limit ≤ greater) {outcome : Outcome} {after : Session}
    (h : (s.configure ⟨entry, seed, limit⟩).Ends outcome after) (hdepth : outcome.kind? ≠ some .depth)
    (ended : Outcome) (left : Session) :
    (s.configure ⟨entry, seed, greater⟩).Ends ended left ↔
      ended = outcome ∧ left = ⟨after.program, ⟨entry, seed, greater⟩, after.machine⟩ := by
  obtain ⟨machine, hconfigure⟩ : ∃ machine, ∀ n, s.configure ⟨entry, seed, n⟩ = ⟨s.program, ⟨entry, seed, n⟩, machine⟩ := by
    cases seed <;> exact ⟨_, fun _ => rfl⟩
  rw [hconfigure] at h ⊢
  obtain ⟨hended, fuel, hrun⟩ := h
  have hgrow : Outcome.MayGrow Outcome.TooDeep limit greater := .inr ⟨hle, .inr rfl⟩
  have hgreater := (run_extends Outcome.isCut_tooDeep s.program hgrow (Nat.le_refl fuel) entry seed machine).resolve_left
    (by rw [hrun]; exact not_or.mpr ⟨hended, hdepth⟩)
  have hprogram : after.program = s.program := by
    rw [← (Prod.mk.inj hrun).2]
  rw [hrun, ← hprogram] at hgreater
  have hends : Ends ⟨s.program, ⟨entry, seed, greater⟩, machine⟩ outcome
      ⟨after.program, ⟨entry, seed, greater⟩, after.machine⟩ :=
    ⟨hended, fuel, by rw [← hprogram]; exact hgreater⟩
  constructor
  · exact hends.unique
  · rintro ⟨rfl, rfl⟩
    exact hends

end Session

namespace Example

/-- Calls itself with smaller numbers, down to zero. -/
def down : Function where
  name := "down"
  parameters := [.parameter "n" .integer false ⟨⟨0, 0⟩, 1⟩]
  locals := []
  body := .user [.branch ⟨⟨0, 0⟩, 2⟩ (.link (some (.compare .greater (.named "n") (.literal (.integer 0))))
    [.call ⟨⟨0, 0⟩, 3⟩ "down" [⟨.arithmetic .subtract (.named "n") (.literal (.integer 1)), false⟩]]
    (.last none [.call ⟨⟨0, 0⟩, 5⟩ "Write" [⟨.named "n", false⟩]]))]
  place := ⟨⟨0, 0⟩, 1⟩

/-- Goes down from two, with four calls under way at the bottom. -/
def descent : Function where
  name := "descent"
  parameters := []
  locals := []
  body := .user [.call ⟨⟨0, 0⟩, 7⟩ "down" [⟨.literal (.integer 2), false⟩]]
  place := ⟨⟨0, 0⟩, 6⟩

/-- A session with both functions and no input. -/
def descending : Session :=
  .start ⟨[down, descent]⟩ .standard (.start (.ofText "") (.ofSeed 0))

end Example

theorem Session.ends_of_greater_limit_descent : ∃ after,
    (Example.descending.configure ⟨none, some 7, 4⟩).Ends .done after ∧ after.machine.host.output = "0\n" ∧
      (Example.descending.configure ⟨none, some 7, 3⟩).run 20 ≠ (.done, after) ∧
      ∀ ended left, (Example.descending.configure ⟨none, some 7, 9⟩).Ends ended left ↔
        ended = .done ∧ left = ⟨after.program, ⟨none, some 7, 9⟩, after.machine⟩ := by
  have hends : (Example.descending.configure ⟨none, some 7, 4⟩).Ends .done
      ((Example.descending.configure ⟨none, some 7, 4⟩).run 20).2 := ⟨nofun, 20, rfl⟩
  exact ⟨_, hends, rfl, nofun, Session.ends_of_greater_limit _ none (some 7) (by decide) hends nofun⟩

end Offside
