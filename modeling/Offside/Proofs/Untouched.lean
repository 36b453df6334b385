import Offside.Proofs.ScopeTyping
import Offside.Proofs.WriteBack

/-!
# What statements leave untouched

Statements write to a scope in three ways only: they assign, they set the counter of a loop, and they store the outputs
of a call. The variables that may change are therefore told by the text of the statements and by which arguments the
called functions write to. All others keep their values, however the run ends: what a called function does to its own
variables is not seen, also where they have the same names.
-/

namespace Offside

/-- The variables that the outputs of a call are stored in. -/
def Function.outputNames (f : Function) (arguments : List Argument) : List String :=
  arguments.zipIdx.filterMap fun entry =>
    if f.isOutput entry.2 then entry.1.value.target?.map Target.name else none

mutual

/-- The variables that a statement, or one anywhere inside it, assigns to, counts in or stores an output in. -/
def Stmt.writes (program : Program) : Stmt → List String
  | .assign _ target _ => [target.name]
  | .branch _ chain => chain.writes program
  | .count _ counter _ _ body => counter :: Stmt.writesAll program body
  | .loopWhile _ _ body | .loopUntil _ _ body => Stmt.writesAll program body
  | .call _ name arguments => ((program.function? name).map (·.outputNames arguments)).getD []

def Chain.writes (program : Program) : Chain → List String
  | .last _ body => Stmt.writesAll program body
  | .link _ body next => Stmt.writesAll program body ++ next.writes program

def Stmt.writesAll (program : Program) : List Stmt → List String
  | [] => []
  | s :: rest => s.writes program ++ Stmt.writesAll program rest

end

variable {program : Program} {name : String}

theorem Function.mem_outputNames {f : Function} {arguments : List Argument} {i : Nat} {argument : Argument}
    {target : Target} (hi : arguments[i]? = some argument) (houtput : f.isOutput i = true)
    (htarget : argument.value.target? = some target) : target.name ∈ f.outputNames arguments := by
  refine List.mem_filterMap.mpr ⟨(argument, i), List.mem_zipIdx_iff_getElem?.mpr hi, ?_⟩
  simp [houtput, htarget]

theorem Stmt.mem_writesAll {body : List Stmt} :
    name ∈ Stmt.writesAll program body ↔ ∃ s ∈ body, name ∈ s.writes program := by
  induction body with
  | nil => simp [writesAll]
  | cons s rest ih => simp [writesAll, ih]

theorem Chain.mem_writes (chain : Chain) : name ∈ chain.writes program ↔
    ∃ s ∈ chain.links.flatMap fun link => link.2.1, name ∈ s.writes program := by
  cases chain with
  | last condition body => simp [Chain.writes, Chain.links, Stmt.mem_writesAll]
  | link condition body next =>
    have hnext := Chain.mem_writes next
    simp [Chain.writes, Chain.links, Stmt.mem_writesAll, hnext, or_and_right, exists_or]

theorem Stmt.mem_writes_of_inside {s t : Stmt} (ht : t ∈ s.inside) (h : name ∈ t.writes program) :
    name ∈ s.writes program := by
  cases s with
  | assign | call => cases ht
  | branch place chain =>
    rw [writes]
    exact (Chain.mem_writes chain).mpr ⟨t, ht, h⟩
  | count place counter first last body =>
    rw [writes]
    exact List.mem_cons_of_mem counter (mem_writesAll.mpr ⟨t, ht, h⟩)
  | loopWhile place condition body | loopUntil place condition body =>
    rw [writes]
    exact mem_writesAll.mpr ⟨t, ht, h⟩

open Act

namespace Frame

/-- A variable has the same value in two frames, or is in neither. -/
def Spares (name : String) (before after : Frame) : Prop :=
  after.scope.get? name = before.scope.get? name

theorem lasting_spares : Lasting (Spares name) where
  refl _ := rfl
  trans hst htu := htu.trans hst

theorem assign_spares {target : Target} (hname : name ≠ target.name) (value : Expr) :
    Moves (Spares name) (Frame.assign target value) :=
  moves_withValue lasting_spares fun _ _ _ => Scope.get?_store_of_ne hname

theorem counter_spares {counter : String} (hname : name ≠ counter) (i : Int32) :
    Moves (Spares name) (Frame.onScope fun scope => scope.assign counter (.integer i)) := by
  intro frame
  have hstore : (frame.scope.store (.named counter) (.integer i)).2.get? name = frame.scope.get? name :=
    Scope.get?_store_of_ne hname
  exact hstore

/-- Whatever the called function does, the scope of the caller takes no more than the outputs. -/
theorem call_spares {function : String} {arguments : List Argument}
    (hname : ∀ f, program.function? function = some f → name ∉ f.outputNames arguments) (invoke : Function → Act Call) :
    Moves (Spares name) (Frame.call program invoke function arguments) := by
  rintro ⟨scope, machine⟩
  rw [Frame.call]
  split
  · rfl
  · rename_i f hf
    split
    · rfl
    · split
      · rfl
      · split
        · refine Scope.get?_storeOutputs fun i argument target hi houtput htarget heq => hname f hf ?_
          rw [Nat.zero_add] at houtput
          exact heq ▸ Function.mem_outputNames hi houtput htarget
        · rfl

theorem followedOn_spares (program : Program) (invoke : Function → Act Call) (name : String) :
    FollowedOn program invoke (fun s => name ∉ s.writes program) (Spares name) where
  lasting := lasting_spares
  inside hs ht h := hs (Stmt.mem_writes_of_inside ht h)
  assign {place target value} hs := by
    refine assign_spares (fun heq => hs ?_) value
    rw [Stmt.writes]
    exact List.mem_singleton.mpr heq
  counter {place counter first last body} hs := by
    refine counter_spares fun heq => hs ?_
    rw [Stmt.writes]
    exact heq ▸ List.mem_cons_self
  call {place function arguments} hs := by
    refine call_spares (fun f hf h => hs ?_) invoke
    rw [Stmt.writes, hf]
    exact h

end Frame

/-- Statements leave every variable as it is that none of them, or of those inside, writes to. This holds in any scope
and on any machine, and whether the run is done or stops on the way. -/
theorem Stmt.runAll_untouched (program : Program) (limit calls rounds : Nat) (body : List Stmt) (frame : Frame)
    (name : String) (h : name ∉ Stmt.writesAll program body) :
    (Stmt.runAll program (Function.run program limit calls) rounds body frame).2.scope.get? name =
      frame.scope.get? name := by
  refine (Frame.followedOn_spares program _ name).runAll rounds body (fun s hs hwrites => h ?_) frame
  exact Stmt.mem_writesAll.mpr ⟨s, hs, hwrites⟩

namespace Example

/-- A frame whose variable `x` has the name of the parameter that `bump` changes. -/
def sharedFrame : Frame :=
  { frame with scope := frame.scope.insert "x" ⟨.integer 40, .integer, none, false⟩ }

end Example

/-- The loop fails in its second round, when the calls of `bump` have come back through `a` to `n`. -/
theorem Stmt.runAll_untouched_bump :
    (∃ fault after,
      Stmt.runAll ⟨[Example.bump]⟩ (Function.run ⟨[Example.bump]⟩ 2 5) 5 Example.body Example.sharedFrame =
        (.failed fault, after) ∧ after.scope.get? "n" = some (.integer 1)) ∧
      Stmt.writesAll ⟨[Example.bump]⟩ Example.body = ["a", "n"] ∧
      (Stmt.runAll ⟨[Example.bump]⟩ (Function.run ⟨[Example.bump]⟩ 2 5) 5 Example.body
        Example.sharedFrame).2.scope.get? "x" = some (.integer 40) := by
  have hwrites : Stmt.writesAll ⟨[Example.bump]⟩ Example.body = ["a", "n"] := by decide
  refine ⟨⟨_, _, rfl, rfl⟩, hwrites, ?_⟩
  have hx : "x" ∉ Stmt.writesAll ⟨[Example.bump]⟩ Example.body := by
    rw [hwrites]
    decide
  exact Stmt.runAll_untouched ⟨[Example.bump]⟩ 2 5 5 Example.body Example.sharedFrame "x" hx

end Offside
