import Offside.Machine.Call

/-!
# What an act does to the state

An act may end in any way, and its state counts whatever the end. `Act.Moves R act` says that `R` relates every
state to the one that the act leaves behind. If `R` holds over any number of steps, then it is enough to know it of
assignments, of the counters of loops and of calls: statements do nothing else. Of a given list of statements it is
enough to know it of the assignments, counters and calls anywhere in the list.
-/

namespace Offside

/-- A relation that holds over any number of steps. -/
structure Lasting {σ : Type} (R : σ → σ → Prop) : Prop where
  refl : ∀ s, R s s
  trans : ∀ {s t u}, R s t → R t u → R s u

namespace Act

variable {σ α : Type} {R : σ → σ → Prop} {act : Act σ}

def Moves (R : σ → σ → Prop) (act : Act σ) : Prop :=
  ∀ s, R s (act s).2

theorem moves_skip (hR : Lasting R) : Moves R (skip : Act σ) :=
  hR.refl

theorem Moves.atLine (h : Moves R act) (line : Nat) : Moves R (act.atLine line) :=
  h

theorem Moves.andThen {next : Act σ} (hR : Lasting R) (h : Moves R act) (hnext : Moves R next) :
    Moves R (act.andThen next) := by
  intro s
  have hs := h s
  unfold Act.andThen
  split
  · rename_i t heq
    rw [heq] at hs
    exact hR.trans hs (hnext t)
  · exact hs

/-- What follows a value may rely on where the value comes from. -/
theorem moves_withValue {value : σ → Except Cause α} {next : α → Act σ} (hR : Lasting R)
    (h : ∀ s a, value s = .ok a → R s (next a s).2) : Moves R (withValue value next) := by
  intro s
  unfold withValue
  split
  · exact hR.refl s
  · rename_i a heq
    exact h s a heq

variable {condition : σ → Except Cause Bool}

theorem Moves.repeatWhile (hR : Lasting R) (h : Moves R act) (fuel : Nat) :
    Moves R (repeatWhile condition act fuel) := by
  induction fuel with
  | zero => exact hR.refl
  | succ fuel ih =>
    intro s
    have hs := h s
    unfold Act.repeatWhile
    split
    · exact hR.refl s
    · exact hR.refl s
    · split
      · rename_i t heq
        rw [heq] at hs
        exact hR.trans hs (ih t)
      · exact hs

theorem Moves.repeatUntil (hR : Lasting R) (h : Moves R act) (fuel : Nat) :
    Moves R (repeatUntil condition act fuel) := by
  induction fuel with
  | zero => exact hR.refl
  | succ fuel ih =>
    intro s
    have hs := h s
    unfold Act.repeatUntil
    split
    · rename_i t heq
      rw [heq] at hs
      split
      · exact hs
      · exact hs
      · exact hR.trans hs (ih t)
    · exact hs

theorem Moves.repeatFor {act : Int32 → Act σ} (hR : Lasting R) (h : ∀ i, Moves R (act i)) (count : Nat) :
    ∀ first, Moves R (repeatFor act count first) := by
  induction count with
  | zero => exact fun _ => hR.refl
  | succ count ih =>
    intro first s
    have hs := h first s
    unfold Act.repeatFor
    split
    · rename_i t heq
      rw [heq] at hs
      exact hR.trans hs (ih (first + 1) t)
    · exact hs

end Act

/-- The statements directly inside a statement. -/
def Stmt.inside : Stmt → List Stmt
  | .branch _ chain => chain.links.flatMap fun link => link.2.1
  | .count _ _ _ _ body | .loopWhile _ _ body | .loopUntil _ _ body => body
  | .assign _ _ _ | .call _ _ _ => []

open Act

/-- What has to be known of a relation between frames so that the statements with a property follow it. The property
passes to the statements inside. -/
structure Frame.FollowedOn (program : Program) (invoke : Function → Act Call) (P : Stmt → Prop)
    (R : Frame → Frame → Prop) : Prop where
  lasting : Lasting R
  inside : ∀ {s t}, P s → t ∈ s.inside → P t
  assign : ∀ {place target value}, P (.assign place target value) → Moves R (Frame.assign target value)
  counter : ∀ {place name first last body}, P (.count place name first last body) →
    ∀ i, Moves R (Frame.onScope fun scope => scope.assign name (.integer i))
  call : ∀ {place name arguments}, P (.call place name arguments) →
    Moves R (Frame.call program invoke name arguments)

namespace Frame.FollowedOn

variable {program : Program} {invoke : Function → Act Call} {P : Stmt → Prop} {R : Frame → Frame → Prop}
variable (hR : FollowedOn program invoke P R) (fuel : Nat)
include hR

-- One induction over statements, chains and blocks together.
mutual

theorem run : ∀ s : Stmt, P s → Moves R (s.run program invoke fuel)
  | .assign place target value, hs => by
    rw [Stmt.run]
    exact (hR.assign hs).atLine place.line
  | .branch place chain, hs => by
    rw [Stmt.run]
    exact (runChain chain fun _ ht => hR.inside hs ht).atLine place.line
  | .count place counter first last body, hs => by
    have hround : ∀ i, Moves R ((Frame.onScope fun scope => scope.assign counter (.integer i)).andThen
        (Stmt.runAll program invoke fuel body)) :=
      fun i => (hR.counter hs i).andThen hR.lasting (runAll body fun _ ht => hR.inside hs ht)
    rw [Stmt.run]
    refine Moves.atLine ?_ place.line
    exact moves_withValue hR.lasting fun s bounds _ => Moves.repeatFor hR.lasting hround _ _ s
  | .loopWhile place condition body, hs => by
    rw [Stmt.run]
    exact ((runAll body fun _ ht => hR.inside hs ht).repeatWhile hR.lasting fuel).atLine place.line
  | .loopUntil place condition body, hs => by
    rw [Stmt.run]
    exact ((runAll body fun _ ht => hR.inside hs ht).repeatUntil hR.lasting fuel).atLine place.line
  | .call place function arguments, hs => by
    rw [Stmt.run]
    exact (hR.call hs).atLine place.line

theorem runChain : ∀ c : Chain, (∀ t ∈ c.links.flatMap fun link => link.2.1, P t) → Moves R (c.run program invoke fuel)
  | .last none body, hc => by
    rw [Chain.run]
    exact runAll body fun t ht => hc t (by simpa [Chain.links] using ht)
  | .last (some condition) body, hc => by
    rw [Chain.run]
    refine moves_withValue hR.lasting fun s holds _ => ?_
    cases holds with
    | true => exact runAll body (fun t ht => hc t (by simpa [Chain.links] using ht)) s
    | false => exact moves_skip hR.lasting s
  | .link none body _, hc => by
    rw [Chain.run]
    exact runAll body fun t ht => hc t (List.mem_append_left _ ht)
  | .link (some condition) body next, hc => by
    rw [Chain.run]
    refine moves_withValue hR.lasting fun s holds _ => ?_
    cases holds with
    | true => exact runAll body (fun t ht => hc t (List.mem_append_left _ ht)) s
    | false => exact runChain next (fun t ht => hc t (List.mem_append_right _ ht)) s

theorem runAll : ∀ body : List Stmt, (∀ s ∈ body, P s) → Moves R (Stmt.runAll program invoke fuel body)
  | [], _ => by
    rw [Stmt.runAll]
    exact moves_skip hR.lasting
  | s :: rest, hbody => by
    rw [Stmt.runAll]
    obtain ⟨hs, hrest⟩ := List.forall_mem_cons.mp hbody
    exact (run s hs).andThen hR.lasting (runAll rest hrest)

end

end Frame.FollowedOn

/-- What has to be known of a relation between frames so that all statements follow it. -/
structure Frame.Followed (program : Program) (invoke : Function → Act Call) (R : Frame → Frame → Prop) : Prop where
  lasting : Lasting R
  assign : ∀ target value, Moves R (Frame.assign target value)
  counter : ∀ name i, Moves R (Frame.onScope fun scope => scope.assign name (.integer i))
  call : ∀ name arguments, Moves R (Frame.call program invoke name arguments)

theorem Frame.Followed.runAll {program : Program} {invoke : Function → Act Call} {R : Frame → Frame → Prop}
    (hR : Followed program invoke R) (fuel : Nat) (body : List Stmt) :
    Moves R (Stmt.runAll program invoke fuel body) := by
  have hon : FollowedOn program invoke (fun _ => True) R :=
    { lasting := hR.lasting
      inside := fun _ _ => trivial
      assign := fun _ => hR.assign _ _
      counter := fun _ => hR.counter _
      call := fun _ => hR.call _ _ }
  exact hon.runAll fuel body fun _ _ => trivial

end Offside
