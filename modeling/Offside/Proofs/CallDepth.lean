import Offside.Proofs.Moves

/-!
# The number of calls under way

A call counts itself while it runs. Whatever way it ends, it leaves the number of calls under way as it found it, and
so do all statements.
-/

namespace Offside

open Act

/-- As many calls are under way. -/
def Machine.SameDepth (before after : Machine) : Prop :=
  after.depth = before.depth

def Frame.SameDepth (before after : Frame) : Prop :=
  before.machine.SameDepth after.machine

def Call.SameDepth (before after : Call) : Prop :=
  before.machine.SameDepth after.machine

namespace Frame

theorem lasting_sameDepth : Lasting SameDepth :=
  ⟨fun _ => rfl, fun hst htu => htu.trans hst⟩

theorem assign_sameDepth (target : Target) (value : Expr) : Moves SameDepth (Frame.assign target value) :=
  moves_withValue lasting_sameDepth fun _ _ _ => rfl

variable {program : Program} {invoke : Function → Act Call}

theorem call_sameDepth (hinvoke : ∀ f, Moves Call.SameDepth (invoke f)) (name : String) (arguments : List Argument) :
    Moves SameDepth (Frame.call program invoke name arguments) := by
  rintro ⟨scope, machine⟩
  rw [Frame.call]
  split
  · exact lasting_sameDepth.refl _
  · rename_i f _
    split
    · exact lasting_sameDepth.refl _
    · split
      · exact lasting_sameDepth.refl _
      · rename_i values _
        have hcalled := hinvoke f ⟨values, machine⟩
        split
        · rename_i hdone
          rw [hdone] at hcalled
          exact hcalled
        · rename_i hstopped
          rw [hstopped] at hcalled
          exact hcalled

theorem followed_sameDepth (program : Program) (hinvoke : ∀ f, Moves Call.SameDepth (invoke f)) :
    Followed program invoke SameDepth where
  lasting := lasting_sameDepth
  assign := assign_sameDepth
  counter _ _ _ := rfl
  call := call_sameDepth hinvoke

end Frame

theorem Call.enter_sameDepth (f : Function) {body : Act Frame} (hbody : Moves Frame.SameDepth body) :
    Moves Call.SameDepth (Call.enter f body) := by
  rintro ⟨slots, machine⟩
  rw [Call.enter]
  split
  · rfl
  · rename_i scope _
    have hran := hbody ⟨scope, machine⟩
    split
    · rename_i hdone
      rw [hdone] at hran
      exact hran
    · rename_i hstopped
      rw [hstopped] at hran
      exact hran

/-- The call that counts itself is the one that is taken back. -/
theorem Call.nested_sameDepth (limit : Nat) {act : Act Call} (hact : Moves Call.SameDepth act) :
    Moves Call.SameDepth (Call.nested limit act) := by
  rintro ⟨slots, host, depth⟩
  rw [Call.nested]
  split
  · rfl
  · have hinside : (act ⟨slots, host, depth + 1⟩).2.machine.depth = depth + 1 := hact ⟨slots, host, depth + 1⟩
    change (act ⟨slots, host, depth + 1⟩).2.machine.depth - 1 = depth
    rw [hinside, Nat.add_sub_cancel]

/-- By induction on how deep calls may nest: the statements of a body call functions with less fuel. -/
theorem Function.run_sameDepth (program : Program) (limit fuel : Nat) (f : Function) :
    Moves Call.SameDepth (f.run program limit fuel) := by
  induction fuel generalizing f with
  | zero => exact fun _ => rfl
  | succ fuel ih =>
    intro call
    unfold Function.run
    split
    · rfl
    · split
      · rfl
      · rename_i body _
        have hbody := (Frame.followed_sameDepth program ih).runAll fuel body
        exact Call.nested_sameDepth limit (Call.enter_sameDepth f hbody) call

end Offside
