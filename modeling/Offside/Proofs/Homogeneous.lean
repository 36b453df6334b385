import Offside.Host.Builtin
import Offside.Machine.Basic
import Offside.Proofs.Attempt

/-!
# Homogeneous values

The elements of an array have the type that the array says, and so have those of every array among them. Whatever
a program computes from such values is such a value again: by evaluation, by the first value of a variable, by
reading, and in the slots of a built-in function.
-/

namespace Offside

namespace Value

mutual

def Homogeneous : Value → Prop
  | array ⟨element, _, ⟨items⟩⟩ => EachOf element items
  | _ => True

/-- Every value has a type and is homogeneous itself. -/
def EachOf (type : DataType) : List Value → Prop
  | [] => True
  | v :: vs => (v.type = type ∧ v.Homogeneous) ∧ EachOf type vs

end

theorem eachOf_iff {type : DataType} {values : List Value} :
    EachOf type values ↔ ∀ v ∈ values, v.type = type ∧ v.Homogeneous := by
  induction values with
  | nil => simp [EachOf]
  | cons v vs ih => rw [EachOf, ih, List.forall_mem_cons]

theorem homogeneous_array {cells : Cells Value} :
    (array cells).Homogeneous ↔ ∀ v ∈ cells.items, v.type = cells.element ∧ v.Homogeneous := by
  obtain ⟨element, lower, ⟨items⟩⟩ := cells
  rw [Homogeneous, eachOf_iff]
  simp

theorem homogeneous_of_not_array {v : Value} (h : v.type.isArray = false) : v.Homogeneous := by
  cases v with
  | array cells => exact absurd h (by simp [type, DataType.isArray])
  | _ => trivial

theorem homogeneous_ofLiteral (l : Literal) : (ofLiteral l).Homogeneous := by
  cases l <;> trivial

theorem Homogeneous.of_mem {cells : Cells Value} (h : (array cells).Homogeneous) {v : Value}
    (hv : v ∈ cells.items) : v.Homogeneous :=
  (homogeneous_array.mp h v hv).2

theorem Homogeneous.set {cells : Cells Value} (h : (array cells).Homogeneous) {v : Value}
    (hv : v.Homogeneous) (ht : v.type = cells.element) (slot : Fin cells.size) :
    (array (cells.set slot v)).Homogeneous := by
  rw [homogeneous_array] at h ⊢
  intro w hw
  rw [Cells.element_set]
  rcases Array.mem_or_eq_of_mem_set (w := slot.isLt) hw with hold | rfl
  · exact h w hold
  · exact ⟨ht, hv⟩

theorem type_initial (type : DataType) (range : Option Range) : (initial type range).type = type := by
  cases type <;> rfl

theorem homogeneous_initial (type : DataType) (range : Option Range) : (initial type range).Homogeneous := by
  induction type generalizing range with
  | array element ih =>
    rw [initial, homogeneous_array]
    intro v hv
    rw [(Array.mem_replicate.mp hv).2]
    exact ⟨type_initial element none, ih none⟩
  | _ => exact homogeneous_of_not_array (by rw [type_initial]; rfl)

end Value

open Value

namespace Cells

theorem homogeneous_read {cells : Cells Value} {index : Int32} {v : Value} (h : (array cells).Homogeneous)
    (hread : cells.read index = .ok v) : v.Homogeneous := by
  obtain ⟨slot, -, rfl⟩ := map_eq_ok.mp hread
  exact h.of_mem (Array.getElem_mem slot.isLt)

end Cells

theorem Arithmetic.homogeneous_apply {op : Arithmetic} {v w result : Value} (h : op.apply v w = .ok result) :
    result.Homogeneous := by
  unfold Arithmetic.apply at h
  split at h
  · obtain ⟨n, -, rfl⟩ := map_eq_ok.mp h
    trivial
  · cases h
    trivial
  · split at h
    · cases h
      trivial
    · cases h
  · cases h

theorem Value.homogeneous_negate {v result : Value} (h : v.negate = .ok result) : result.Homogeneous := by
  cases v with
  | integer n => cases h; trivial
  | real x => cases h; trivial
  | _ => cases h

namespace Scope

/-- Every value of a scope is homogeneous. -/
def Homogeneous (s : Scope) : Prop :=
  ∀ name b, s.find? name = some b → b.value.Homogeneous

theorem Homogeneous.load {s : Scope} (hs : s.Homogeneous) {name : String} {v : Value}
    (h : s.load name = .ok v) : v.Homogeneous := by
  rw [Scope.load] at h
  split at h
  · rename_i value hget
    cases h
    obtain ⟨b, hb, rfl⟩ := Option.map_eq_some_iff.mp hget
    exact hs name b hb
  · cases h

/-- Evaluation hands out what a scope holds, elements of it, and scalars. -/
theorem Homogeneous.eval {s : Scope} (hs : s.Homogeneous) {e : Expr} {v : Value} (h : e.eval s = .ok v) :
    v.Homogeneous := by
  cases e with
  | literal value =>
    cases h
    exact homogeneous_ofLiteral value
  | named name => exact hs.load h
  | element name index =>
    rw [Expr.eval] at h
    obtain ⟨value, hvalue, h⟩ := bind_eq_ok.mp h
    obtain ⟨i, -, h⟩ := bind_eq_ok.mp h
    obtain ⟨n, -, h⟩ := bind_eq_ok.mp h
    cases value with
    | array cells => exact Cells.homogeneous_read (hs.load hvalue) h
    | _ => cases h
  | negate operand =>
    rw [Expr.eval] at h
    obtain ⟨value, -, h⟩ := bind_eq_ok.mp h
    exact homogeneous_negate h
  | arithmetic op left right =>
    rw [Expr.eval] at h
    obtain ⟨l, -, h⟩ := bind_eq_ok.mp h
    obtain ⟨r, -, h⟩ := bind_eq_ok.mp h
    exact Arithmetic.homogeneous_apply h
  | compare op left right =>
    rw [Expr.eval] at h
    obtain ⟨l, -, h⟩ := bind_eq_ok.mp h
    obtain ⟨r, -, h⟩ := bind_eq_ok.mp h
    obtain ⟨b, -, h⟩ := bind_eq_ok.mp h
    cases h
    trivial

theorem Homogeneous.evalAll {s : Scope} (hs : s.Homogeneous) {arguments : List Argument} {values : List Value}
    (h : Argument.evalAll s arguments = .ok values) : ∀ v ∈ values, v.Homogeneous := by
  induction arguments generalizing values with
  | nil =>
    cases h
    simp
  | cons a rest ih =>
    rw [Argument.evalAll] at h
    obtain ⟨value, hvalue, h⟩ := bind_eq_ok.mp h
    obtain ⟨more, hmore, h⟩ := bind_eq_ok.mp h
    cases h
    exact List.forall_mem_cons.mpr ⟨hs.eval hvalue, ih hmore⟩

end Scope

theorem Value.type_readAs {old v : Value} {text : String} (h : old.readAs text = .ok v) : v.type = old.type := by
  unfold readAs at h
  cases old with
  | string s => cases h; rfl
  | array cells => cases h
  | _ =>
    simp only at h
    split at h
    · rename_i hread
      obtain ⟨x, -, rfl⟩ := Option.map_eq_some_iff.mp hread
      cases h
      rfl
    · cases h

theorem Value.homogeneous_readAs {old v : Value} {text : String} (h : old.readAs text = .ok v) :
    v.Homogeneous := by
  refine homogeneous_of_not_array ?_
  rw [type_readAs h]
  cases old with
  | array cells => cases h
  | _ => rfl

namespace Builtin

theorem homogeneous_endItem {cells : Cells Value} {item : Option Value} {v : Value}
    (hc : (array cells).Homogeneous) (hitem : ∀ w, item = some w → w ∈ cells.items)
    (h : endItem cells item = .ok v) : v.Homogeneous := by
  unfold endItem at h
  split at h
  · cases h
    exact hc.of_mem (hitem _ rfl)
  · cases h

theorem eq_array_of_arrayArgument {b : Builtin} {position : Nat} {v : Value} {cells : Cells Value}
    (h : b.arrayArgument position v = .ok cells) : v = array cells := by
  cases v with
  | array c => cases h; rfl
  | _ => cases h

theorem homogeneous_compute {b : Builtin} {arguments : List Value} {v : Value}
    (ha : ∀ w ∈ arguments, w.Homogeneous) (h : b.compute arguments = .ok v) : v.Homogeneous := by
  unfold compute at h
  split at h
  case h_7 | h_8 =>
    obtain ⟨cells, hcells, h⟩ := bind_eq_ok.mp h
    rw [eq_array_of_arrayArgument hcells] at ha
    exact homogeneous_endItem (ha _ List.mem_cons_self) (fun w hw => Array.mem_of_getElem? hw) h
  case h_9 => cases h
  all_goals
    refine homogeneous_of_not_array ?_
    simp only [bind_eq_ok, pure_eq_ok] at h
    grind [Value.type, DataType.isArray]

theorem homogeneous_fill {slots : List Value} (h : ∀ v ∈ slots, v.Homogeneous) (host : Host) :
    ∀ v ∈ (fill slots host).2.1, v.Homogeneous := by
  induction slots generalizing host with
  | nil => exact h
  | cons slot rest ih =>
    unfold fill
    split
    · exact h
    · rename_i word next hnext
      split
      · exact h
      · rename_i value hread
        have hrest := ih (List.forall_mem_cons.mp h).2 next
        exact List.forall_mem_cons.mpr ⟨homogeneous_readAs hread, hrest⟩

theorem homogeneous_perform {b : Builtin} {slots : List Value} {host : Host} (h : ∀ v ∈ slots, v.Homogeneous) :
    ∀ v ∈ (b.perform slots host).2.1, v.Homogeneous := by
  have hfront : ∀ v ∈ slots.dropLast, v.Homogeneous := fun v hv => h v (List.dropLast_subset slots hv)
  have hanswer : ∀ {answer : Value}, answer.Homogeneous → ∀ v ∈ slots.dropLast ++ [answer], v.Homogeneous := by
    intro answer ha
    exact List.forall_mem_append.mpr ⟨hfront, by simpa using ha⟩
  unfold perform
  split
  · exact homogeneous_fill h host
  · exact h
  · exact hanswer trivial
  · split
    · exact h
    · rename_i heq
      exact hanswer (homogeneous_compute hfront heq)

end Builtin

end Offside
