import Offside.Proofs.Homogeneous
import Offside.Proofs.Moves

/-!
# What a scope keeps while statements run

A scope is typed if every value suits the declaration of its name and is homogeneous. Running statements keeps a
scope typed, and keeps what belongs to the declarations: the names with their types, ranges and constants, and of an
array its element type, its indices and its length. This holds whatever the statements end in, as every store is
checked before it changes anything.
-/

namespace Offside

open Value

theorem Value.check_eq_ok {name : String} {type : DataType} {range : Option Range} {value : Value} :
    value.check name type range = .ok () ↔ value.type = type ∧ ∀ r, range = some r → r.includes value = true := by
  unfold Value.check
  by_cases ht : value.type = type
  · rw [if_neg (by simpa using ht)]
    cases range with
    | none => simp [ht]
    | some r => cases hr : r.includes value <;> simp [ht, hr]
  · rw [if_pos ht]
    simp [ht]

theorem Cells.accept_eq_ok {cells : Cells Value} {name : String} {index : Int32} {v : Value}
    {slot : Fin cells.size} :
    cells.accept name index v = .ok slot ↔ cells.slot? index = some slot ∧ v.type = cells.element := by
  unfold Cells.accept Cells.locate
  cases cells.slot? index with
  | none => simp
  | some found =>
    by_cases ht : v.type = cells.element
    · simp [ht]
    · simp [ht]

namespace Binding

/-- The value of a binding suits its declaration, and its arrays are homogeneous. -/
structure Typed (name : String) (b : Binding) : Prop where
  suits : b.value.check name b.type b.range = .ok ()
  homogeneous : b.value.Homogeneous

/-- What a binding keeps when its value is replaced. -/
structure Keeps (old new : Binding) : Prop where
  type : new.type = old.type
  range : new.range = old.range
  constant : new.constant = old.constant
  value : old.constant = true → new.value = old.value
  cells : ∀ c, old.value = .array c →
    ∃ d, new.value = .array d ∧ d.element = c.element ∧ d.lower = c.lower ∧ d.size = c.size

theorem Keeps.refl (b : Binding) : b.Keeps b :=
  ⟨rfl, rfl, rfl, fun _ => rfl, fun c hc => ⟨c, hc, rfl, rfl, rfl⟩⟩

theorem Keeps.trans {a b c : Binding} (hab : a.Keeps b) (hbc : b.Keeps c) : a.Keeps c := by
  refine ⟨hbc.type.trans hab.type, hbc.range.trans hab.range, hbc.constant.trans hab.constant, ?_, ?_⟩
  · intro ha
    rw [hbc.value (hab.constant.trans ha), hab.value ha]
  · intro u hu
    obtain ⟨v, hv, helement, hlower, hsize⟩ := hab.cells u hu
    obtain ⟨w, hw, helement', hlower', hsize'⟩ := hbc.cells v hv
    exact ⟨w, hw, helement'.trans helement, hlower'.trans hlower, hsize'.trans hsize⟩

/-- A variable keeps what it has to if it is not an array, or an array of the same shape takes its place. -/
theorem keeps_of_variable {b : Binding} {v : Value} (hconstant : b.constant = false)
    (hcells : ∀ c, b.value = .array c →
      ∃ d, v = .array d ∧ d.element = c.element ∧ d.lower = c.lower ∧ d.size = c.size) :
    b.Keeps ⟨v, b.type, b.range, b.constant⟩ := by
  refine ⟨rfl, rfl, rfl, fun h => ?_, hcells⟩
  cases hconstant.symm.trans h

variable {name : String} {b : Binding} {v : Value} {old new : Cells Value} {index : Int32}

theorem put_cells (h : b.value = .array old) :
    b.put (.array new) = ⟨.array ⟨old.element, old.lower, new.items⟩, b.type, b.range, b.constant⟩ := by
  obtain ⟨value, type, range, constant⟩ := b
  subst h
  rfl

theorem put_eq (h : ∀ old new, b.value = .array old → v ≠ .array new) :
    b.put v = ⟨v, b.type, b.range, b.constant⟩ := by
  obtain ⟨value, type, range, constant⟩ := b
  cases v with
  | array new =>
    cases value with
    | array old => exact absurd rfl (h old new rfl)
    | _ => rfl
  | _ => cases value <;> rfl

theorem putElement_eq {slot : Fin old.size} (h : b.value = .array old) (hslot : old.slot? index = some slot) :
    b.putElement index v = ⟨.array (old.set slot v), b.type, b.range, b.constant⟩ := by
  obtain ⟨value, type, range, constant⟩ := b
  subst h
  rw [putElement, hslot]

/-- The check of a binding has two cases: an array in place of an array, and all other values. -/
theorem check_cases (h : b.check name v = .ok ()) :
    (∃ old new, b.value = .array old ∧ v = .array new ∧ old.element = new.element ∧ old.size = new.size) ∨
      (∀ old new, b.value = .array old → v ≠ .array new) ∧ v.check name b.type b.range = .ok () := by
  unfold Binding.check at h
  split at h
  · rename_i value old new hold
    split at h
    · rename_i hsame
      exact .inl ⟨old, new, hold, rfl, hsame.1, hsame.2⟩
    · cases h
  · rename_i hnot
    exact .inr ⟨hnot, h⟩

theorem checkElement_eq_ok : b.checkElement name index v = .ok () ↔
    ∃ (cells : Cells Value) (slot : Fin cells.size), b.value = .array cells ∧ cells.slot? index = some slot ∧
      v.type = cells.element := by
  rw [checkElement]
  cases b.value with
  | array cells =>
    constructor
    · intro h
      obtain ⟨slot, haccept, -⟩ := map_eq_ok.mp h
      exact ⟨cells, slot, rfl, Cells.accept_eq_ok.mp haccept⟩
    · rintro ⟨_, slot, ⟨⟩, haccept⟩
      exact map_eq_ok.mpr ⟨slot, Cells.accept_eq_ok.mpr haccept, rfl⟩
  | _ => simp

/-- A value that passes the check for a binding leaves what the binding has to keep. A binding whose value has the
declared type never goes from an array to another value, or back. -/
theorem keeps_put (htype : b.value.type = b.type) (hconstant : b.constant = false)
    (hcheck : b.check name v = .ok ()) : b.Keeps (b.put v) := by
  rcases check_cases hcheck with ⟨old, new, hold, rfl, -, hsize⟩ | ⟨hnot, hsuits⟩
  · rw [put_cells hold]
    refine keeps_of_variable hconstant fun c hc => ?_
    cases hold.symm.trans hc
    exact ⟨_, rfl, rfl, rfl, hsize.symm⟩
  · rw [put_eq hnot]
    refine keeps_of_variable hconstant fun c hc => ?_
    have htype := (check_eq_ok.mp hsuits).1.trans htype.symm
    rw [hc] at htype
    cases v with
    | array new => exact absurd rfl (hnot c new hc)
    | _ => cases htype

theorem keeps_putElement (hconstant : b.constant = false) (hcheck : b.checkElement name index v = .ok ()) :
    b.Keeps (b.putElement index v) := by
  obtain ⟨cells, slot, hold, hslot, -⟩ := checkElement_eq_ok.mp hcheck
  rw [putElement_eq hold hslot]
  refine keeps_of_variable hconstant fun c hc => ?_
  cases hold.symm.trans hc
  exact ⟨_, rfl, rfl, rfl, Cells.size_set cells slot v⟩

/-- An array takes over elements without a check against its declaration. It needs none: its element type stays, and a
range says nothing about elements. -/
theorem Typed.put_cells (hb : b.Typed name) (hold : b.value = .array old) (hnew : (array new).Homogeneous)
    (helement : old.element = new.element) : (b.put (.array new)).Typed name := by
  obtain ⟨htype, -⟩ := check_eq_ok.mp hb.suits
  rw [hold] at htype
  rw [Binding.put_cells hold]
  refine ⟨check_eq_ok.mpr ⟨htype, fun _ _ => rfl⟩, ?_⟩
  rw [homogeneous_array] at hnew ⊢
  intro w hw
  rw [helement]
  exact hnew w hw

/-- A value that passes the check for a binding takes the place of the old one. -/
theorem Typed.put (hb : b.Typed name) (hconstant : b.constant = false) (hv : v.Homogeneous)
    (hcheck : b.check name v = .ok ()) : (b.put v).Typed name ∧ b.Keeps (b.put v) := by
  refine ⟨?_, keeps_put (check_eq_ok.mp hb.suits).1 hconstant hcheck⟩
  rcases check_cases hcheck with ⟨old, new, hold, rfl, helement, -⟩ | ⟨hnot, hsuits⟩
  · exact hb.put_cells hold hv helement
  · rw [put_eq hnot]
    exact ⟨hsuits, hv⟩

theorem Typed.putElement (hb : b.Typed name) (hconstant : b.constant = false) (hv : v.Homogeneous)
    (hcheck : b.checkElement name index v = .ok ()) :
    (b.putElement index v).Typed name ∧ b.Keeps (b.putElement index v) := by
  refine ⟨?_, keeps_putElement hconstant hcheck⟩
  obtain ⟨cells, slot, hold, hslot, helement⟩ := checkElement_eq_ok.mp hcheck
  obtain ⟨htype, -⟩ := check_eq_ok.mp hb.suits
  have hhomogeneous := hb.homogeneous
  rw [hold] at htype hhomogeneous
  rw [putElement_eq hold hslot]
  exact ⟨check_eq_ok.mpr ⟨htype, fun _ _ => rfl⟩, hhomogeneous.set hv helement slot⟩

end Binding

namespace Scope

/-- Every value of a scope suits its declaration and is homogeneous. -/
def Typed (s : Scope) : Prop :=
  ∀ name b, s.find? name = some b → b.Typed name

/-- The same names are bound, and every binding keeps what it has to. -/
def Keeps (s t : Scope) : Prop :=
  ∀ name, (s.find? name = none → t.find? name = none) ∧
    ∀ b, s.find? name = some b → ∃ c, t.find? name = some c ∧ b.Keeps c

/-- What statements do to a scope. -/
def Evolves (s t : Scope) : Prop :=
  s.Typed → t.Typed ∧ s.Keeps t

theorem Keeps.refl (s : Scope) : s.Keeps s :=
  fun _ => ⟨id, fun b hb => ⟨b, hb, .refl b⟩⟩

theorem Keeps.trans {s t u : Scope} (hst : s.Keeps t) (htu : t.Keeps u) : s.Keeps u := by
  intro name
  refine ⟨fun h => (htu name).1 ((hst name).1 h), fun a ha => ?_⟩
  obtain ⟨b, hb, hab⟩ := (hst name).2 a ha
  obtain ⟨c, hc, hbc⟩ := (htu name).2 b hb
  exact ⟨c, hc, hab.trans hbc⟩

theorem lasting_evolves : Lasting Evolves where
  refl s := fun hs => ⟨hs, .refl s⟩
  trans hst htu := fun hs => by
    obtain ⟨ht, hkeeps⟩ := hst hs
    obtain ⟨hu, hkeeps'⟩ := htu ht
    exact ⟨hu, hkeeps.trans hkeeps'⟩

theorem Typed.homogeneous {s : Scope} (hs : s.Typed) : s.Homogeneous :=
  fun name b hb => (hs name b hb).homogeneous

theorem typed_empty : empty.Typed := by
  intro name b hb
  cases hb

theorem Typed.insert {s : Scope} {name : String} {b : Binding} (hs : s.Typed) (hb : b.Typed name) :
    (s.insert name b).Typed := by
  intro key c hc
  rw [find?_insert] at hc
  split at hc
  · rename_i hkey
    cases hc
    rw [hkey]
    exact hb
  · exact hs key c hc

theorem Typed.erase {s : Scope} (hs : s.Typed) (name : String) : (s.erase name).Typed := by
  intro key b hb
  rw [find?_erase] at hb
  split at hb
  · cases hb
  · exact hs key b hb

/-- A change of one binding that keeps it typed changes nothing else. -/
theorem evolves_modify {s : Scope} {name : String} {change : Binding → Binding}
    (h : ∀ b, s.find? name = some b → b.Typed name → (change b).Typed name ∧ b.Keeps (change b)) :
    s.Evolves (s.modify name change) := by
  intro hs
  refine ⟨fun key c hc => ?_, fun key => ⟨fun hkey => ?_, fun b hb => ?_⟩⟩
  · rw [find?_modify] at hc
    split at hc
    · rename_i hkey
      subst hkey
      obtain ⟨b, hb, rfl⟩ := Option.map_eq_some_iff.mp hc
      exact (h b hb (hs key b hb)).1
    · exact hs key c hc
  · rw [find?_modify, hkey]
    simp
  · rw [find?_modify, hb]
    split
    · rename_i hkey
      subst hkey
      exact ⟨change b, rfl, (h b hb (hs key b hb)).2⟩
    · exact ⟨b, rfl, .refl b⟩

theorem writable_eq_ok {s : Scope} {name : String} {b : Binding} :
    s.writable name = .ok b ↔ s.find? name = some b ∧ b.constant = false := by
  unfold writable
  cases s.find? name with
  | none => simp
  | some c => cases hc : c.constant <;> grind

/-- A store changes a scope only after its check. -/
theorem evolves_checked {s : Scope} {name : String} {check : Binding → Except Cause Unit}
    {change : Binding → Binding}
    (h : ∀ b, b.Typed name → b.constant = false → check b = .ok () →
      (change b).Typed name ∧ b.Keeps (change b))
    (hcheck : (match s.writable name with
      | .error cause => Except.error cause
      | .ok b => check b) = .ok ()) : s.Evolves (s.modify name change) := by
  split at hcheck
  · cases hcheck
  · rename_i found hfound
    obtain ⟨hfind, hconstant⟩ := writable_eq_ok.mp hfound
    refine evolves_modify fun b hb htyped => ?_
    cases hfind.symm.trans hb
    exact h found htyped hconstant hcheck

theorem evolves_assign {s : Scope} {name : String} {v : Value} (hv : v.Homogeneous) :
    s.Evolves (s.assign name v).2 := by
  unfold assign
  split
  · exact lasting_evolves.refl s
  · rename_i hcheck
    exact evolves_checked (fun b hb hconstant hb' => hb.put hconstant hv hb') hcheck

theorem evolves_assignElement {s : Scope} {name : String} {index : Int32} {v : Value} (hv : v.Homogeneous) :
    s.Evolves (s.assignElement name index v).2 := by
  unfold assignElement
  split
  · exact lasting_evolves.refl s
  · rename_i hcheck
    exact evolves_checked (fun b hb hconstant hb' => hb.putElement hconstant hv hb') hcheck

theorem evolves_store {s : Scope} {target : Target} {v : Value} (hv : v.Homogeneous) :
    s.Evolves (s.store target v).2 := by
  cases target with
  | named name => exact evolves_assign hv
  | element name index =>
    rw [store]
    split
    · exact lasting_evolves.refl s
    · exact evolves_assignElement hv

theorem evolves_storeOutputs {f : Function} {position : Nat} {arguments : List Argument} {slots : List Value}
    {s : Scope} (hslots : ∀ v ∈ slots, v.Homogeneous) :
    s.Evolves (storeOutputs f position arguments slots s).2 := by
  fun_induction storeOutputs f position arguments slots s with
  | case1 position argument arguments slot slots s target _ _ next hstore ih =>
    obtain ⟨hslot, hrest⟩ := List.forall_mem_cons.mp hslots
    have hfirst : s.Evolves (s.store target slot).2 := evolves_store hslot
    rw [hstore] at hfirst
    exact lasting_evolves.trans hfirst (ih hrest)
  | case2 position argument arguments slot slots s target =>
    exact evolves_store (List.forall_mem_cons.mp hslots).1
  | case3 position argument arguments slot slots s _ ih =>
    exact ih (List.forall_mem_cons.mp hslots).2
  | case4 => exact lasting_evolves.refl _

end Scope

namespace Function

theorem typed_bindConstants {s : Scope} {constants : List Declaration} (hs : s.Typed) :
    (bindConstants s constants).Typed := by
  induction constants generalizing s with
  | nil => exact hs
  | cons d rest ih =>
    unfold bindConstants
    split
    · rename_i value _
      refine ih (hs.insert ⟨check_eq_ok.mpr ⟨rfl, ?_⟩, homogeneous_ofLiteral value⟩)
      intro r hr
      cases hr
    · exact ih hs

/-- A declaration binds only what passes the check. -/
theorem check_of_declare {s t : Scope} {name : String} {type : DataType} {range : Option Range} {v : Value}
    (h : s.declare name type range v = (.ok (), t)) :
    v.check name type range = .ok () ∧ t = s.insert name ⟨v, type, range, false⟩ := by
  unfold Scope.declare at h
  split at h
  · cases h
  · rename_i hcheck
    cases h
    exact ⟨hcheck, rfl⟩

theorem typed_declare {s t : Scope} {name : String} {type : DataType} {range : Option Range} {v : Value}
    (hs : s.Typed) (hv : v.Homogeneous) (h : s.declare name type range v = (.ok (), t)) : t.Typed := by
  obtain ⟨hcheck, rfl⟩ := check_of_declare h
  exact hs.insert ⟨hcheck, hv⟩

theorem homogeneous_firstValue (d : Declaration) : (firstValue d).Homogeneous := by
  unfold firstValue
  split
  · exact homogeneous_ofLiteral _
  · exact homogeneous_initial d.type d.range

theorem typed_bindVariables {s t : Scope} {ds : List Declaration} (hs : s.Typed)
    (h : bindVariables s ds = .ok t) : t.Typed := by
  induction ds generalizing s with
  | nil =>
    cases h
    exact hs
  | cons d rest ih =>
    unfold bindVariables at h
    split at h
    · rename_i next hdeclare
      exact ih (typed_declare hs (homogeneous_firstValue d) hdeclare) h
    · cases h

theorem typed_bindParameters {s t : Scope} {parameters : List Declaration} {values : List Value} (hs : s.Typed)
    (hvalues : ∀ v ∈ values, v.Homogeneous) (h : bindParameters s parameters values = .ok t) : t.Typed := by
  induction parameters generalizing s values with
  | nil =>
    cases h
    exact hs
  | cons d rest ih =>
    cases values with
    | nil =>
      cases h
      exact hs
    | cons value more =>
      obtain ⟨hvalue, hmore⟩ := List.forall_mem_cons.mp hvalues
      unfold bindParameters at h
      split at h
      · rename_i next hdeclare
        exact ih (typed_declare hs hvalue hdeclare) hmore h
      · cases h

/-- The body of a function starts in a typed scope. -/
theorem typed_scopeFor {f : Function} {arguments : List Value} {s : Scope}
    (harguments : ∀ v ∈ arguments, v.Homogeneous) (h : f.scopeFor arguments = .ok s) : s.Typed := by
  unfold scopeFor at h
  split at h
  · rename_i t ht
    have htyped : t.Typed := typed_bindVariables (typed_bindConstants Scope.typed_empty) ht
    exact typed_bindParameters htyped harguments h
  · cases h

end Function

theorem Scope.homogeneous_collect {s : Scope} {parameters : List Declaration} {slots : List Value}
    (hs : s.Typed) (hslots : ∀ v ∈ slots, v.Homogeneous) :
    ∀ v ∈ s.collect parameters slots, v.Homogeneous := by
  induction parameters generalizing s slots with
  | nil => exact hslots
  | cons d rest ih =>
    cases slots with
    | nil => exact hslots
    | cons slot more =>
      obtain ⟨hslot, hmore⟩ := List.forall_mem_cons.mp hslots
      rw [collect]
      split
      · refine List.forall_mem_cons.mpr ⟨?_, ih (hs.erase d.name) hmore⟩
        cases hfind : s.find? d.name with
        | none =>
          rw [get?, hfind]
          exact hslot
        | some b =>
          rw [get?, hfind]
          exact (hs d.name b hfind).homogeneous
      · exact List.forall_mem_cons.mpr ⟨hslot, ih hs hmore⟩

open Act

/-- The relation between the frames around statements. -/
def Frame.Evolves (before after : Frame) : Prop :=
  before.scope.Evolves after.scope

/-- The slots of a call stay homogeneous. -/
def Call.Evolves (before after : Call) : Prop :=
  (∀ v ∈ before.slots, v.Homogeneous) → ∀ v ∈ after.slots, v.Homogeneous

theorem Frame.lasting_evolves : Lasting Frame.Evolves where
  refl frame := Scope.lasting_evolves.refl frame.scope
  trans hst htu := Scope.lasting_evolves.trans hst htu

theorem Frame.assign_evolves (target : Target) (value : Expr) : Moves Frame.Evolves (Frame.assign target value) := by
  refine moves_withValue lasting_evolves fun frame v hv htyped => ?_
  exact Scope.evolves_store (htyped.homogeneous.eval hv) htyped

/-- A call reads the scope, and then stores the outputs that come back. -/
theorem Frame.call_evolves {program : Program} {invoke : Function → Act Call}
    (hinvoke : ∀ f, Moves Call.Evolves (invoke f)) (name : String) (arguments : List Argument) :
    Moves Frame.Evolves (Frame.call program invoke name arguments) := by
  rintro ⟨scope, machine⟩ htyped
  have hsame : scope.Typed ∧ scope.Keeps scope := ⟨htyped, .refl scope⟩
  rw [Frame.call]
  split
  · exact hsame
  · rename_i f _
    split
    · exact hsame
    · split
      · exact hsame
      · rename_i values hvalues
        have hslots := hinvoke f ⟨values, machine⟩ (htyped.homogeneous.evalAll hvalues)
        split
        · rename_i slots machine' hdone
          rw [hdone] at hslots
          exact Scope.evolves_storeOutputs hslots htyped
        · exact hsame

theorem Frame.followed_evolves (program : Program) {invoke : Function → Act Call}
    (hinvoke : ∀ f, Moves Call.Evolves (invoke f)) : Frame.Followed program invoke Frame.Evolves where
  lasting := lasting_evolves
  assign := assign_evolves
  counter _ _ _ := Scope.evolves_assign trivial
  call := call_evolves hinvoke

theorem Call.enter_evolves (f : Function) {body : Act Frame} (hbody : Moves Frame.Evolves body) :
    Moves Call.Evolves (Call.enter f body) := by
  rintro ⟨slots, machine⟩ hslots
  rw [Call.enter]
  split
  · exact hslots
  · rename_i scope hscope
    have htyped : scope.Typed := Function.typed_scopeFor hslots hscope
    have hafter := (hbody ⟨scope, machine⟩ htyped).1
    split
    · rename_i scope' machine' hdone
      rw [hdone] at hafter
      exact Scope.homogeneous_collect hafter hslots
    · exact hslots

theorem Call.nested_evolves (limit : Nat) {act : Act Call} (hact : Moves Call.Evolves act) :
    Moves Call.Evolves (Call.nested limit act) := by
  rintro ⟨slots, host, depth⟩ hslots
  rw [Call.nested]
  split
  · exact hslots
  · exact hact ⟨slots, host, depth + 1⟩ hslots

/-- By induction on how deep calls may nest: the statements of a body call functions with less fuel. -/
theorem Function.run_evolves (program : Program) (limit fuel : Nat) (f : Function) :
    Moves Call.Evolves (f.run program limit fuel) := by
  induction fuel generalizing f with
  | zero => exact fun _ h => h
  | succ fuel ih =>
    intro call hslots
    unfold Function.run
    split
    · exact hslots
    · split
      · exact Builtin.homogeneous_perform hslots
      · have hbody := (Frame.followed_evolves program ih).runAll fuel
        exact Call.nested_evolves limit (Call.enter_evolves f (hbody _)) call hslots

/-- Statements keep a typed scope typed and its declarations as they are, whatever they end in. -/
theorem Stmt.scope_runAll (program : Program) (limit calls rounds : Nat) (body : List Stmt) (frame : Frame)
    (h : frame.scope.Typed) :
    (Stmt.runAll program (Function.run program limit calls) rounds body frame).2.scope.Typed ∧
      frame.scope.Keeps (Stmt.runAll program (Function.run program limit calls) rounds body frame).2.scope := by
  have hfollowed := Frame.followed_evolves program (Function.run_evolves program limit calls)
  exact hfollowed.runAll rounds body frame h

namespace Example

/-- Adds one to its `var` parameter. -/
def bump : Function where
  name := "bump"
  parameters := [.parameter "x" .integer true ⟨⟨0, 0⟩, 1⟩]
  locals := []
  body := .user [.assign ⟨⟨0, 0⟩, 2⟩ (.named "x") (.arithmetic .add (.named "x") (.literal (.integer 1)))]
  place := ⟨⟨0, 0⟩, 1⟩

/-- An array with indices from 2 to 3, an integer from 0 to 1, and a constant. -/
def scope : Scope :=
  ((Scope.empty.insert "a" ⟨.array ⟨.integer, 2, #[.integer 0, .integer 0]⟩, .array .integer,
    some ⟨.integer 2, .integer 3⟩, false⟩).insert "n" ⟨.integer 0, .integer,
    some ⟨.integer 0, .integer 1⟩, false⟩).define "k" (.integer 7)

/-- Counts in the last element, until the count is too large for the integer. -/
def body : List Stmt :=
  [.loopWhile ⟨⟨0, 0⟩, 3⟩ (.compare .less (.named "n") (.named "k"))
    [.call ⟨⟨0, 0⟩, 4⟩ "bump" [⟨.element "a" (.literal (.integer 3)), true⟩],
      .assign ⟨⟨0, 0⟩, 5⟩ (.named "n") (.element "a" (.literal (.integer 3)))]]

def frame : Frame :=
  ⟨scope, .start (.ofText "") (.ofSeed 0), 0⟩

theorem typed_scope : scope.Typed := by
  refine ((Scope.typed_empty.insert ⟨?_, ?_⟩).insert ⟨?_, ?_⟩).insert ⟨?_, ?_⟩
  · rfl
  · exact homogeneous_array.mpr (by simp [Value.type, Value.Homogeneous])
  · rfl
  · trivial
  · rfl
  · trivial

end Example

/-- The loop fails in its second round, after two calls. -/
theorem Stmt.scope_runAll_bump :
    (∃ fault, (Stmt.runAll ⟨[Example.bump]⟩ (Function.run ⟨[Example.bump]⟩ 2 5) 5 Example.body Example.frame).1 =
        .failed fault) ∧
      (Stmt.runAll ⟨[Example.bump]⟩ (Function.run ⟨[Example.bump]⟩ 2 5) 5 Example.body
        Example.frame).2.scope.Typed ∧
      Example.scope.Keeps (Stmt.runAll ⟨[Example.bump]⟩ (Function.run ⟨[Example.bump]⟩ 2 5) 5 Example.body
        Example.frame).2.scope :=
  ⟨⟨_, rfl⟩, Stmt.scope_runAll ⟨[Example.bump]⟩ 2 5 5 Example.body Example.frame Example.typed_scope⟩

end Offside
