import Offside.Proofs.ScopeTyping

/-!
# Places of a scope

An expression reads the variables that it names and no others. A target names a place: a whole variable, or an element
of an array once its index has a value. A store at a place changes that place alone, and stores what it is given.
-/

namespace Offside

/-! ### What an expression reads -/

/-- The variables that an expression reads. -/
def Expr.names : Expr → List String
  | literal _ => []
  | named name => [name]
  | element name index => name :: index.names
  | negate operand => operand.names
  | arithmetic _ left right | compare _ left right => left.names ++ right.names

/-- An expression has the same value in scopes that agree on what it reads. -/
theorem Expr.eval_congr {s t : Scope} {e : Expr} (h : ∀ name ∈ e.names, s.get? name = t.get? name) :
    e.eval s = e.eval t := by
  induction e with
  | literal => rfl
  | named name => rw [eval, eval, Scope.load, Scope.load, h name List.mem_cons_self]
  | element name index ih =>
    obtain ⟨hname, hindex⟩ := List.forall_mem_cons.mp h
    rw [eval, eval, Scope.load, Scope.load, hname, ih hindex]
  | negate operand ih => rw [eval, eval, ih h]
  | arithmetic op left right hleft hright | compare op left right hleft hright =>
    obtain ⟨hl, hr⟩ := List.forall_mem_append.mp h
    rw [eval, eval, hleft hl, hright hr]

/-! ### Elements -/

namespace Cells

variable {c : Cells Value} {index : Int32} {slot : Fin c.size}

theorem slot?_eq_some : c.slot? index = some slot ↔
    c.lower.toInt ≤ index.toInt ∧ (index.toInt - c.lower.toInt).toNat = slot.val := by
  have hslot := slot.isLt
  simp only [slot?]
  split
  · simp only [Option.some.injEq, Fin.ext_iff]
    omega
  · simp only [reduceCtorEq, false_iff]
    omega

theorem toOption_read (c : Cells Value) (index : Int32) : (c.read index).toOption =
    if c.lower.toInt ≤ index.toInt then c.items[(index.toInt - c.lower.toInt).toNat]? else none := by
  rw [read, locate]
  cases hslot : c.slot? index with
  | none =>
    have hmissed : ¬ (c.lower.toInt ≤ index.toInt ∧ index.toInt ≤ c.upper) := by
      rw [← slot?_isSome_iff, hslot]
      simp
    by_cases hlower : c.lower.toInt ≤ index.toInt
    · have hupper : c.upper < index.toInt := Int.not_le.mp fun hle => hmissed ⟨hlower, hle⟩
      have hsize : c.size ≤ (index.toInt - c.lower.toInt).toNat := by
        rw [upper] at hupper
        omega
      rw [if_pos hlower, Array.getElem?_eq_none hsize]
      rfl
    · rw [if_neg hlower]
      rfl
  | some slot =>
    obtain ⟨hlower, hdistance⟩ := slot?_eq_some.mp hslot
    rw [if_pos hlower, hdistance, Array.getElem?_eq_getElem slot.isLt]
    rfl

theorem toOption_read_of_slot (h : c.slot? index = some slot) : (c.read index).toOption = some (c.get slot) := by
  rw [read, locate, h]
  rfl

theorem set_get (c : Cells Value) (slot : Fin c.size) : c.set slot (c.get slot) = c := by
  obtain ⟨element, lower, items⟩ := c
  simp [set, get]

/-- The element that is set has its new value, and all others have the old one. -/
theorem toOption_read_set (h : c.slot? index = some slot) (v : Value) (other : Int32) :
    ((c.set slot v).read other).toOption = if other = index then some v else (c.read other).toOption := by
  obtain ⟨hlower, hdistance⟩ := slot?_eq_some.mp h
  rw [toOption_read, toOption_read, lower_set]
  have hitems : (c.set slot v).items = c.items.set slot v slot.isLt := rfl
  rw [hitems, Array.getElem?_set, ← hdistance]
  by_cases hsame : other = index
  · subst hsame
    simp [hlower]
  · have hne : other.toInt ≠ index.toInt := fun h => hsame (Int32.toInt_inj.mp h)
    by_cases hother : c.lower.toInt ≤ other.toInt
    · rw [if_pos hother, if_pos hother, if_neg hsame, if_neg (by omega)]
    · rw [if_neg hother, if_neg hother, if_neg hsame]

end Cells

/-- The element of a variable at an index, if the variable is an array that has one there. -/
def Scope.element? (s : Scope) (name : String) (index : Int32) : Option Value :=
  (s.get? name).bind fun value => (value.element index).toOption

/-! ### Places -/

/-- A variable as a whole, or one element of it. -/
inductive Place where
  | named (name : String)
  | element (name : String) (index : Int32)
  deriving DecidableEq, Repr

/-- The place that a target names in a scope. -/
def Target.place (s : Scope) : Target → Except Cause Place
  | .named name => .ok (.named name)
  | .element name index => (index.evalInteger s .index).map (.element name)

namespace Place

def name : Place → String
  | named name => name
  | element name _ => name

/-- A place includes an element: it is that element, or the whole variable. -/
def Includes : Place → String → Int32 → Prop
  | named name, array, _ => name = array
  | element name index, array, i => name = array ∧ index = i

instance (place : Place) (array : String) (i : Int32) : Decidable (place.Includes array i) :=
  match place with
  | named name => inferInstanceAs (Decidable (name = array))
  | element name index => inferInstanceAs (Decidable (name = array ∧ index = i))

/-- Checks that a value may be stored at a place of a binding. -/
def check : Place → Value → Binding → Except Cause Unit
  | named name, v, b => b.check name v
  | element name index, v, b => b.checkElement name index v

def write : Place → Value → Binding → Binding
  | named _, v, b => b.put v
  | element _ index, v, b => b.putElement index v

end Place

theorem Binding.put_self (b : Binding) : b.put b.value = b := by
  obtain ⟨value, type, range, constant⟩ := b
  cases value <;> rfl

namespace Scope

/-- The value at a place. -/
def at? (s : Scope) : Place → Option Value
  | .named name => s.get? name
  | .element name index => s.element? name index

theorem at?_congr {s t : Scope} {place : Place} (h : s.get? place.name = t.get? place.name) :
    s.at? place = t.at? place := by
  cases place with
  | named name => exact h
  | element name index =>
    rw [Place.name] at h
    rw [at?, at?, element?, element?, h]

/-- Stores a value at a place. -/
def put (s : Scope) : Place → Value → Except Cause Unit × Scope
  | .named name, v => s.assign name v
  | .element name index, v => s.assignElement name index v

variable {s t : Scope} {place : Place} {target : Target} {v : Value}

/-- A store finds the place first. -/
theorem store_eq (s : Scope) (target : Target) (v : Value) : s.store target v =
    match target.place s with
    | .error cause => (.error cause, s)
    | .ok place => s.put place v := by
  cases target with
  | named name => rfl
  | element name index =>
    rw [store, Target.place]
    cases index.evalInteger s .index <;> rfl

theorem get?_modify_of_ne {name key : String} (h : name ≠ key) (change : Binding → Binding) :
    (s.modify key change).get? name = s.get? name := by
  rw [get?, get?, find?_modify, if_neg h]

/-- A store changes no variable but that of its target, whatever it ends in. -/
theorem get?_store_of_ne {name : String} (hname : name ≠ target.name) :
    (s.store target v).2.get? name = s.get? name := by
  cases target with
  | named other =>
    rw [store, assign]
    split
    · rfl
    · exact get?_modify_of_ne hname _
  | element other index =>
    rw [store]
    split
    · rfl
    · rw [assignElement]
      split
      · rfl
      · exact get?_modify_of_ne hname _

/-- A store asks first whether the variable may be stored to, then whether the place takes the value. -/
theorem put_eq (s : Scope) (place : Place) (v : Value) : s.put place v =
    match s.writable place.name with
    | .error cause => (.error cause, s)
    | .ok b =>
      match place.check v b with
      | .error cause => (.error cause, s)
      | .ok () => (.ok (), s.modify place.name (place.write v)) := by
  cases place with
  | named name =>
    rw [put, assign, checkAssign, Place.name]
    cases s.writable name with
    | error cause => rfl
    | ok b =>
      simp only [Place.check]
      cases b.check name v <;> rfl
  | element name index =>
    rw [put, assignElement, checkAssignElement, Place.name]
    cases s.writable name with
    | error cause => rfl
    | ok b =>
      simp only [Place.check]
      cases b.checkElement name index v <;> rfl

theorem put_done : s.put place v = (.ok (), t) ↔ ∃ b, s.find? place.name = some b ∧ b.constant = false ∧
    place.check v b = .ok () ∧ t = s.modify place.name (place.write v) := by
  rw [put_eq]
  cases hwritable : s.writable place.name with
  | error cause =>
    simp only [Prod.mk.injEq, reduceCtorEq, false_and, false_iff]
    rintro ⟨b, hb, hconstant, -⟩
    cases hwritable.symm.trans (writable_eq_ok.mpr ⟨hb, hconstant⟩)
  | ok b =>
    obtain ⟨hb, hconstant⟩ := writable_eq_ok.mp hwritable
    cases hcheck : place.check v b with
    | error cause => simp [hb, hcheck]
    | ok =>
      simp only [hcheck, Prod.mk.injEq, true_and]
      constructor
      · rintro rfl
        exact ⟨b, hb, hconstant, hcheck, rfl⟩
      · rintro ⟨_, -, -, -, rfl⟩
        rfl

/-- A store that fails changes nothing. -/
theorem put_failed {cause : Cause} (h : s.put place v = (.error cause, t)) : t = s := by
  rw [put_eq] at h
  split at h
  · exact (Prod.mk.inj h).2.symm
  · split at h
    · exact (Prod.mk.inj h).2.symm
    · cases h

/-- A store changes the variable of its place alone. -/
theorem get?_put_of_ne (h : s.put place v = (.ok (), t)) {name : String} (hname : name ≠ place.name) :
    t.get? name = s.get? name := by
  obtain ⟨b, -, -, -, rfl⟩ := put_done.mp h
  exact get?_modify_of_ne hname _

theorem get?_put (h : s.put place v = (.ok (), t)) :
    ∃ b, s.get? place.name = some b.value ∧ place.check v b = .ok () ∧
      t.get? place.name = some (place.write v b).value := by
  obtain ⟨b, hb, -, hcheck, rfl⟩ := put_done.mp h
  refine ⟨b, by rw [get?, hb]; rfl, hcheck, ?_⟩
  rw [get?, find?_modify, if_pos rfl, hb]
  rfl

/-- A store at an element has an array there, in which it sets the element. -/
theorem get?_put_element {name : String} {index : Int32} (h : s.put (.element name index) v = (.ok (), t)) :
    ∃ (c : Cells Value) (slot : Fin c.size), s.get? name = some (.array c) ∧ c.slot? index = some slot ∧
      t.get? name = some (.array (c.set slot v)) := by
  obtain ⟨b, hb, hcheck, hnew⟩ := get?_put h
  obtain ⟨c, slot, hvalue, hslot, -⟩ := Binding.checkElement_eq_ok.mp hcheck
  rw [Place.write, Binding.putElement_eq hvalue hslot] at hnew
  exact ⟨c, slot, hvalue ▸ hb, hslot, hnew⟩

/-- An element is what was stored at it. -/
theorem element?_put_self {name : String} {index : Int32} (h : s.put (.element name index) v = (.ok (), t)) :
    t.element? name index = some v := by
  obtain ⟨c, slot, -, hslot, hnew⟩ := get?_put_element h
  rw [element?, hnew]
  exact (Cells.toOption_read_set hslot v index).trans (if_pos rfl)

/-- An element stays what it is if a store at another place is done. -/
theorem element?_put_of_not_includes (h : s.put place v = (.ok (), t)) {name : String} {index : Int32}
    (hplace : ¬ place.Includes name index) : t.element? name index = s.element? name index := by
  by_cases hname : name = place.name
  · cases place with
    | named other => exact absurd hname.symm hplace
    | element other i =>
      obtain rfl : name = other := hname
      have hindex : index ≠ i := fun heq => hplace ⟨rfl, heq.symm⟩
      obtain ⟨c, slot, hold, hslot, hnew⟩ := get?_put_element h
      rw [element?, element?, hnew, hold]
      exact (Cells.toOption_read_set hslot v index).trans (if_neg hindex)
  · rw [element?, element?, get?_put_of_ne h hname]

/-- A store of what is there already changes no value. -/
theorem get?_put_same (h : s.put place v = (.ok (), t)) (hv : s.at? place = some v) :
    t.get? place.name = s.get? place.name := by
  cases place with
  | named name =>
    obtain ⟨b, hb, -, hnew⟩ := get?_put h
    obtain rfl : b.value = v := Option.some.inj (hb.symm.trans hv)
    rw [hnew, hb, Place.write, Binding.put_self]
  | element name index =>
    obtain ⟨c, slot, hold, hslot, hnew⟩ := get?_put_element h
    obtain rfl : c.get slot = v := by
      rw [at?, element?, hold] at hv
      exact Option.some.inj ((Cells.toOption_read_of_slot hslot).symm.trans hv)
    rw [Place.name, hnew, hold, Cells.set_get]

end Scope

end Offside
