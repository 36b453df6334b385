import Offside.Proofs.Places

/-!
# Checked stores

A scope changes by declarations and by stores to whole variables or to elements. Each is checked first, and one that
fails leaves the scope as it was. A store that is done changes its own place and nothing else, and the place then has
the value that was stored. An array takes over the elements of another under its own indices.
-/

namespace Offside

/-- A scope that the operations on scopes build, whether they fail or not. There are no others while a program runs. -/
inductive Scope.Built : Scope → Prop where
  | empty : Built .empty
  | define {s : Scope} (h : Built s) (name : String) (v : Value) : Built (s.define name v)
  | declare {s : Scope} (h : Built s) (name : String) (type : DataType) (range : Option Range) (v : Value) :
      Built (s.declare name type range v).2
  | assign {s : Scope} (h : Built s) (name : String) (v : Value) : Built (s.assign name v).2
  | assignElement {s : Scope} (h : Built s) (name : String) (index : Int32) (v : Value) :
      Built (s.assignElement name index v).2
  | take {s : Scope} (h : Built s) (name : String) : Built (s.take name).2

/-- What a variable takes as a whole: an array takes an array of its element type and length, and otherwise the value
has to suit the declaration. -/
structure Binding.Admits (name : String) (b : Binding) (v : Value) : Prop where
  cells : ∀ old new, b.value = .array old → v = .array new → old.element = new.element ∧ old.size = new.size
  other : (∀ old new, b.value = .array old → v ≠ .array new) → v.check name b.type b.range = .ok ()

/-- A store to a variable leaves the other bindings alone, and of its own what belongs to the declaration. -/
structure Scope.ChangesOnly (s : Scope) (name : String) (t : Scope) : Prop where
  others : ∀ key, key ≠ name → t.find? key = s.find? key
  kept : ∃ b c, s.find? name = some b ∧ t.find? name = some c ∧ b.Keeps c

/-! ### One binding -/

section

variable {name : String} {b : Binding} {v : Value} {index : Int32} {place : Place}

theorem Binding.check_eq_ok : b.check name v = .ok () ↔ b.Admits name v := by
  constructor
  · intro h
    rcases check_cases h with ⟨old, new, hold, rfl, hsame⟩ | ⟨hnot, hsuits⟩
    · refine ⟨fun old' new' hold' hnew => ?_, fun hnot => absurd rfl (hnot old new hold)⟩
      cases hold.symm.trans hold'
      cases hnew
      exact hsame
    · exact ⟨fun old new hold hnew => absurd hnew (hnot old new hold), fun _ => hsuits⟩
  · rintro ⟨hcells, hother⟩
    unfold Binding.check
    split
    · rename_i old new hold
      exact if_pos (hcells old new hold rfl)
    · rename_i hnot
      exact hother hnot

/-- The distance of an index is exact, so that no index is taken for another. -/
theorem Binding.checkElement_eq_ok_iff : b.checkElement name index v = .ok () ↔ ∃ c, b.value = .array c ∧
    c.lower.toInt ≤ index.toInt ∧ index.toInt < c.lower.toInt + c.size ∧ v.type = c.element := by
  have hslot : ∀ c : Cells Value, (∃ slot, c.slot? index = some slot) ↔
      c.lower.toInt ≤ index.toInt ∧ index.toInt < c.lower.toInt + c.size := by
    intro c
    rw [← Option.isSome_iff_exists, Cells.slot?_isSome_iff, Cells.upper]
    omega
  rw [checkElement_eq_ok]
  constructor
  · rintro ⟨c, slot, hvalue, hfound, htype⟩
    obtain ⟨hlower, hupper⟩ := (hslot c).mp ⟨slot, hfound⟩
    exact ⟨c, hvalue, hlower, hupper, htype⟩
  · rintro ⟨c, hvalue, hlower, hupper, htype⟩
    obtain ⟨slot, hfound⟩ := (hslot c).mpr ⟨hlower, hupper⟩
    exact ⟨c, slot, hvalue, hfound, htype⟩

theorem Place.keeps_write (htype : b.value.type = b.type) (hconstant : b.constant = false)
    (hcheck : place.check v b = .ok ()) : b.Keeps (place.write v b) := by
  cases place with
  | named name => exact Binding.keeps_put htype hconstant hcheck
  | element name index => exact Binding.keeps_putElement hconstant hcheck

theorem Place.type_write (htype : b.value.type = b.type) (hcheck : place.check v b = .ok ()) :
    (place.write v b).value.type = (place.write v b).type := by
  cases place with
  | named name =>
    rw [Place.write]
    rcases Binding.check_cases hcheck with ⟨old, new, hold, rfl, -⟩ | ⟨hnot, hsuits⟩
    · rw [Binding.put_cells hold]
      rwa [hold] at htype
    · rw [Binding.put_eq hnot]
      exact (Value.check_eq_ok.mp hsuits).1
  | element name index =>
    obtain ⟨c, slot, hold, hslot, -⟩ := Binding.checkElement_eq_ok.mp hcheck
    rw [Place.write, Binding.putElement_eq hold hslot]
    rwa [hold] at htype

end

/-! ### Scopes -/

namespace Scope

variable {s t : Scope} {name : String} {v : Value} {place : Place}

/-- Every value has the type that its name is declared with. -/
def Fits (s : Scope) : Prop :=
  ∀ name b, s.find? name = some b → b.value.type = b.type

theorem Fits.insert (hs : s.Fits) {b : Binding} (hb : b.value.type = b.type) (name : String) :
    (s.insert name b).Fits := by
  intro key c hc
  rw [find?_insert] at hc
  split at hc
  · cases hc
    exact hb
  · exact hs key c hc

theorem Fits.put (hs : s.Fits) (place : Place) (v : Value) : (s.put place v).2.Fits := by
  rcases hput : s.put place v with ⟨_ | _, t⟩
  · rw [put_failed hput]
    exact hs
  · obtain ⟨b, hb, -, hcheck, rfl⟩ := put_done.mp hput
    intro key c hc
    rw [find?_modify] at hc
    split at hc
    · rename_i hkey
      rw [hkey, hb] at hc
      cases hc
      exact Place.type_write (hs _ b hb) hcheck
    · exact hs key c hc

theorem declare_cases (s : Scope) (name : String) (type : DataType) (range : Option Range) (v : Value) :
    (∃ cause, v.check name type range = .error cause ∧ s.declare name type range v = (.error cause, s)) ∨
      v.check name type range = .ok () ∧
        s.declare name type range v = (.ok (), s.insert name ⟨v, type, range, false⟩) := by
  rw [declare]
  cases hcheck : v.check name type range with
  | error cause => exact .inl ⟨cause, rfl, rfl⟩
  | ok => exact .inr ⟨rfl, rfl⟩

theorem Built.fits (h : s.Built) : s.Fits := by
  induction h with
  | empty => exact fun _ _ hb => nomatch hb
  | define _ name v ih => exact ih.insert rfl name
  | declare _ name type range v ih =>
    rcases declare_cases _ name type range v with ⟨cause, -, hdeclare⟩ | ⟨hcheck, hdeclare⟩
    · rw [hdeclare]
      exact ih
    · rw [hdeclare]
      exact ih.insert (Value.check_eq_ok.mp hcheck).1 name
  | assign _ name v ih => exact ih.put (.named name) v
  | assignElement _ name index v ih => exact ih.put (.element name index) v
  | take _ name ih =>
    intro key b hb
    rw [Scope.take, find?_erase] at hb
    split at hb
    · cases hb
    · exact ih key b hb

theorem changesOnly_put (hs : s.Fits) (h : s.put place v = (.ok (), t)) : s.ChangesOnly place.name t := by
  obtain ⟨b, hb, hconstant, hcheck, rfl⟩ := put_done.mp h
  refine ⟨fun key hkey => ?_, b, place.write v b, hb, ?_, Place.keeps_write (hs _ b hb) hconstant hcheck⟩
  · rw [find?_modify, if_neg hkey]
  · rw [find?_modify, if_pos rfl, hb]
    rfl

theorem exists_put_done (s : Scope) (place : Place) (v : Value) : (∃ t, s.put place v = (.ok (), t)) ↔
    ∃ b, s.find? place.name = some b ∧ b.constant = false ∧ place.check v b = .ok () := by
  constructor
  · rintro ⟨t, h⟩
    obtain ⟨b, hb, hconstant, hcheck, -⟩ := put_done.mp h
    exact ⟨b, hb, hconstant, hcheck⟩
  · rintro ⟨b, hb, hconstant, hcheck⟩
    exact ⟨_, put_done.mpr ⟨b, hb, hconstant, hcheck, rfl⟩⟩

theorem find?_assign (h : s.assign name v = (.ok (), t)) :
    ∃ b, s.find? name = some b ∧ b.check name v = .ok () ∧ t.find? name = some (b.put v) := by
  have h : s.put (.named name) v = (.ok (), t) := h
  obtain ⟨b, hb, -, hcheck, rfl⟩ := put_done.mp h
  have hb : s.find? name = some b := hb
  refine ⟨b, hb, hcheck, ?_⟩
  rw [find?_modify, hb]
  exact if_pos rfl

/-- A variable that takes an array is an array, and keeps its own indices. -/
theorem get?_assign_array (hs : s.Fits) {new : Cells Value} (h : s.assign name (.array new) = (.ok (), t)) :
    ∃ old, s.get? name = some (.array old) ∧ t.get? name = some (.array ⟨new.element, old.lower, new.items⟩) := by
  obtain ⟨b, hb, hcheck, hnew⟩ := find?_assign h
  rw [get?, get?, hb, hnew]
  rcases Binding.check_cases hcheck with ⟨old, _, hold, ⟨⟩, helement, -⟩ | ⟨hnot, hsuits⟩
  · rw [Binding.put_cells hold, ← helement]
    exact ⟨old, congrArg some hold, rfl⟩
  · have htype := (hs name b hb).trans (Value.check_eq_ok.mp hsuits).1.symm
    cases hvalue : b.value with
    | array old => exact absurd rfl (hnot old new hvalue)
    | _ => simp [hvalue, Value.type] at htype

theorem get?_assign (hv : ∀ new, v ≠ .array new) (h : s.assign name v = (.ok (), t)) : t.get? name = some v := by
  obtain ⟨b, -, -, hnew⟩ := find?_assign h
  rw [get?, hnew, Binding.put_eq fun _ new _ => hv new]
  rfl

/-- Declarations and stores are checked, and a failure leaves the scope as it was. An assignment is done exactly if the
name is a variable that admits the value, and one to an element exactly if the name is an array variable with an element
there, of the type of the value. What is done changes that place alone: the place has the value, and the variable keeps
its declaration and, as an array, its indices. -/
theorem stores_checked (hs : s.Built) (name : String) (type : DataType) (range : Option Range) (index : Int32)
    (v : Value) :
    (∀ cause t, s.declare name type range v = (.error cause, t) ∨ s.assign name v = (.error cause, t) ∨
      s.assignElement name index v = (.error cause, t) → t = s) ∧
    ((∃ t, s.declare name type range v = (.ok (), t)) ↔ v.check name type range = .ok ()) ∧
    ((∃ t, s.assign name v = (.ok (), t)) ↔
      ∃ b, s.find? name = some b ∧ b.constant = false ∧ b.Admits name v) ∧
    ((∃ t, s.assignElement name index v = (.ok (), t)) ↔
      ∃ b c, s.find? name = some b ∧ b.constant = false ∧ b.value = .array c ∧ c.lower.toInt ≤ index.toInt ∧
        index.toInt < c.lower.toInt + c.size ∧ v.type = c.element) ∧
    (∀ t, s.declare name type range v = (.ok (), t) →
      t.find? name = some ⟨v, type, range, false⟩ ∧ ∀ key, key ≠ name → t.find? key = s.find? key) ∧
    (∀ t, s.assign name v = (.ok (), t) → s.ChangesOnly name t ∧
      (∀ new, v = .array new → ∃ old, s.get? name = some (.array old) ∧
        t.get? name = some (.array ⟨new.element, old.lower, new.items⟩)) ∧
      ((∀ new, v ≠ .array new) → t.get? name = some v)) ∧
    (∀ t, s.assignElement name index v = (.ok (), t) → s.ChangesOnly name t ∧ t.element? name index = some v ∧
      ∀ other, other ≠ index → t.element? name other = s.element? name other) := by
  have hdeclare := declare_cases s name type range v
  refine ⟨?_, ?_, ?_, ?_, ?_, ?_, ?_⟩
  · rintro cause t (h | h | h)
    · rcases hdeclare with ⟨_, -, hfailed⟩ | ⟨-, hdone⟩
      · exact (Prod.mk.inj (h.symm.trans hfailed)).2
      · cases h.symm.trans hdone
    · have h : s.put (.named name) v = (.error cause, t) := h
      exact put_failed h
    · have h : s.put (.element name index) v = (.error cause, t) := h
      exact put_failed h
  · rcases hdeclare with ⟨cause, hcheck, hfailed⟩ | ⟨hcheck, hdone⟩
    · simp [hcheck, hfailed]
    · simp [hcheck, hdone]
  · refine (exists_put_done s (.named name) v).trans ?_
    simp only [Place.name, Place.check, Binding.check_eq_ok]
  · refine (exists_put_done s (.element name index) v).trans ?_
    simp only [Place.name, Place.check, Binding.checkElement_eq_ok_iff, exists_and_left]
  · intro t h
    rcases hdeclare with ⟨_, -, hfailed⟩ | ⟨-, hdone⟩
    · cases h.symm.trans hfailed
    · rw [(Prod.mk.inj (h.symm.trans hdone)).2]
      refine ⟨?_, fun key hkey => ?_⟩
      · rw [find?_insert, if_pos rfl]
      · rw [find?_insert, if_neg hkey]
  · intro t h
    have hput : s.put (.named name) v = (.ok (), t) := h
    refine ⟨changesOnly_put hs.fits hput, ?_, fun hv => get?_assign hv h⟩
    rintro new rfl
    exact get?_assign_array hs.fits h
  · intro t h
    have hput : s.put (.element name index) v = (.ok (), t) := h
    refine ⟨changesOnly_put hs.fits hput, element?_put_self hput, fun other hother => ?_⟩
    exact element?_put_of_not_includes hput fun hsame => hother hsame.2.symm

end Scope

namespace Example

/-- A constant, a number up to 10, and an array of two elements from the least index on. -/
def lowScope : Scope :=
  (((Scope.empty.define "k" (.integer 1)).declare "n" .integer (some ⟨.integer 0, .integer 10⟩) (.integer 4)).2.declare
    "a" (.array .integer) none (.array ⟨.integer, Int32.minValue, #[.integer 5, .integer 6]⟩)).2

theorem built_lowScope : lowScope.Built :=
  .declare (.declare (.define .empty _ _) _ _ _ _) _ _ _ _

end Example

/-- The greatest index is as far from the array as an index can be, and is not taken for one of it. -/
theorem Scope.stores_checked_low : ∃ t u,
    Example.lowScope.assign "a" (.array ⟨.integer, 1, #[.integer 8, .integer 9]⟩) = (.ok (), t) ∧
    t.get? "a" = some (.array ⟨.integer, Int32.minValue, #[.integer 8, .integer 9]⟩) ∧
    t.find? "n" = Example.lowScope.find? "n" ∧
    Example.lowScope.assignElement "a" (Int32.minValue + 1) (.integer 7) = (.ok (), u) ∧
    u.element? "a" (Int32.minValue + 1) = some (.integer 7) ∧
    u.element? "a" Int32.minValue = Example.lowScope.element? "a" Int32.minValue ∧
    (∀ v, ¬ ∃ w, Example.lowScope.assignElement "a" Int32.maxValue v = (.ok (), w)) ∧
    (∀ v, ¬ ∃ w, Example.lowScope.assign "k" v = (.ok (), w)) ∧
    ¬ ∃ w, Example.lowScope.assign "n" (.integer 11) = (.ok (), w) := by
  have hchecked := fun name index v => Scope.stores_checked Example.built_lowScope name .integer none index v
  obtain ⟨-, -, hwhole, -, -, hassigned, -⟩ := hchecked "a" 0 (.array ⟨.integer, 1, #[.integer 8, .integer 9]⟩)
  obtain ⟨-, -, -, helement, -, -, hstored⟩ := hchecked "a" (Int32.minValue + 1) (.integer 7)
  obtain ⟨t, ht⟩ := hwhole.mpr
    ⟨_, rfl, rfl, by rintro _ _ ⟨⟩ ⟨⟩; exact ⟨rfl, rfl⟩, fun hnot => absurd rfl (hnot _ _ rfl)⟩
  obtain ⟨u, hu⟩ := helement.mpr ⟨_, _, rfl, rfl, rfl, by decide, by decide, rfl⟩
  obtain ⟨honly, hcells, -⟩ := hassigned t ht
  obtain ⟨-, hself, hothers⟩ := hstored u hu
  refine ⟨t, u, ht, ?_, honly.others "n" (by decide), hu, hself, hothers _ (by decide), ?_, ?_, ?_⟩
  · obtain ⟨old, ⟨⟩, hnew⟩ := hcells _ rfl
    exact hnew
  · intro v
    obtain ⟨-, -, -, hfar, -⟩ := hchecked "a" Int32.maxValue v
    rw [hfar]
    rintro ⟨_, _, ⟨⟩, -, ⟨⟩, -, hupper, -⟩
    exact absurd hupper (by decide)
  · intro v
    obtain ⟨-, -, hconstant, -⟩ := hchecked "k" 0 v
    rw [hconstant]
    rintro ⟨_, ⟨⟩, hfalse, -⟩
    cases hfalse
  · obtain ⟨-, -, hlimit, -⟩ := hchecked "n" 0 (.integer 11)
    rw [hlimit]
    rintro ⟨_, ⟨⟩, -, -, hother⟩
    exact absurd (hother nofun) (by simp [Value.check, Value.type, Range.includes, Range.integers?])

end Offside
