import Offside.Value.Cells
import Offside.Value.Initial

/-!
# Scopes

The variables of one function call. A call sees its own parameters, locals and constants and nothing else. A
binding remembers the type and the range of its declaration, and every store is checked against them. A store
that fails leaves the scope as it was.
-/

namespace Offside

structure Binding where
  value : Value
  type : DataType
  range : Option Range
  constant : Bool
  deriving Repr

/-- Whether a range includes a value: a number by its size, a string by its length. The range of an array
gives its indices and leaves its values free. -/
def Range.includes (r : Range) : Value → Bool
  | .integer n => r.integers?.all fun (low, high) => low ≤ n && n ≤ high
  | .real x => r.reals?.all fun (low, high) => low ≤ x && x ≤ high
  | .string s => r.integers?.all fun (low, high) => low.toInt ≤ s.length && s.length ≤ high.toInt
  | .character _ | .boolean _ | .array _ => true

namespace Value

/-- Checks that a value may be stored under a name with a declared type and range. -/
def check (name : String) (type : DataType) (range : Option Range) (value : Value) : Except Cause Unit :=
  if value.type ≠ type then .error (.mismatch (.named name) type value.type)
  else match range with
    | none => .ok ()
    | some range => if range.includes value then .ok () else .error (.outOfRange name value range)

end Value

namespace Binding

/-- Checks that the value of a variable may be replaced. An array takes over the elements of another that has
the same element type and length, whatever the indices of the two. -/
def check (name : String) (b : Binding) (value : Value) : Except Cause Unit :=
  match b.value, value with
  | .array old, .array new =>
    if old.element = new.element ∧ old.size = new.size then .ok ()
    else .error (.mismatch (.named name) b.type value.type)
  | _, _ => value.check name b.type b.range

/-- Replaces the value; an array keeps its own indices. -/
def put (b : Binding) (value : Value) : Binding :=
  match b, value with
  | ⟨.array old, type, range, constant⟩, .array new =>
    ⟨.array ⟨old.element, old.lower, new.items⟩, type, range, constant⟩
  | ⟨_, type, range, constant⟩, value => ⟨value, type, range, constant⟩

/-- Checks that one element of a variable may be replaced. -/
def checkElement (name : String) (b : Binding) (index : Int32) (value : Value) : Except Cause Unit :=
  match b.value with
  | .array cells => (cells.accept name index value).map fun _ => ()
  | other => .error (.unsuited .array other.type)

/-- Replaces the element at an index, if there is one. -/
def putElement (b : Binding) (index : Int32) (value : Value) : Binding :=
  match b with
  | ⟨.array cells, type, range, constant⟩ =>
    match cells.slot? index with
    | some slot => ⟨.array (cells.set slot value), type, range, constant⟩
    | none => ⟨.array cells, type, range, constant⟩
  | b => b

end Binding

/-- Bindings by name; no name occurs twice. -/
structure Scope where
  bindings : List (String × Binding)
  deriving Repr

namespace Scope

def empty : Scope :=
  ⟨[]⟩

def find? (s : Scope) (name : String) : Option Binding :=
  s.bindings.lookup name

/-- The value of a name. -/
def get? (s : Scope) (name : String) : Option Value :=
  (s.find? name).map Binding.value

/-- Changes the binding of a name, if there is one. -/
def modify (s : Scope) (name : String) (change : Binding → Binding) : Scope :=
  ⟨go s.bindings⟩
where
  go : List (String × Binding) → List (String × Binding)
    | [] => []
    | (key, b) :: rest => if name = key then (key, change b) :: rest else (key, b) :: go rest

/-- Binds a name, in place of an earlier binding of it. -/
def insert (s : Scope) (name : String) (b : Binding) : Scope :=
  ⟨go s.bindings⟩
where
  go : List (String × Binding) → List (String × Binding)
    | [] => [(name, b)]
    | (key, old) :: rest => if name = key then (key, b) :: rest else (key, old) :: go rest

def erase (s : Scope) (name : String) : Scope :=
  ⟨s.bindings.filter (·.1 ≠ name)⟩

@[simp] theorem find?_empty (name : String) : empty.find? name = none := rfl

theorem lookup_cons (key first : String) (b : Binding) (rest : List (String × Binding)) :
    ((first, b) :: rest).lookup key = if key = first then some b else rest.lookup key := by
  by_cases h : key = first
  · simp [h]
  · simp [List.lookup_cons, h, beq_false_of_ne h]

/-- A change reaches the binding of its name and no other. -/
theorem find?_modify (s : Scope) (name key : String) (change : Binding → Binding) :
    (s.modify name change).find? key = if key = name then (s.find? key).map change else s.find? key := by
  obtain ⟨bindings⟩ := s
  simp only [modify, find?]
  induction bindings with
  | nil => simp [modify.go]
  | cons entry rest ih =>
    obtain ⟨first, b⟩ := entry
    rw [modify.go, lookup_cons]
    by_cases h : name = first
    · rw [if_pos h, lookup_cons]
      grind
    · rw [if_neg h, lookup_cons, ih]
      grind

/-- A name is bound to what was inserted last; other names keep their bindings. -/
theorem find?_insert (s : Scope) (name key : String) (b : Binding) :
    (s.insert name b).find? key = if key = name then some b else s.find? key := by
  obtain ⟨bindings⟩ := s
  simp only [insert, find?]
  induction bindings with
  | nil => simp [insert.go, lookup_cons]
  | cons entry rest ih =>
    obtain ⟨first, old⟩ := entry
    rw [insert.go, lookup_cons]
    by_cases h : name = first
    · rw [if_pos h, lookup_cons]
      grind
    · rw [if_neg h, lookup_cons, ih]
      grind

/-- Only the erased name loses its binding. -/
theorem find?_erase (s : Scope) (name key : String) :
    (s.erase name).find? key = if key = name then none else s.find? key := by
  obtain ⟨bindings⟩ := s
  simp only [erase, find?]
  induction bindings with
  | nil => simp
  | cons entry rest ih =>
    obtain ⟨first, old⟩ := entry
    by_cases h : first = name
    · simp [h, lookup_cons]
      grind
    · simp only [ne_eq, h, not_false_eq_true, decide_true, List.filter_cons_of_pos, lookup_cons, ih]
      grind

/-- Binds a constant. -/
def define (s : Scope) (name : String) (value : Value) : Scope :=
  s.insert name ⟨value, value.type, none, true⟩

/-- Binds a variable, whose first value has to suit its type and range. -/
def declare (s : Scope) (name : String) (type : DataType) (range : Option Range) (value : Value) :
    Except Cause Unit × Scope :=
  match value.check name type range with
  | .error cause => (.error cause, s)
  | .ok () => (.ok (), s.insert name ⟨value, type, range, false⟩)

/-- The binding of a name that may be stored to. -/
def writable (s : Scope) (name : String) : Except Cause Binding :=
  match s.find? name with
  | none => .error (.undefinedVariable name)
  | some b => if b.constant then .error (.constantAssigned name) else .ok b

/-- Checks that a value may be assigned to a name. -/
def checkAssign (s : Scope) (name : String) (value : Value) : Except Cause Unit :=
  match s.writable name with
  | .error cause => .error cause
  | .ok b => b.check name value

/-- Assigns a value to a variable. -/
def assign (s : Scope) (name : String) (value : Value) : Except Cause Unit × Scope :=
  match s.checkAssign name value with
  | .error cause => (.error cause, s)
  | .ok () => (.ok (), s.modify name (·.put value))

/-- Checks that a value may be assigned to an element of an array. -/
def checkAssignElement (s : Scope) (name : String) (index : Int32) (value : Value) : Except Cause Unit :=
  match s.writable name with
  | .error cause => .error cause
  | .ok b => b.checkElement name index value

/-- Assigns a value to one element of an array. -/
def assignElement (s : Scope) (name : String) (index : Int32) (value : Value) :
    Except Cause Unit × Scope :=
  match s.checkAssignElement name index value with
  | .error cause => (.error cause, s)
  | .ok () => (.ok (), s.modify name (·.putElement index value))

/-- Removes a binding and gives its value. -/
def take (s : Scope) (name : String) : Option Value × Scope :=
  (s.get? name, s.erase name)

end Scope

end Offside
