import Offside.Proofs.Homogeneous

/-!
# Static types

The type of an expression, taken from the declared types of the names alone. Evaluation keeps to it both ways: an
expression with a type gives a value of that type, unless it divides by zero or misses an array, and an expression
without one never gives a value.
-/

namespace Offside

/-- The type that an operation gives for the types of its operands. -/
def Arithmetic.type? : Arithmetic → DataType → DataType → Option DataType
  | _, .integer, .integer => some .integer
  | _, .real, .real => some .real
  | add, .string, .string => some .string
  | _, _, _ => none

def Comparison.type? : Comparison → DataType → DataType → Option DataType
  | _, .integer, .integer | _, .real, .real | _, .integer, .real | _, .real, .integer => some .boolean
  | equal, .string, .string | notEqual, .string, .string => some .boolean
  | _, _, _ => none

namespace DataType

def negated? : DataType → Option DataType
  | integer => some integer
  | real => some real
  | _ => none

/-- The type of what an array holds under an index of a type. -/
def indexed? : DataType → DataType → Option DataType
  | array element, integer => some element
  | _, _ => none

end DataType

/-- The static type of an expression, for declared types of the names. -/
def Expr.type? (declared : String → Option DataType) : Expr → Option DataType
  | literal value => some value.type
  | named name => declared name
  | element name index => do
    let variableType ← declared name
    variableType.indexed? (← index.type? declared)
  | negate operand => do (← operand.type? declared).negated?
  | arithmetic op left right => do op.type? (← left.type? declared) (← right.type? declared)
  | compare op left right => do op.type? (← left.type? declared) (← right.type? declared)

namespace Scope

def declared (s : Scope) (name : String) : Option DataType :=
  (s.find? name).map Binding.type

/-- Every variable holds a value of its declared type, and arrays hold what they say. -/
structure Matches (s : Scope) : Prop where
  types : ∀ name b, s.find? name = some b → b.value.type = b.type
  homogeneous : s.Homogeneous

end Scope

/-! ### Results that suit a type -/

/-- A result as a static type foretells it: of this type or one of two faults, or no value for lack of a type. -/
def Suits : Option DataType → Except Cause Value → Prop
  | some type, .ok v => v.type = type
  | some _, .error cause => cause.kind = .divisionByZero ∨ cause.kind = .indexOutOfBounds
  | none, .ok _ => False
  | none, .error _ => True

variable {type? : Option DataType} {result : Except Cause Value}

/-- What is computed from a value has a type that the type of the value decides. -/
theorem Suits.bind {next? : DataType → Option DataType} {next : Value → Except Cause Value} (h : Suits type? result)
    (hnext : ∀ v, result = .ok v → Suits (next? v.type) (next v)) : Suits (type? >>= next?) (result >>= next) := by
  cases result with
  | ok v =>
    cases type? with
    | none => exact h.elim
    | some type =>
      cases h
      exact hnext v rfl
  | error cause =>
    cases type? with
    | none => trivial
    | some type =>
      change Suits (next? type) (.error cause)
      cases next? type with
      | none => trivial
      | some _ => exact h

theorem Arithmetic.suits_apply (op : Arithmetic) (v w : Value) : Suits (op.type? v.type w.type) (op.apply v w) := by
  cases v with
  | integer a =>
    cases w with
    | integer b =>
      change Suits (some .integer) ((op.onIntegers a b).map .integer)
      cases h : op.onIntegers a b with
      | ok n => rfl
      | error cause =>
        have hcause : cause = .divisionByZero := by
          cases op with
          | divide | modulo =>
            simp only [onIntegers] at h
            split at h <;> cases h
            rfl
          | _ => cases h
        exact .inl (hcause ▸ rfl)
    | _ => cases op <;> trivial
  | real x =>
    cases w with
    | real y => cases op <;> rfl
    | _ => cases op <;> trivial
  | string s =>
    cases w with
    | string t =>
      cases op with
      | add => rfl
      | _ => trivial
    | _ => cases op <;> trivial
  | _ => cases op <;> trivial

theorem Comparison.suits_apply (op : Comparison) (v w : Value) :
    Suits (op.type? v.type w.type) (op.apply v w >>= fun b => pure (.boolean b)) := by
  cases v with
  | integer a | real x =>
    cases w with
    | integer _ | real _ => cases op <;> rfl
    | _ => cases op <;> trivial
  | string s =>
    cases w with
    | string t =>
      cases op with
      | equal | notEqual => rfl
      | _ => trivial
    | _ => cases op <;> trivial
  | _ => cases op <;> trivial

theorem Value.suits_negate (v : Value) : Suits v.type.negated? v.negate := by
  cases v with
  | integer n => rfl
  | real x => rfl
  | _ => trivial

theorem Cells.suits_read {cells : Cells Value} (h : (Value.array cells).Homogeneous) (index : Int32) :
    Suits (some cells.element) (cells.read index) := by
  rw [read, locate]
  cases cells.slot? index with
  | none => exact .inr rfl
  | some slot => exact (Value.homogeneous_array.mp h _ (Array.getElem_mem slot.isLt)).1

/-- The index is looked at before the array, which changes the fault but not whether there is one. -/
theorem Value.suits_element {v : Value} (h : v.Homogeneous) (index : Value) :
    Suits (v.type.indexed? index.type) (index.asInteger .index >>= v.element) := by
  cases v with
  | array cells =>
    cases index with
    | integer n => exact Cells.suits_read h n
    | _ => trivial
  | _ => cases index <;> trivial

theorem Scope.Matches.suits_load {s : Scope} (hs : s.Matches) (name : String) :
    Suits (s.declared name) (s.load name) := by
  rw [declared, load, get?]
  cases h : s.find? name with
  | none => trivial
  | some b => exact hs.types name b h

/-! ### Evaluation -/

/-- Evaluation follows the rules of the static type, operator by operator. -/
theorem Expr.suits_eval {s : Scope} (hs : s.Matches) (e : Expr) : Suits (e.type? s.declared) (e.eval s) := by
  induction e with
  | literal value => exact Value.type_ofLiteral value
  | named name => exact hs.suits_load name
  | element name index ih =>
    refine (hs.suits_load name).bind fun v hv => ih.bind fun i _ => ?_
    exact Value.suits_element (hs.homogeneous.load hv) i
  | negate operand ih => exact ih.bind fun v _ => v.suits_negate
  | arithmetic op left right ihl ihr => exact ihl.bind fun v _ => ihr.bind fun w _ => op.suits_apply v w
  | compare op left right ihl ihr => exact ihl.bind fun v _ => ihr.bind fun w _ => op.suits_apply v w

/-- Evaluation is sound and complete for the static types, in every scope whose values match their declarations. -/
theorem Expr.eval_type {s : Scope} (hs : s.Matches) (e : Expr) :
    (∀ type, e.type? s.declared = some type →
      (∃ v, e.eval s = .ok v ∧ v.type = type) ∨
      ∃ cause, e.eval s = .error cause ∧ (cause.kind = .divisionByZero ∨ cause.kind = .indexOutOfBounds)) ∧
    (e.type? s.declared = none → ∀ v, e.eval s ≠ .ok v) := by
  have h := suits_eval hs e
  constructor
  · intro type htype
    rw [htype] at h
    cases heval : e.eval s with
    | ok v => exact .inl ⟨v, rfl, by rwa [heval] at h⟩
    | error cause => exact .inr ⟨cause, rfl, by rwa [heval] at h⟩
  · intro htype v heval
    rw [htype, heval] at h
    exact h

namespace Example

/-- An array with indices from 2 to 3, and an integer below both. -/
def row : Scope :=
  (Scope.empty.insert "a" ⟨.array ⟨.integer, 2, #[.integer 5, .integer 0]⟩, .array .integer,
    some ⟨.integer 2, .integer 3⟩, false⟩).insert "n" ⟨.integer 1, .integer, none, false⟩

theorem matches_row : row.Matches := by
  constructor
  · intro name b hb
    simp only [row, Scope.find?_insert] at hb
    grind [Value.type, Scope.find?_empty]
  · intro name b hb
    simp only [row, Scope.find?_insert] at hb
    split at hb
    · cases hb
      trivial
    · split at hb
      · cases hb
        exact Value.homogeneous_array.mpr (by simp [Value.type, Value.Homogeneous])
      · cases hb

/-- `a[n] / a[n + 2]`, whose first index lies below the array. -/
def quotient : Expr :=
  .arithmetic .divide (.element "a" (.named "n"))
    (.element "a" (.arithmetic .add (.named "n") (.literal (.integer 2))))

/-- `a + n`, which has no type. -/
def total : Expr :=
  .arithmetic .add (.named "a") (.named "n")

end Example

theorem Expr.eval_type_row :
    Example.quotient.type? Example.row.declared = some .integer ∧
    ((∃ v, Example.quotient.eval Example.row = .ok v ∧ v.type = .integer) ∨
      ∃ cause, Example.quotient.eval Example.row = .error cause ∧
        (cause.kind = .divisionByZero ∨ cause.kind = .indexOutOfBounds)) ∧
    Example.total.type? Example.row.declared = none ∧
    ∀ v, Example.total.eval Example.row ≠ .ok v :=
  ⟨rfl, (eval_type Example.matches_row Example.quotient).1 _ rfl, rfl,
    (eval_type Example.matches_row Example.total).2 rfl⟩

end Offside
