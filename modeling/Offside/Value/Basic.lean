import Offside.Tree.Literal

/-!
# Values

What a variable holds while a program runs. An array knows the type of its elements and the index of its
first element; its length never changes.
-/

namespace Offside

/-- A row of elements under consecutive indices that start at `lower`. -/
structure Cells (α : Type) where
  element : DataType
  lower : Int32
  items : Array α
  deriving Repr

namespace Cells

variable {α : Type}

abbrev size (c : Cells α) : Nat :=
  c.items.size

/-- The index of the last element, one below `lower` when there is none. -/
def upper (c : Cells α) : Int :=
  c.lower.toInt + c.size - 1

/-- The place of an index among the items, if there is one. The distance is taken between exact numbers, so
that it cannot wrap. -/
def slot? (c : Cells α) (index : Int32) : Option (Fin c.size) :=
  let distance := index.toInt - c.lower.toInt
  if h : 0 ≤ distance ∧ distance < c.size then some ⟨distance.toNat, by omega⟩ else none

def get (c : Cells α) (slot : Fin c.size) : α :=
  c.items[slot]

def set (c : Cells α) (slot : Fin c.size) (item : α) : Cells α :=
  match c, slot with
  | ⟨element, lower, items⟩, slot => ⟨element, lower, items.set slot item slot.isLt⟩

/-- Exactly the indices from `lower` up to `upper` have a place. -/
theorem slot?_isSome_iff (c : Cells α) (index : Int32) :
    (c.slot? index).isSome ↔ c.lower.toInt ≤ index.toInt ∧ index.toInt ≤ c.upper := by
  simp only [slot?, upper]
  split
  · simp only [Option.isSome_some, true_iff]
    omega
  · simp only [Option.isSome_none, Bool.false_eq_true, false_iff]
    omega

@[simp] theorem size_set (c : Cells α) (slot : Fin c.size) (item : α) :
    (c.set slot item).size = c.size :=
  Array.size_set slot.isLt

@[simp] theorem element_set (c : Cells α) (slot : Fin c.size) (item : α) :
    (c.set slot item).element = c.element := rfl

@[simp] theorem lower_set (c : Cells α) (slot : Fin c.size) (item : α) :
    (c.set slot item).lower = c.lower := rfl

end Cells

inductive Value where
  | integer (value : Int32)
  | real (value : Float32)
  | string (value : String)
  | character (value : Char)
  | boolean (value : Bool)
  | array (cells : Cells Value)
  deriving Repr

namespace Value

def type : Value → DataType
  | integer _ => .integer
  | real _ => .real
  | string _ => .string
  | character _ => .character
  | boolean _ => .boolean
  | array cells => .array cells.element

def ofLiteral : Literal → Value
  | .integer n => integer n
  | .real x => real x
  | .string s => string s
  | .character c => character c
  | .boolean b => boolean b

def integer? : Value → Option Int32
  | integer n => some n
  | _ => none

def real? : Value → Option Float32
  | real x => some x
  | _ => none

def string? : Value → Option String
  | string s => some s
  | _ => none

def boolean? : Value → Option Bool
  | boolean b => some b
  | _ => none

def cells? : Value → Option (Cells Value)
  | array cells => some cells
  | _ => none

mutual

/-- A value as it is written out. -/
def text : Value → String
  | integer n => toString n.toInt
  | real x => Decimal.spell x
  | string s => s
  | character c => String.singleton c
  | boolean b => toString b
  | array ⟨_, _, ⟨items⟩⟩ => "[" ++ ", ".intercalate (texts items) ++ "]"

def texts : List Value → List String
  | [] => []
  | v :: vs => text v :: texts vs

end

@[simp] theorem type_ofLiteral (l : Literal) : (ofLiteral l).type = l.type := by
  cases l <;> rfl

end Value

end Offside
