import Offside.Proofs.ScopeTyping
import Offside.Proofs.Strict.Basic

/-!
# Strict values

First values, elements of arrays, expressions and built-in functions, with strict operations on the items of an array,
the slots of a call and the limits of a range. An answer that needs none of these is `given`; everything here turns out
to be given.
-/

namespace Offside.Strict

variable {α β : Type}

/-- An answer or the cause of a failure, wherever the operations are defined. -/
abbrev Result := ExceptT Cause Option

/-- An answer that needs no operation with a domain. -/
def given (x : Except Cause α) : Result α :=
  ExceptT.mk (some x)

@[simp] theorem given_run (x : Except Cause α) : (given x).run = some x := rfl

theorem given_bind (x : Except Cause α) (f : α → Except Cause β) :
    given (x >>= f) = given x >>= fun a => given (f a) := by
  cases x <;> rfl

theorem given_pure (a : α) : given (pure a) = pure a := rfl

/-! ### First values -/

/-- The first value of a variable of a type and a range. -/
def initial : DataType → Option Range → Option Value
  | .integer, range =>
    let (low, high) := (range.bind Range.integers?).getD (0, 0)
    (clamp 0 low (max high low)).map .integer
  | .array element, range =>
    let (low, high) := (range.bind Range.integers?).getD (0, -1)
    (initial element none).map fun item =>
      .array ⟨element, low, Array.replicate (high.toInt - low.toInt + 1).toNat item⟩
  | type, range => some (Value.initial type range)

theorem le_max_low (low high : Int32) : low ≤ max high low := by
  change low ≤ if high ≤ low then low else high
  split
  · exact Int32.le_refl low
  · rename_i h
    exact (Int32.le_total low high).resolve_right h

theorem clamp_zero (low high : Int32) : clamp 0 low (max high low) = some (Value.nearestToZero low high) := by
  rw [clamp_of_le (le_max_low low high), Value.nearestToZero]

/-- The limits of a range are put in order before a number is held between them. -/
theorem initial_eq (type : DataType) (range : Option Range) : initial type range = some (Value.initial type range) := by
  induction type generalizing range with
  | integer =>
    rw [initial, Value.initial]
    dsimp only
    rw [clamp_zero]
    rfl
  | array element ih =>
    rw [initial, Value.initial, ih]
    rfl
  | _ => rfl

/-! ### Elements of arrays -/

/-- The place of an index among the items of an array. -/
def slot (cells : Cells Value) (index : Int32) : Except Cause Nat :=
  let distance := index.toInt - cells.lower.toInt
  if 0 ≤ distance ∧ distance < cells.size then .ok distance.toNat
  else .error (.indexOutOfBounds index cells.lower cells.size)

/-- The element at an index. -/
def read (cells : Cells Value) (index : Int32) : Result Value := do
  let place ← given (slot cells index)
  ExceptT.lift cells.items[place]?

/-- Stores a value at an index. -/
def write (cells : Cells Value) (name : String) (index : Int32) (value : Value) : Result (Cells Value) := do
  let place ← given (slot cells index)
  if value.type = cells.element then
    let items ← ExceptT.lift (replace cells.items.toList place value)
    return ⟨cells.element, cells.lower, ⟨items⟩⟩
  else throw (.mismatch (.element name index) cells.element value.type)

theorem slot_eq (cells : Cells Value) (index : Int32) : slot cells index = (cells.locate index).map Fin.val := by
  unfold slot Cells.locate Cells.slot?
  dsimp only
  split <;> rfl

theorem read_eq (cells : Cells Value) (index : Int32) : read cells index = given (cells.read index) := by
  rw [read, slot_eq, Cells.read]
  cases cells.locate index with
  | error cause => rfl
  | ok place =>
    change ExceptT.lift cells.items[place.val]? = _
    rw [Array.getElem?_eq_getElem place.isLt]
    rfl

theorem write_eq (cells : Cells Value) (name : String) (index : Int32) (value : Value) :
    write cells name index value = given (cells.write name index value) := by
  rw [write, slot_eq, Cells.write, Cells.accept]
  cases cells.locate index with
  | error cause => rfl
  | ok place =>
    have hreplace : replace cells.items.toList place.val value = some (cells.items.toList.set place.val value) := by
      rw [replace, if_pos (by simp)]
    change (if value.type = cells.element then _ else _) = _
    rw [hreplace]
    dsimp only
    split <;> rfl

/-! ### Expressions -/

/-- The element of a value at an index. -/
def element (value : Value) (index : Int32) : Result Value :=
  match value with
  | .array cells => read cells index
  | other => throw (.unsuited .array other.type)

def eval (s : Scope) : Expr → Result Value
  | .literal value => return .ofLiteral value
  | .named name => given (s.load name)
  | .element name index => do
    let value ← given (s.load name)
    let index ← given ((← eval s index).asInteger .index)
    element value index
  | .negate operand => do given (← eval s operand).negate
  | .arithmetic op left right => do
    let left ← eval s left
    let right ← eval s right
    given (op.apply left right)
  | .compare op left right => do
    let left ← eval s left
    let right ← eval s right
    return .boolean (← given (op.apply left right))

/-- The integer that an expression stands for. -/
def evalInteger (s : Scope) (demand : Demand) (e : Expr) : Result Int32 := do
  given ((← eval s e).asInteger demand)

/-- The truth value that an expression stands for. -/
def evalCondition (s : Scope) (e : Expr) : Result Bool := do
  given (← eval s e).asCondition

theorem element_eq (value : Value) (index : Int32) : element value index = given (value.element index) := by
  cases value with
  | array cells => exact read_eq cells index
  | _ => rfl

/-- Elements are read from the items only behind the check of their index. -/
theorem eval_eq (s : Scope) (e : Expr) : eval s e = given (e.eval s) := by
  induction e with
  | literal value => rfl
  | named name => rfl
  | element name index ih => simp only [eval, Expr.eval, given_bind, ih, element_eq]
  | negate operand ih => simp only [eval, Expr.eval, given_bind, ih]
  | arithmetic op left right ihl ihr => simp only [eval, Expr.eval, given_bind, ihl, ihr]
  | compare op left right ihl ihr => simp only [eval, Expr.eval, given_bind, ihl, ihr, given_pure]

theorem evalInteger_eq (s : Scope) (demand : Demand) (e : Expr) :
    evalInteger s demand e = given (e.evalInteger s demand) := by
  rw [evalInteger, eval_eq, Expr.evalInteger, given_bind]

theorem evalCondition_eq (s : Scope) (e : Expr) : evalCondition s e = given (e.evalCondition s) := by
  rw [evalCondition, eval_eq, Expr.evalCondition, given_bind]

/-! ### Stores -/

/-- Assigns a value to one element of an array. -/
def assignElement (s : Scope) (name : String) (index : Int32) (value : Value) : Option (Except Cause Unit × Scope) :=
  match s.writable name with
  | .error cause => some (.error cause, s)
  | .ok b =>
    match b.value with
    | .array cells => do
      match ← (write cells name index value).run with
      | .error cause => return (.error cause, s)
      | .ok cells => return (.ok (), s.modify name fun b => { b with value := .array cells })
    | other => some (.error (.unsuited .array other.type), s)

/-- Stores a value at a target. The index of an element is evaluated here, after the value. -/
def store (s : Scope) (target : Target) (value : Value) : Option (Except Cause Unit × Scope) :=
  match target with
  | .named name => some (s.assign name value)
  | .element name index => do
    match ← (evalInteger s .index index).run with
    | .error cause => return (.error cause, s)
    | .ok index => assignElement s name index value

/-- Only the change of the binding that a name has counts. -/
theorem modify_congr {s : Scope} {name : String} {b : Binding} (h : s.find? name = some b)
    {change change' : Binding → Binding} (hb : change b = change' b) : s.modify name change = s.modify name change' := by
  obtain ⟨bindings⟩ := s
  simp only [Scope.modify, Scope.mk.injEq]
  simp only [Scope.find?] at h
  induction bindings with
  | nil => rfl
  | cons entry rest ih =>
    obtain ⟨key, first⟩ := entry
    rw [Scope.lookup_cons] at h
    simp only [Scope.modify.go]
    split
    · rename_i hkey
      rw [if_pos hkey, Option.some.injEq] at h
      rw [h, hb]
    · rename_i hkey
      rw [if_neg hkey] at h
      rw [ih h]

theorem assignElement_eq (s : Scope) (name : String) (index : Int32) (value : Value) :
    assignElement s name index value = some (s.assignElement name index value) := by
  unfold assignElement Scope.assignElement Scope.checkAssignElement
  cases hwritable : s.writable name with
  | error cause => rfl
  | ok b =>
    obtain ⟨hfind, -⟩ := Scope.writable_eq_ok.mp hwritable
    dsimp only [Binding.checkElement]
    cases hvalue : b.value with
    | array cells =>
      dsimp only
      rw [write_eq, Cells.write]
      cases haccept : cells.accept name index value with
      | error cause => rfl
      | ok place =>
        obtain ⟨hslot, -⟩ := Cells.accept_eq_ok.mp haccept
        refine congrArg (fun s => some (Except.ok (), s)) (modify_congr hfind ?_)
        rw [Binding.putElement_eq hvalue hslot]
    | _ => rfl

theorem store_eq (s : Scope) (target : Target) (value : Value) :
    store s target value = some (s.store target value) := by
  cases target with
  | named name => rfl
  | element name index =>
    rw [store, evalInteger_eq, Scope.store]
    change (match index.evalInteger s .index with | .error cause => _ | .ok index => _) = _
    cases index.evalInteger s .index with
    | error cause => rfl
    | ok index => exact assignElement_eq s name index value

/-! ### Built-in functions -/

/-- The value of an argument, which has to be of a shape. The slot is read again for the error. -/
def argumentAt (b : Builtin) (shape : Shape) (pick : Value → Option α) (slots : List Value) (place : Nat) :
    Result α := do
  match pick (← ExceptT.lift slots[place]?) with
  | some a => return a
  | none => throw (.unsuited (.argument shape (place + 1) b) (← ExceptT.lift slots[place]?).type)

/-- The slots with the answer of a built-in function that only depends on its arguments. -/
def compute (b : Builtin) (slots : List Value) : Result (List Value) :=
  match b with
  | .left => do
    let text ← argumentAt .left .string Value.string? slots 0
    let length ← argumentAt .left .integer Value.integer? slots 1
    let part ← given (Builtin.left.cut text 0 length)
    ExceptT.lift (replace slots 2 (.string part))
  | .right => do
    let text ← argumentAt .right .string Value.string? slots 0
    let length ← argumentAt .right .integer Value.integer? slots 1
    let part ← given (Builtin.right.cut text (Builtin.rightStart text length) length)
    ExceptT.lift (replace slots 2 (.string part))
  | .substring => do
    let text ← argumentAt .substring .string Value.string? slots 0
    let position ← argumentAt .substring .integer Value.integer? slots 1
    let length ← argumentAt .substring .integer Value.integer? slots 2
    let part ← given (Builtin.substring.cut text position length)
    ExceptT.lift (replace slots 3 (.string part))
  | .squareRoot => do
    let x ← argumentAt .squareRoot .real Value.real? slots 0
    ExceptT.lift (replace slots 1 (.real x.sqrt))
  | .integerToReal => do
    let n ← argumentAt .integerToReal .integer Value.integer? slots 0
    ExceptT.lift (replace slots 1 (.real n.toFloat32))
  | .realToInteger => do
    let x ← argumentAt .realToInteger .real Value.real? slots 0
    ExceptT.lift (replace slots 1 (.integer x.toInt32))
  | .start => do
    let cells ← argumentAt .start .array Value.cells? slots 0
    let item ← given (Builtin.endItem cells cells.items[0]?)
    ExceptT.lift (replace slots 1 item)
  | .stop => do
    let cells ← argumentAt .stop .array Value.cells? slots 0
    let item ← given (Builtin.endItem cells cells.items.back?)
    ExceptT.lift (replace slots 1 item)
  | .read | .write | .getRandom => return slots

/-- Runs a built-in function on argument slots. -/
def perform (b : Builtin) (slots : List Value) (host : Host) : Option (Except Cause Unit × List Value × Host) :=
  match b with
  | .read | .write => some (b.perform slots host)
  | .getRandom =>
    match host.draw with
    | (number, host) => (replace slots 0 (.integer number)).map fun slots => (.ok (), slots, host)
  | b => (compute b slots).run.map fun
    | .error cause => (.error cause, slots, host)
    | .ok filled => (.ok (), filled, host)

variable {b : Builtin} {slots : List Value} {place : Nat} {value : Value}

theorem argumentAt_eq {shape : Shape} {pick : Value → Option α} (h : slots[place]? = some value) :
    argumentAt b shape pick slots place = given (match pick value with
      | some a => .ok a
      | none => .error (.unsuited (.argument shape (place + 1) b) value.type)) := by
  rw [argumentAt, h]
  change (match pick value with | some a => _ | none => _) = _
  cases pick value <;> rfl

theorem stringArgument_eq (h : slots[place]? = some value) :
    argumentAt b .string Value.string? slots place = given (b.stringArgument (place + 1) value) := by
  rw [argumentAt_eq h, Builtin.stringArgument]
  cases value.string? <;> rfl

theorem integerArgument_eq (h : slots[place]? = some value) :
    argumentAt b .integer Value.integer? slots place = given (b.integerArgument (place + 1) value) := by
  rw [argumentAt_eq h, Builtin.integerArgument]
  cases value.integer? <;> rfl

theorem realArgument_eq (h : slots[place]? = some value) :
    argumentAt b .real Value.real? slots place = given (b.realArgument (place + 1) value) := by
  rw [argumentAt_eq h, Builtin.realArgument]
  cases value.real? <;> rfl

theorem arrayArgument_eq (h : slots[place]? = some value) :
    argumentAt b .array Value.cells? slots place = given (b.arrayArgument (place + 1) value) := by
  rw [argumentAt_eq h, Builtin.arrayArgument]
  cases value.cells? <;> rfl

/-- The arguments of a function are in the slots in front of its output, and these are all there. -/
theorem compute_eq (h : b.arity = some slots.length) (hb : b ≠ .getRandom) :
    compute b slots = given (do return slots.dropLast ++ [← b.compute slots.dropLast]) := by
  cases b with
  | read => cases h
  | write => cases h
  | getRandom => exact absurd rfl hb
  | left | right =>
    match slots, h with
    | [text, length, output], _ =>
      rw [compute, stringArgument_eq rfl, integerArgument_eq rfl]
      simp only [List.dropLast, Builtin.compute, bind_assoc, pure_bind, given_bind]
      rfl
  | substring =>
    match slots, h with
    | [text, position, length, output], _ =>
      rw [compute, stringArgument_eq rfl, integerArgument_eq rfl, integerArgument_eq rfl]
      simp only [List.dropLast, Builtin.compute, bind_assoc, pure_bind, given_bind]
      rfl
  | squareRoot | realToInteger =>
    match slots, h with
    | [x, output], _ =>
      rw [compute, realArgument_eq rfl]
      simp only [List.dropLast, Builtin.compute, bind_assoc, pure_bind, given_bind]
      rfl
  | integerToReal =>
    match slots, h with
    | [n, output], _ =>
      rw [compute, integerArgument_eq rfl]
      simp only [List.dropLast, Builtin.compute, bind_assoc, pure_bind, given_bind]
      rfl
  | start | stop =>
    match slots, h with
    | [array, output], _ =>
      rw [compute, arrayArgument_eq rfl]
      simp only [List.dropLast, Builtin.compute, bind_assoc, given_bind]
      rfl

theorem perform_computed (h : b.arity = some slots.length) (hread : b ≠ .read) (hwrite : b ≠ .write)
    (hrandom : b ≠ .getRandom) (host : Host) : perform b slots host = some (b.perform slots host) := by
  have hstrict : perform b slots host = (compute b slots).run.map fun
      | .error cause => (.error cause, slots, host)
      | .ok filled => (.ok (), filled, host) := by
    cases b <;> first | rfl | contradiction
  rw [hstrict, compute_eq h hrandom]
  cases hcompute : b.compute slots.dropLast with
  | error cause =>
    have hperform : b.perform slots host = (.error cause, slots, host) := by
      cases b <;> first | contradiction | simp only [Builtin.perform, hcompute]
    rw [hperform]
    rfl
  | ok value =>
    have hperform : b.perform slots host = (.ok (), slots.dropLast ++ [value], host) := by
      cases b <;> first | contradiction | simp only [Builtin.perform, hcompute]
    rw [hperform]
    rfl

/-- A built-in function that is given as many slots as it takes stays among them. -/
theorem perform_eq (h : b.arity.all (· = slots.length)) (host : Host) :
    perform b slots host = some (b.perform slots host) := by
  by_cases hread : b = .read
  · rw [hread]
    rfl
  by_cases hwrite : b = .write
  · rw [hwrite]
    rfl
  by_cases hrandom : b = .getRandom
  · have hslots : 1 = slots.length := by simpa [hrandom, Builtin.arity] using h
    rw [hrandom]
    match slots, hslots with
    | [output], _ => rfl
  · have harity : b.arity = some slots.length := by
      cases b <;> first | contradiction | simpa [Builtin.arity] using h
    exact perform_computed harity hread hwrite hrandom host

end Offside.Strict
