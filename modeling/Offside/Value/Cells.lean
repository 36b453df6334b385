import Offside.Fault

/-!
# Elements of arrays
-/

namespace Offside.Cells

/-- The place of an index, or the bounds that it misses. -/
def locate (c : Cells Value) (index : Int32) : Except Cause (Fin c.size) :=
  match c.slot? index with
  | some slot => .ok slot
  | none => .error (.indexOutOfBounds index c.lower c.size)

/-- The element at an index. -/
def read (c : Cells Value) (index : Int32) : Except Cause Value :=
  (c.locate index).map c.get

/-- Where a value may be stored at an index. The index comes first, then the type; `name` is that of the
array. -/
def accept (c : Cells Value) (name : String) (index : Int32) (value : Value) : Except Cause (Fin c.size) :=
  match c.locate index with
  | .error cause => .error cause
  | .ok slot =>
    if value.type = c.element then .ok slot
    else .error (.mismatch (.element name index) c.element value.type)

/-- Stores a value at an index. -/
def write (c : Cells Value) (name : String) (index : Int32) (value : Value) :
    Except Cause (Cells Value) :=
  (c.accept name index value).map fun slot => c.set slot value

end Offside.Cells
