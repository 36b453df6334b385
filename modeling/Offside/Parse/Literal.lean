import Offside.Parse.Cursor

/-!
# Reading literals, types and ranges
-/

namespace Offside.Parse

/-- The literal that one token stands for. A magnitude above the greatest integer is no literal. -/
def literalOf? : Token → Option Literal
  | .integer n => if n < magnitudeLimit then some (.integer (.ofNat n)) else none
  | .real x => some (.real x)
  | .string s => some (.string s)
  | .character c => some (.character c)
  | .keyword .true_ => some (.boolean true)
  | .keyword .false_ => some (.boolean false)
  | _ => none

/-- The magnitude of the least integer, which is a literal only behind a minus sign. -/
def leastMagnitude : Token :=
  .integer magnitudeLimit

/-- Why a token is no literal. -/
def literalCause (what : Expected) (token? : Option Token) : SyntaxCause :=
  if token? = some leastMagnitude then .bareMagnitude else .expected what

/-- One token that stands for a literal. -/
def plainLiteral (what : Expected) (c : Cursor) : Attempt Literal c :=
  match c.next? with
  | none => c.fail (.expected what)
  | some r =>
    match literalOf? r.value.token with
    | some value => .ok (r.map fun _ => value)
    | none => c.fail (literalCause what c.token?)

/-- A literal behind a minus sign. -/
def negativeLiteral (c : Cursor) : Attempt Literal c :=
  match c.eat? leastMagnitude with
  | some r => .ok (r.map fun _ => .integer Int32.minValue)
  | none => do
    let r ← plainLiteral .literal c
    match r.value.negate? with
    | some value => return r.map fun _ => value
    | none => c.fail .negatedText

/-- A literal of a declaration: a number with an optional minus sign, or any other literal. -/
def literal (c : Cursor) : Attempt Literal c :=
  match c.eat? (.mark .minus) with
  | some minus => do
    let r ← negativeLiteral minus.next
    return minus.andThen r r.value
  | none => plainLiteral .literal c

/-- A type that is no array. -/
def scalarType? : Token → Option DataType
  | .keyword .integer => some .integer
  | .keyword .real => some .real
  | .keyword .string => some .string
  | .keyword .character => some .character
  | .keyword .boolean => some .boolean
  | _ => none

def scalarType (c : Cursor) : Attempt DataType c :=
  match c.next? with
  | none => c.fail (.expected .typeName)
  | some r =>
    match scalarType? r.value.token with
    | some type => .ok (r.map fun _ => type)
    | none => c.fail (.expected .typeName)

/-- A type. The elements of an array are no arrays. -/
def dataType (c : Cursor) : Attempt DataType c :=
  match c.eat? (.keyword .array) with
  | none => scalarType c
  | some array => do
    let of_ ← array.next.expectWord .of_ .ofArray
    if (of_.next.eat? (.keyword .array)).isSome then of_.next.fail .nestedArray
    let element ← scalarType of_.next
    return (array.andThen of_ ()).andThen element (.array element.value)

/-- The limits of a declaration, behind the word `from`. -/
def limits (c : Cursor) : Attempt Range c := do
  let low ← literal c
  let to_ ← low.next.expectWord .to_ .rangeTo
  let high ← literal to_.next
  return (low.andThen to_ ()).andThen high ⟨low.value, high.value⟩

end Offside.Parse
