import Offside.Decimal.Reading
import Offside.Text.Blank
import Offside.Fault

/-!
# Values read from text
-/

namespace Offside.Value

/-- The text that may stand for a truth value. -/
def readBoolean? : String → Option Bool
  | "true" => some true
  | "false" => some false
  | _ => none

def readCharacter? (text : String) : Option Char :=
  match text.toList with
  | [c] => some c
  | _ => none

/-- Reads a text as a value of the same type as `old`. Blank characters around it do not count. -/
def readAs (old : Value) (text : String) : Except Cause Value :=
  let word := Text.trim text
  let orFail : Option Value → Except Cause Value
    | some value => .ok value
    | none => .error (.unreadable old.type word)
  match old with
  | integer _ => orFail ((Decimal.readInteger? word).map integer)
  | real _ => orFail ((Decimal.readReal? word).map real)
  | string _ => .ok (string word)
  | character _ => orFail ((readCharacter? word).map character)
  | boolean _ => orFail ((readBoolean? word).map boolean)
  | array _ => .error .unreadableArray

end Offside.Value
