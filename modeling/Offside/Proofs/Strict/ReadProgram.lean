import Offside.Parse.Program
import Offside.Proofs.Strict.ReadStmt

/-!
# Strict reading of programs

Declarations and functions over a place in the list of lexemes, up to whole programs. The names of functions come from
the pairs of lexemes that stand side by side.
-/

namespace Offside.Strict

open Reader
open Parse (Cursor Reading Section operator? typedVariables reserve)

/-! ### Declarations -/

/-- The names behind a first one, if a comma follows it. -/
def namesFrom (rest : Reader (List (String × Lexeme))) (first : String × Lexeme) :
    Reader (List (String × Lexeme)) := do
  if ← eat (.mark .comma) then return first :: (← rest) else return [first]

/-- One or more names with commas between them. -/
def nameList (what : Expected) : Nat → Reader (List (String × Lexeme))
  | 0 => undefined
  | fuel + 1 => do namesFrom (nameList what fuel) (← expectName what)

def names (what : Expected) : Reader (List (String × Lexeme)) :=
  within 1 (nameList what)

/-- Parameters of one type, all with or all without the mark `var`. -/
def typedParameters (mutable : Bool) : Reader (List Declaration) := do
  let group ← names .parameterName
  let _ ← expectMark .colon .parameterColon
  let type ← dataType
  return group.map fun (name, l) => .parameter name type mutable l.location

def parameterGroup : Reader (List Declaration) := do
  typedParameters (← eat (.keyword .var))

/-- The semicolon or comma between two groups of parameters. -/
def groupSeparator : Reader Bool := do
  if ← eat (.mark .semicolon) then return true else eat (.mark .comma)

def groupList : Nat → Reader (List Declaration)
  | 0 => undefined
  | fuel + 1 => do
    let group ← parameterGroup
    if ← groupSeparator then return group ++ (← groupList fuel) else return group

def parameters : Reader (List Declaration) :=
  within 1 groupList

/-- One or more constants with commas between them. -/
def constantList : Nat → Reader (List Declaration)
  | 0 => undefined
  | fuel + 1 => do
    let (name, l) ← expectName .constantName
    let _ ← expectMark .equal .constantEqual
    let value ← literal
    if ← eat (.mark .comma) then return .constant name value l.location :: (← constantList fuel)
    else return [.constant name value l.location]

def constants : Reader (List Declaration) :=
  within 1 constantList

/-- A line of constants, up to and with its end. The word `const` may open it. -/
def constantLine : Reader (List Declaration) := do
  let _ ← eat (.keyword .const)
  let all ← constants
  let _ ← expectLineEnd
  return all

/-- The optional limits behind a type, and the line end. -/
def rangeAndLineEnd : Reader (Option Range) := do
  if ← eat (.keyword .from_) then
    let range ← limits
    let _ ← expectLineEnd
    return some range
  else
    let _ ← expectLineEnd
    return none

/-- A line of variables, up to and with its end: one variable with its first value, or several of a type. -/
def variableLine : Reader (List Declaration) := do
  let first ← expectName .variableName
  if ← eat (.mark .equal) then
    let value ← literal
    let _ ← expectLineEnd
    return [.ofValue first.1 value first.2.location]
  else
    let all ← namesFrom (names .variableName) first
    let _ ← expectMark .colon .variableColon
    let type ← dataType
    let range ← rangeAndLineEnd
    lift (typedVariables type range all)

def sectionLine : Section → Reader (List Declaration)
  | .constants => constantLine
  | .variables_ => variableLine

/-- Lines up to the dedent that ends them, which is read too. -/
def sectionLines (kind : Section) : Nat → Reader (List Declaration)
  | 0 => undefined
  | fuel + 1 => do
    if ← eat .dedent then return []
    else if ← atEnd then fail (.expected .declarationsEnd)
    else
      let first ← sectionLine kind
      return first ++ (← sectionLines kind fuel)

/-- A section, behind the word that opens it. -/
def declarations (kind : Section) : Reader (List Declaration) := do
  if ← eat .newline then
    let _ ← expect .indent .declarations
    within 1 (sectionLines kind)
  else sectionLine kind

/-- The section that a token opens. -/
def sectionOf? : Token → Option Section
  | .keyword .constants => some .constants
  | .keyword .variables_ => some .variables_
  | _ => none

variable {ls : List Lexeme} {c : Cursor} {fuel : Nat}

theorem meets_namesFrom {what : Expected} {rest : Reader (List (String × Lexeme))} (hc : Stands ls c)
    {first : Reading (String × Lexeme) c} (hfirst : c.expectName what = .ok first)
    (hrest : ∀ comma : Reading Lexeme first.next, Meets ls rest comma.next (Parse.names what comma.next)) :
    Meets ls (namesFrom rest first.value) first.next (Parse.names what c) := by
  rw [namesFrom, Parse.names, hfirst, ok_bind]
  cases heat : first.next.eat? (.mark .comma) with
  | none => exact meets_eat_none (hc.next first) heat rfl
  | some comma =>
    apply meets_eat_some (hc.next first) heat
    apply Meets.bind ((hc.next first).next comma) (hrest comma)
    intro rest _ _
    rfl

theorem meets_nameList (hc : Stands ls c) (what : Expected) (hfuel : c.ahead.length < fuel) :
    Meets ls (nameList what fuel) c (Parse.names what c) := by
  induction fuel generalizing c with
  | zero => omega
  | succ fuel ih =>
    have hname := meets_expectName hc what
    cases hfirst : c.expectName what with
    | error e =>
      rw [hfirst] at hname
      rw [nameList, Parse.names, hfirst]
      exact bind_of_error hname
    | ok first =>
      rw [hfirst] at hname
      rw [nameList]
      refine (bind_of_ok hname).trans (meets_namesFrom hc hfirst fun comma => ?_)
      have hshorter := Nat.lt_trans comma.shorter first.shorter
      exact ih ((hc.next first).next comma) (by omega)

theorem meets_names (hc : Stands ls c) (what : Expected) : Meets ls (names what) c (Parse.names what c) := by
  apply Meets.within hc
  intro fuel hfuel
  exact meets_nameList hc what (by omega)

theorem meets_typedParameters (hc : Stands ls c) (mutable : Bool) :
    Meets ls (typedParameters mutable) c (Parse.typedParameters mutable c) := by
  unfold typedParameters Parse.typedParameters
  apply Meets.bind hc (meets_names hc _)
  intro group _ hgroup
  apply Meets.bind hgroup (meets_expect hgroup _ _)
  intro colon _ hcolon
  apply Meets.bind hcolon (meets_dataType hcolon)
  intro type _ _
  rfl

theorem meets_parameterGroup (hc : Stands ls c) : Meets ls parameterGroup c (Parse.parameterGroup c) := by
  unfold parameterGroup Parse.parameterGroup
  cases heat : c.eat? (.keyword .var) with
  | some var =>
    apply meets_eat_some hc heat
    exact (meets_typedParameters (hc.next var) true).widen fun r => ⟨rfl, rfl⟩
  | none => exact meets_eat_none hc heat (meets_typedParameters hc false)

theorem groupSeparator_of_some (hc : Stands ls c) {r : Reading Lexeme c} (h : Parse.groupSeparator? c = some r) :
    groupSeparator ls (position ls c) = some (.ok (true, position ls r.next)) := by
  unfold Parse.groupSeparator? at h
  cases heat : c.eat? (.mark .semicolon) with
  | some semicolon =>
    rw [heat] at h
    cases h
    exact bind_of_ok (eat_of_some hc heat)
  | none =>
    rw [heat] at h
    exact (bind_of_ok (eat_of_none hc heat)).trans (eat_of_some hc h)

theorem groupSeparator_of_none (hc : Stands ls c) (h : Parse.groupSeparator? c = none) :
    groupSeparator ls (position ls c) = some (.ok (false, position ls c)) := by
  unfold Parse.groupSeparator? at h
  cases heat : c.eat? (.mark .semicolon) with
  | some semicolon =>
    rw [heat] at h
    cases h
  | none =>
    rw [heat] at h
    exact (bind_of_ok (eat_of_none hc heat)).trans (eat_of_none hc h)

theorem meets_groupList (hc : Stands ls c) (hfuel : c.ahead.length < fuel) :
    Meets ls (groupList fuel) c (Parse.parameters c) := by
  induction fuel generalizing c with
  | zero => omega
  | succ fuel ih =>
    rw [groupList, Parse.parameters]
    apply Meets.bind hc (meets_parameterGroup hc)
    intro group _ hgroup
    have hshorter := group.shorter
    cases hseparator : Parse.groupSeparator? group.next with
    | none => exact bind_of_ok (groupSeparator_of_none hgroup hseparator)
    | some separator =>
      have hshorter' := separator.shorter
      refine (bind_of_ok (groupSeparator_of_some hgroup hseparator)).trans ?_
      apply Meets.bind (hgroup.next separator) (ih (hgroup.next separator) (by omega))
      intro rest _ _
      rfl

theorem meets_parameters (hc : Stands ls c) : Meets ls parameters c (Parse.parameters c) := by
  apply Meets.within hc
  intro fuel hfuel
  exact meets_groupList hc (by omega)

theorem meets_constantList (hc : Stands ls c) (hfuel : c.ahead.length < fuel) :
    Meets ls (constantList fuel) c (Parse.constants c) := by
  induction fuel generalizing c with
  | zero => omega
  | succ fuel ih =>
    rw [constantList, Parse.constants]
    apply Meets.bind hc (meets_expectName hc _)
    intro name _ hname
    apply Meets.bind hname (meets_expect hname _ _)
    intro equal _ hequal
    apply Meets.bind hequal (meets_literal hequal)
    intro value _ hvalue
    have hshorter := Nat.lt_trans value.shorter (Nat.lt_trans equal.shorter name.shorter)
    dsimp only [Reading.andThen]
    cases heat : value.next.eat? (.mark .comma) with
    | none => exact meets_eat_none hvalue heat rfl
    | some comma =>
      have hshorter' := comma.shorter
      apply meets_eat_some hvalue heat
      apply Meets.bind (hvalue.next comma) (ih (hvalue.next comma) (by omega))
      intro rest _ _
      rfl

theorem meets_constants (hc : Stands ls c) : Meets ls constants c (Parse.constants c) := by
  apply Meets.within hc
  intro fuel hfuel
  exact meets_constantList hc (by omega)

theorem meets_constantLine (hc : Stands ls c) : Meets ls constantLine c (Parse.constantLine c) := by
  unfold constantLine Parse.constantLine
  cases heat : c.eat? (.keyword .const) with
  | some const =>
    apply meets_eat_some hc heat
    apply Meets.bind (hc.next const) (meets_constants (hc.next const))
    intro all _ hall
    apply Meets.bind hall (meets_expect hall _ _)
    intro lineEnd _ _
    rfl
  | none =>
    apply meets_eat_none hc heat
    apply Meets.bind hc (meets_constants hc)
    intro all _ hall
    apply Meets.bind hall (meets_expect hall _ _)
    intro lineEnd _ _
    rfl

theorem meets_rangeAndLineEnd (hc : Stands ls c) : Meets ls rangeAndLineEnd c (Parse.rangeAndLineEnd c) := by
  unfold rangeAndLineEnd Parse.rangeAndLineEnd
  cases heat : c.eat? (.keyword .from_) with
  | none =>
    apply meets_eat_none hc heat
    apply Meets.bind hc (meets_expect hc _ _)
    intro lineEnd _ _
    rfl
  | some from_ =>
    apply meets_eat_some hc heat
    apply Meets.bind (hc.next from_) (meets_limits (hc.next from_))
    intro range _ hrange
    apply Meets.bind hrange (meets_expect hrange _ _)
    intro lineEnd _ _
    rfl

theorem meets_variableLine (hc : Stands ls c) : Meets ls variableLine c (Parse.variableLine c) := by
  unfold variableLine Parse.variableLine
  apply Meets.bind hc (meets_expectName hc _)
  intro first hname hfirst
  cases heat : first.next.eat? (.mark .equal) with
  | some equal =>
    apply meets_eat_some hfirst heat
    apply Meets.bind (hfirst.next equal) (meets_literal (hfirst.next equal))
    intro value _ hvalue
    apply Meets.bind hvalue (meets_expect hvalue _ _)
    intro lineEnd _ _
    rfl
  | none =>
    apply meets_eat_none hfirst heat
    apply Meets.bind hc (meets_namesFrom hc hname fun comma => meets_names (hfirst.next comma) _)
    intro all _ hall
    apply Meets.bind hall (meets_expect hall _ _)
    intro colon _ hcolon
    apply Meets.bind hcolon (meets_dataType hcolon)
    intro type _ htype
    apply Meets.bind htype (meets_rangeAndLineEnd htype)
    intro range _ _
    cases typedVariables type.value range.value all.value <;> rfl

theorem meets_sectionLine (hc : Stands ls c) (kind : Section) : Meets ls (sectionLine kind) c (kind.line c) := by
  cases kind with
  | constants => exact meets_constantLine hc
  | variables_ => exact meets_variableLine hc

theorem meets_sectionLines (hc : Stands ls c) (kind : Section) (hfuel : c.ahead.length < fuel) :
    Meets ls (sectionLines kind fuel) c (kind.lines c) := by
  induction fuel generalizing c with
  | zero => omega
  | succ fuel ih =>
    rw [sectionLines, Section.lines]
    cases heat : c.eat? .dedent with
    | some dedent => exact meets_eat_some hc heat rfl
    | none =>
      apply meets_eat_none hc heat
      apply meets_atEnd hc
      dsimp only
      split
      · exact meets_fail hc _
      · apply Meets.bind hc (meets_sectionLine hc kind)
        intro first _ hfirst
        have hshorter := first.shorter
        apply Meets.bind hfirst (ih hfirst (by omega))
        intro rest _ _
        rfl

theorem meets_declarations (hc : Stands ls c) (kind : Section) : Meets ls (declarations kind) c (kind.read c) := by
  unfold declarations Section.read
  cases heat : c.eat? .newline with
  | none => exact meets_eat_none hc heat (meets_sectionLine hc kind)
  | some lineEnd =>
    apply meets_eat_some hc heat
    apply Meets.bind (hc.next lineEnd) (meets_expect (hc.next lineEnd) _ _)
    intro indent _ hindent
    have hlines : Meets ls (within 1 (sectionLines kind)) indent.next (kind.lines indent.next) := by
      apply Meets.within hindent
      intro fuel hfuel
      exact meets_sectionLines hindent kind (by omega)
    exact hlines.widen fun r => ⟨rfl, rfl⟩

/-! ### Functions -/

/-- The sections and the statements of a function, up to and with the dedent that ends it. -/
def functionBody (defined : List String) : Nat → List String → Reader (List Declaration × List Stmt)
  | 0, _ => undefined
  | fuel + 1, taken => do
    match ← pick? sectionOf? with
    | some kind =>
      let declared ← declarations kind
      let taken ← lift (reserve taken declared)
      let (more, body) ← functionBody defined fuel taken
      return (declared ++ more, body)
    | none => return ([], ← statements defined .functionEnd)

/-- The parameters of a function between their parentheses. -/
def parameterList : Reader (List Declaration) := do
  let _ ← expectMark .openParen .openParameters
  if ← eat (.mark .closeParen) then return []
  else
    let all ← parameters
    let _ ← expectMark .closeParen .closeParameters
    return all

def function (defined : List String) : Reader Function := do
  let define ← expectWord .define .define
  let (name, _) ← expectName .functionName
  let declared ← parameterList
  let _ ← expectLineEnd
  let _ ← expect .indent .functionBody
  let taken ← lift (reserve [] declared)
  let (locals, body) ← within 1 fun fuel => functionBody defined fuel taken
  return ⟨name, declared, locals, .user body, ← placeFrom define⟩

/-- Functions up to the end of the input, added to those already read. An error of the table is reported at
the word `define`. -/
def functions (defined : List String) : Nat → Program → Reader Program
  | 0, _ => undefined
  | fuel + 1, program => do
    if ← atEnd then return program
    else
      let start ← peek
      let f ← function defined
      match program.define f with
      | .ok program => functions defined fuel program
      | .error e =>
        match start with
        | some l => lift (.error (.atLexeme l (.definition e)))
        | none => fail (.definition e)

theorem section?_eq (c : Cursor) : Parse.section? c = operator? sectionOf? c := by
  unfold Parse.section? operator? Cursor.eat?
  cases c.next? with
  | none => rfl
  | some r =>
    dsimp only
    cases r.value.token with
    | keyword word => cases word <;> rfl
    | _ => rfl

theorem meets_functionBody (hc : Stands ls c) (defined taken : List String) (hfuel : c.ahead.length < fuel) :
    Meets ls (functionBody defined fuel taken) c (Parse.functionBody defined taken c) := by
  induction fuel generalizing c taken with
  | zero => omega
  | succ fuel ih =>
    rw [functionBody, Parse.functionBody, section?_eq]
    cases hword : operator? sectionOf? c with
    | none =>
      apply meets_pick?_none hc hword
      apply Meets.bind hc (meets_statements hc _ _)
      intro body _ _
      rfl
    | some word =>
      apply meets_pick?_some hc hword
      apply Meets.bind (hc.next word) (meets_declarations (hc.next word) _)
      intro declared _ hdeclared
      have hshorter := Nat.lt_trans declared.shorter word.shorter
      apply meets_lift
      intro taken _
      apply Meets.bind hdeclared (ih hdeclared taken (by omega))
      intro rest _ _
      rfl

theorem meets_parameterList (hc : Stands ls c) : Meets ls parameterList c (Parse.parameterList c) := by
  unfold parameterList Parse.parameterList
  apply Meets.bind hc (meets_expect hc _ _)
  intro opening _ hopening
  cases heat : opening.next.eat? (.mark .closeParen) with
  | some close => exact meets_eat_some hopening heat rfl
  | none =>
    apply meets_eat_none hopening heat
    apply Meets.bind hopening (meets_parameters hopening)
    intro all _ hall
    apply Meets.bind hall (meets_expect hall _ _)
    intro close _ _
    rfl

theorem meets_function (hc : Stands ls c) (defined : List String) :
    Meets ls (function defined) c (Parse.function defined c) := by
  unfold function Parse.function
  apply Meets.bind hc (meets_expect hc _ _)
  intro define _ hdefine
  apply Meets.bind hdefine (meets_expectName hdefine _)
  intro name _ hname
  apply Meets.bind hname (meets_parameterList hname)
  intro declared _ hdeclared
  apply Meets.bind hdeclared (meets_expect hdeclared _ _)
  intro lineEnd _ hlineEnd
  apply Meets.bind hlineEnd (meets_expect hlineEnd _ _)
  intro indent _ hindent
  apply meets_lift
  intro taken _
  have hbody : Meets ls (within 1 fun fuel => functionBody defined fuel taken) indent.next
      (Parse.functionBody defined taken indent.next) := by
    apply Meets.within hindent
    intro fuel hfuel
    exact meets_functionBody hindent defined taken (by omega)
  apply Meets.bind hindent hbody
  intro body _ _
  exact meets_placeFrom hindent body.passes _ rfl

/-- A program is read up to the end of the list. -/
theorem functions_eq (hc : Stands ls c) (defined : List String) (program : Program) (hfuel : c.ahead.length < fuel) :
    functions defined fuel program ls (position ls c) =
      some ((Parse.functions defined program c).map fun program => (program, ls.length)) := by
  induction fuel generalizing c program with
  | zero => omega
  | succ fuel ih =>
    rw [functions, Parse.functions, bind_of_ok (atEnd_eq hc)]
    cases hahead : c.ahead with
    | nil =>
      have hplace : position ls c = ls.length := by
        rw [position, hahead, List.length_nil, Nat.sub_zero]
      rw [hplace]
      rfl
    | cons l rest =>
      have hpeek : peek ls (position ls c) = some (.ok (some l, position ls c)) := by
        rw [peek, hc.lookup, hahead]
        rfl
      have hfunction := meets_function hc defined
      refine (bind_of_ok hpeek).trans ?_
      cases hf : Parse.function defined c with
      | error e =>
        rw [hf] at hfunction
        exact bind_of_error hfunction
      | ok f =>
        rw [hf] at hfunction
        refine (bind_of_ok hfunction).trans ?_
        have hshorter := f.shorter
        rw [if_neg (by simp), ok_bind]
        dsimp only
        cases program.define f.value with
        | ok program => exact ih (hc.next f) program (by omega)
        | error e =>
          dsimp only
          rw [Cursor.fail, Cursor.fault, hahead]
          rfl

/-! ### Names of functions -/

/-- The stretches of two items in a list. -/
def pairs {α : Type} : List α → List (List α)
  | a :: b :: rest => [a, b] :: pairs (b :: rest)
  | _ => []

/-- The names that directly follow the word `define`, given the pairs of lexemes side by side. -/
def definedIn : List (List Lexeme) → Option (List String)
  | [] => some []
  | pair :: rest => do
    let first ← pair[0]?
    let second ← pair[1]?
    let more ← definedIn rest
    match first.token, second.token with
    | .keyword .define, .name name => return name :: more
    | _, _ => return more

/-- The program that a list of lexemes stands for. -/
def program (ls : List Lexeme) : Option (Except SyntaxError Program) := do
  let defined ← definedIn (pairs ls)
  let result ← within 1 (fun fuel => functions defined fuel .empty) ls 0
  return result.map Prod.fst

theorem definedIn_eq : ∀ ls : List Lexeme, definedIn (pairs ls) = some (Parse.definedNames ls)
  | [] => rfl
  | [_] => rfl
  | a :: b :: ls => by
    rw [pairs, definedIn, definedIn_eq (b :: ls), Parse.definedNames]
    change (match a.token, b.token with | .keyword .define, .name name => _ | _, _ => _) = _
    cases a.token with
    | keyword word =>
      cases word with
      | define => cases b.token <;> rfl
      | _ => rfl
    | _ => rfl

theorem program_eq (ls : List Lexeme) : program ls = some (Program.ofLexemes ls) := by
  have hstart : position ls (.ofLexemes ls) = 0 := Nat.sub_self _
  have hfunctions := functions_eq (stands_ofLexemes ls) (Parse.definedNames ls) .empty
    (show (Cursor.ofLexemes ls).ahead.length < 1 * (ls.length + 1) by simp [Cursor.ofLexemes])
  rw [hstart] at hfunctions
  rw [program, definedIn_eq, Option.bind_eq_bind, Option.bind_some, within, hfunctions, Program.ofLexemes]
  cases Parse.functions (Parse.definedNames ls) .empty (.ofLexemes ls) <;> rfl

end Offside.Strict
