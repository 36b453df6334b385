import Offside.Proofs.Strict.Reader

/-!
# Strict reading of literals, types and expressions

The readers of the grammar over a place in the list of lexemes. Each of them meets the reader over a cursor, so it has
an answer wherever a cursor can stand. Where a reader calls itself, the steps that it may take count the lexemes ahead.
-/

namespace Offside.Strict

open Reader
open Parse (Cursor Reading literalOf? leastMagnitude literalCause scalarType? comparisonOf? additiveOf?
  multiplicativeOf? operator?)

/-! ### Literals and types -/

/-- One token that stands for a literal. -/
def plainLiteral (what : Expected) : Reader Literal :=
  pick literalOf? (literalCause what)

/-- Why a token is no literal behind a minus sign. -/
def negativeCause (token? : Option Token) : SyntaxCause :=
  if (token?.bind literalOf?).isSome then .negatedText else literalCause .literal token?

/-- A literal behind a minus sign. -/
def negativeLiteral : Reader Literal := do
  if ← eat leastMagnitude then return .integer Int32.minValue
  else pick (fun t => (literalOf? t).bind Literal.negate?) negativeCause

/-- A literal of a declaration: a number with an optional minus sign, or any other literal. -/
def literal : Reader Literal := do
  if ← eat (.mark .minus) then negativeLiteral else plainLiteral .literal

/-- A type that is no array. -/
def scalarType : Reader DataType :=
  pick scalarType? fun _ => .expected .typeName

/-- A type. The elements of an array are no arrays. -/
def dataType : Reader DataType := do
  if ← eat (.keyword .array) then
    let _ ← expectWord .of_ .ofArray
    if ← isNext (.keyword .array) then fail .nestedArray
    else return .array (← scalarType)
  else scalarType

/-- The limits of a declaration, behind the word `from`. -/
def limits : Reader Range := do
  let low ← literal
  let _ ← expectWord .to_ .rangeTo
  let high ← literal
  return ⟨low, high⟩

variable {ls : List Lexeme} {c : Cursor}

theorem meets_plainLiteral (hc : Stands ls c) (what : Expected) :
    Meets ls (plainLiteral what) c (Parse.plainLiteral what c) := by
  unfold plainLiteral pick Parse.plainLiteral
  cases hnext : c.next? with
  | none => exact meets_peek_none hc hnext (meets_fail hc _)
  | some r =>
    apply meets_peek_some hc hnext
    rw [Cursor.token?, head?_of_next? hnext]
    dsimp only
    cases literalOf? r.value.token with
    | some value => exact meets_move hc hnext rfl
    | none => exact meets_fail hc _

theorem meets_negativeLiteral (hc : Stands ls c) : Meets ls negativeLiteral c (Parse.negativeLiteral c) := by
  unfold negativeLiteral Parse.negativeLiteral
  cases hleast : c.eat? leastMagnitude with
  | some magnitude => exact meets_eat_some hc hleast rfl
  | none =>
    apply meets_eat_none hc hleast
    unfold pick Parse.plainLiteral
    cases hnext : c.next? with
    | none => exact meets_peek_none hc hnext (meets_fail hc _)
    | some r =>
      apply meets_peek_some hc hnext
      rw [Cursor.token?, head?_of_next? hnext]
      dsimp only [Option.map]
      cases hliteral : literalOf? r.value.token with
      | none =>
        have hcause : negativeCause (some r.value.token) = literalCause .literal (some r.value.token) := by
          simp [negativeCause, hliteral]
        rw [hcause]
        exact meets_fail hc _
      | some value =>
        have hcause : negativeCause (some r.value.token) = .negatedText := by
          simp [negativeCause, hliteral]
        rw [hcause, Option.bind_some]
        dsimp only [bind, Except.bind, Reading.map]
        cases value.negate? with
        | none => exact meets_fail hc _
        | some negated => exact meets_move hc hnext rfl

theorem meets_literal (hc : Stands ls c) : Meets ls literal c (Parse.literal c) := by
  unfold literal Parse.literal
  cases heat : c.eat? (.mark .minus) with
  | none => exact meets_eat_none hc heat (meets_plainLiteral hc _)
  | some minus =>
    apply meets_eat_some hc heat
    exact (meets_negativeLiteral (hc.next minus)).widen fun r => ⟨rfl, rfl⟩

theorem meets_scalarType (hc : Stands ls c) : Meets ls scalarType c (Parse.scalarType c) := by
  unfold scalarType pick Parse.scalarType
  cases hnext : c.next? with
  | none => exact meets_peek_none hc hnext (meets_fail hc _)
  | some r =>
    apply meets_peek_some hc hnext
    dsimp only
    cases scalarType? r.value.token with
    | some type => exact meets_move hc hnext rfl
    | none => exact meets_fail hc _

theorem meets_dataType (hc : Stands ls c) : Meets ls dataType c (Parse.dataType c) := by
  unfold dataType Parse.dataType
  cases heat : c.eat? (.keyword .array) with
  | none => exact meets_eat_none hc heat (meets_scalarType hc)
  | some array =>
    apply meets_eat_some hc heat
    apply Meets.bind (hc.next array) (meets_expect (hc.next array) _ _)
    intro of_ _ hof
    apply meets_isNext hof
    cases hnested : of_.next.eat? (.keyword .array) with
    | some nested => exact meets_fail hof _
    | none =>
      apply Meets.bind hof (meets_scalarType hof)
      intro element _ _
      rfl

theorem meets_limits (hc : Stands ls c) : Meets ls limits c (Parse.limits c) := by
  unfold limits Parse.limits
  apply Meets.bind hc (meets_literal hc)
  intro low _ hlow
  apply Meets.bind hlow (meets_expect hlow _ _)
  intro to_ _ hto
  apply Meets.bind hto (meets_literal hto)
  intro high _ _
  rfl

/-! ### Expressions -/

mutual

def factor : Nat → Reader Expr
  | 0 => undefined
  | fuel + 1 => do
    match ← peek with
    | none => fail (.expected .expression)
    | some first =>
      match first.token with
      | .mark .minus => do
        move
        if ← eat leastMagnitude then return .literal (.integer Int32.minValue)
        else return .negate (← factor fuel)
      | .mark .openParen => do
        move
        let inner ← sum fuel
        let _ ← expectMark .closeParen .closeExpression
        return inner
      | .name name => do
        move
        if ← eat (.mark .openBracket) then
          let index ← sum fuel
          let _ ← expectMark .closeBracket .closeIndex
          return .element name index
        else return .named name
      | _ => return .literal (← plainLiteral .expression)

/-- The factors behind the ones already read. -/
def productRest : Nat → Expr → Reader Expr
  | 0, _ => undefined
  | fuel + 1, left => do
    match ← pick? multiplicativeOf? with
    | none => return left
    | some op =>
      let right ← factor fuel
      productRest fuel (.arithmetic op left right)

def product : Nat → Reader Expr
  | 0 => undefined
  | fuel + 1 => do productRest fuel (← factor fuel)

/-- The products behind the ones already read. -/
def sumRest : Nat → Expr → Reader Expr
  | 0, _ => undefined
  | fuel + 1, left => do
    match ← pick? additiveOf? with
    | none => return left
    | some op =>
      let right ← product fuel
      sumRest fuel (.arithmetic op left right)

def sum : Nat → Reader Expr
  | 0 => undefined
  | fuel + 1 => do sumRest fuel (← product fuel)

end

/-- A sum, read in as many steps as it may need. -/
def expr : Reader Expr :=
  within 3 sum

/-- A sum, or two sums with a comparison operator between them. -/
def comparison : Reader Expr := do
  let left ← expr
  match ← pick? comparisonOf? with
  | none => return left
  | some op =>
    let right ← expr
    return .compare op left right

/-- The readers of expressions meet those over cursors with so many steps. -/
structure ExprMeets (ls : List Lexeme) (fuel : Nat) : Prop where
  factor : ∀ {c}, Stands ls c → 3 * c.ahead.length < fuel → Meets ls (factor fuel) c (Parse.factor c)
  productRest : ∀ {start} (left : Reading Expr start), Stands ls left.next → 3 * left.next.ahead.length < fuel →
    Meets ls (productRest fuel left.value) left.next (Parse.productRest left)
  product : ∀ {c}, Stands ls c → 3 * c.ahead.length + 1 < fuel → Meets ls (product fuel) c (Parse.product c)
  sumRest : ∀ {start} (left : Reading Expr start), Stands ls left.next → 3 * left.next.ahead.length < fuel →
    Meets ls (sumRest fuel left.value) left.next (Parse.sumRest left)
  sum : ∀ {c}, Stands ls c → 3 * c.ahead.length + 2 < fuel → Meets ls (sum fuel) c (Parse.sum c)

variable {fuel : Nat}

theorem factor_meets_step (ih : ExprMeets ls fuel) (hc : Stands ls c) (hfuel : 3 * c.ahead.length < fuel + 1) :
    Meets ls (factor (fuel + 1)) c (Parse.factor c) := by
  have hliteral : Meets ls (do return Expr.literal (← plainLiteral .expression)) c
      (do
        let value ← Parse.plainLiteral .expression c
        return value.map Expr.literal) := by
    apply Meets.bind hc (meets_plainLiteral hc _)
    intro value _ _
    rfl
  rw [factor, Parse.factor]
  cases hnext : c.next? with
  | none => exact meets_peek_none hc hnext (meets_fail hc _)
  | some first =>
    have hfirst := hc.next first
    have hshorter := first.shorter
    apply meets_peek_some hc hnext
    dsimp only
    cases first.value.token with
    | mark mark =>
      cases mark with
      | minus =>
        apply meets_move hc hnext
        cases hleast : first.next.eat? leastMagnitude with
        | some magnitude => exact meets_eat_some hfirst hleast rfl
        | none =>
          apply meets_eat_none hfirst hleast
          apply Meets.bind hfirst (ih.factor hfirst (by omega))
          intro operand _ _
          rfl
      | openParen =>
        apply meets_move hc hnext
        apply Meets.bind hfirst (ih.sum hfirst (by omega))
        intro inner _ hinner
        apply Meets.bind hinner (meets_expect hinner _ _)
        intro close _ _
        rfl
      | _ => exact hliteral
    | name name =>
      apply meets_move hc hnext
      cases hbracket : first.next.eat? (.mark .openBracket) with
      | none => exact meets_eat_none hfirst hbracket rfl
      | some bracket =>
        have hinside := hfirst.next bracket
        have hshorter' := bracket.shorter
        apply meets_eat_some hfirst hbracket
        apply Meets.bind hinside (ih.sum hinside (by omega))
        intro index _ hindex
        apply Meets.bind hindex (meets_expect hindex _ _)
        intro close _ _
        rfl
    | _ => exact hliteral

theorem productRest_meets_step (ih : ExprMeets ls fuel) {start : Cursor} (left : Reading Expr start)
    (hc : Stands ls left.next) (hfuel : 3 * left.next.ahead.length < fuel + 1) :
    Meets ls (productRest (fuel + 1) left.value) left.next (Parse.productRest left) := by
  rw [productRest, Parse.productRest]
  cases hop : operator? multiplicativeOf? left.next with
  | none => exact meets_pick?_none hc hop rfl
  | some op =>
    have hnext := hc.next op
    have hshorter := op.shorter
    apply meets_pick?_some hc hop
    apply Meets.bind hnext (ih.factor hnext (by omega))
    intro right _ hright
    have hshorter' := right.shorter
    exact ih.productRest (left.andThen (op.andThen right ()) _) hright (by simp only [Reading.andThen]; omega)

theorem sumRest_meets_step (ih : ExprMeets ls fuel) {start : Cursor} (left : Reading Expr start)
    (hc : Stands ls left.next) (hfuel : 3 * left.next.ahead.length < fuel + 1) :
    Meets ls (sumRest (fuel + 1) left.value) left.next (Parse.sumRest left) := by
  rw [sumRest, Parse.sumRest]
  cases hop : operator? additiveOf? left.next with
  | none => exact meets_pick?_none hc hop rfl
  | some op =>
    have hnext := hc.next op
    have hshorter := op.shorter
    apply meets_pick?_some hc hop
    apply Meets.bind hnext (ih.product hnext (by omega))
    intro right _ hright
    have hshorter' := right.shorter
    exact ih.sumRest (left.andThen (op.andThen right ()) _) hright (by simp only [Reading.andThen]; omega)

/-- The induction is on the steps; each call is made with one step less, in front of fewer lexemes or one level down. -/
theorem expr_meets (ls : List Lexeme) (fuel : Nat) : ExprMeets ls fuel := by
  induction fuel with
  | zero =>
    constructor
    all_goals
      intros
      omega
  | succ fuel ih =>
    constructor
    · exact factor_meets_step ih
    · exact productRest_meets_step ih
    · intro c hc hfuel
      rw [product, Parse.product]
      apply Meets.bind hc (ih.factor hc (by omega))
      intro first _ hfirst
      have hshorter := first.shorter
      exact ih.productRest first hfirst (by omega)
    · exact sumRest_meets_step ih
    · intro c hc hfuel
      rw [sum, Parse.sum]
      apply Meets.bind hc (ih.product hc (by omega))
      intro first _ hfirst
      have hshorter := first.shorter
      exact ih.sumRest first hfirst (by omega)

theorem meets_expr (hc : Stands ls c) : Meets ls expr c (Parse.sum c) := by
  apply Meets.within hc
  intro fuel hfuel
  exact (expr_meets ls fuel).sum hc (by omega)

theorem meets_comparison (hc : Stands ls c) : Meets ls comparison c (Parse.comparison c) := by
  unfold comparison Parse.comparison
  apply Meets.bind hc (meets_expr hc)
  intro left _ hleft
  cases hop : operator? comparisonOf? left.next with
  | none => exact meets_pick?_none hleft hop rfl
  | some op =>
    apply meets_pick?_some hleft hop
    apply Meets.bind (hleft.next op) (meets_expr (hleft.next op))
    intro right _ _
    rfl

/-! ### Arguments -/

/-- An argument. Behind the word `var` it has to name a place. -/
def argument : Reader Argument := do
  match ← peek with
  | none => fail (.expected .argument)
  | some first =>
    if ← eat (.keyword .var) then
      let value ← comparison
      match value.target? with
      | some target => return ⟨target.toExpr, true⟩
      | none => lift (.error (.atLexeme first (.notAPlace value)))
    else return ⟨← comparison, false⟩

/-- One or more arguments with commas between them. -/
def argumentList : Nat → Reader (List Argument)
  | 0 => undefined
  | fuel + 1 => do
    let first ← argument
    if ← eat (.mark .comma) then return first :: (← argumentList fuel)
    else return [first]

def arguments : Reader (List Argument) :=
  within 1 argumentList

/-- Arguments up to the end of the line, which is read too. -/
def bareArguments : Reader (List Argument) := do
  if ← eat .newline then return []
  else
    let args ← arguments
    let _ ← expectLineEnd
    return args

/-- Arguments behind an opening parenthesis, up to the closing one. -/
def enclosedArguments : Reader (List Argument) := do
  if ← eat (.mark .closeParen) then return []
  else
    let args ← arguments
    let _ ← expectMark .closeParen .closeArguments
    return args

/-- What follows the name of a function on the line of a call. The place is set back for the second reading. -/
def callArguments : Reader (List Argument) := do
  let start ← place
  if ← eat (.mark .openParen) then
    match ← attempt enclosedArguments with
    | .ok args =>
      if ← eat .newline then return args
      else
        goTo start
        bareArguments
    | .error enclosedError =>
      goTo start
      match ← attempt bareArguments with
      | .ok args => return args
      | .error _ => lift (.error enclosedError)
  else bareArguments

theorem meets_argument (hc : Stands ls c) : Meets ls argument c (Parse.argument c) := by
  unfold argument Parse.argument
  cases hnext : c.next? with
  | none => exact meets_peek_none hc hnext (meets_fail hc _)
  | some first =>
    apply meets_peek_some hc hnext
    dsimp only
    by_cases hvar : first.value.token = .keyword .var
    · have heat : c.eat? (.keyword .var) = some first := by
        rw [Cursor.eat?, hnext]
        exact if_pos hvar
      rw [if_pos hvar]
      apply meets_eat_some hc heat
      apply Meets.bind (hc.next first) (meets_comparison (hc.next first))
      intro value _ _
      cases value.value.target? with
      | some target => rfl
      | none => rfl
    · have heat : c.eat? (.keyword .var) = none := by
        rw [Cursor.eat?, hnext]
        exact if_neg hvar
      rw [if_neg hvar]
      apply meets_eat_none hc heat
      apply Meets.bind hc (meets_comparison hc)
      intro value _ _
      rfl

theorem meets_argumentList (hc : Stands ls c) (hfuel : c.ahead.length < fuel) :
    Meets ls (argumentList fuel) c (Parse.arguments c) := by
  induction fuel generalizing c with
  | zero => omega
  | succ fuel ih =>
    rw [argumentList, Parse.arguments]
    apply Meets.bind hc (meets_argument hc)
    intro first _ hfirst
    have hshorter := first.shorter
    cases heat : first.next.eat? (.mark .comma) with
    | none => exact meets_eat_none hfirst heat rfl
    | some comma =>
      have hshorter' := comma.shorter
      apply meets_eat_some hfirst heat
      apply Meets.bind (hfirst.next comma) (ih (hfirst.next comma) (by omega))
      intro rest _ _
      rfl

theorem meets_arguments (hc : Stands ls c) : Meets ls arguments c (Parse.arguments c) := by
  apply Meets.within hc
  intro fuel hfuel
  exact meets_argumentList hc (by omega)

theorem meets_bareArguments (hc : Stands ls c) : Meets ls bareArguments c (Parse.bareArguments c) := by
  unfold bareArguments Parse.bareArguments
  cases heat : c.eat? .newline with
  | some lineEnd => exact meets_eat_some hc heat rfl
  | none =>
    apply meets_eat_none hc heat
    apply Meets.bind hc (meets_arguments hc)
    intro args _ hargs
    apply Meets.bind hargs (meets_expect hargs _ _)
    intro lineEnd _ _
    rfl

theorem meets_enclosedArguments (hc : Stands ls c) : Meets ls enclosedArguments c (Parse.enclosedArguments c) := by
  unfold enclosedArguments Parse.enclosedArguments
  cases heat : c.eat? (.mark .closeParen) with
  | some close => exact meets_eat_some hc heat rfl
  | none =>
    apply meets_eat_none hc heat
    apply Meets.bind hc (meets_arguments hc)
    intro args _ hargs
    apply Meets.bind hargs (meets_expect hargs _ _)
    intro close _ _
    rfl

theorem meets_callArguments (hc : Stands ls c) : Meets ls callArguments c (Parse.callArguments c) := by
  have hbare := meets_bareArguments hc
  have hplace : place ls (position ls c) = some (.ok (position ls c, position ls c)) := rfl
  unfold callArguments Parse.callArguments
  refine (bind_of_ok hplace).trans ?_
  cases heat : c.eat? (.mark .openParen) with
  | none => exact meets_eat_none hc heat hbare
  | some opening =>
    have hopening := hc.next opening
    have henclosed := meets_enclosedArguments hopening
    apply meets_eat_some hc heat
    dsimp only
    cases hargs : Parse.enclosedArguments opening.next with
    | ok args =>
      rw [hargs] at henclosed
      apply meets_attempt_ok henclosed
      dsimp only
      cases hend : args.next.eat? .newline with
      | some lineEnd => exact meets_eat_some (hopening.next args) hend rfl
      | none => exact meets_eat_none (hopening.next args) hend (meets_goTo hbare)
    | error enclosedError =>
      rw [hargs] at henclosed
      apply meets_attempt_error henclosed
      apply meets_goTo
      dsimp only
      cases hbareArgs : Parse.bareArguments c with
      | ok args =>
        rw [hbareArgs] at hbare
        exact meets_attempt_ok hbare rfl
      | error bareError =>
        rw [hbareArgs] at hbare
        exact meets_attempt_error hbare rfl

end Offside.Strict
