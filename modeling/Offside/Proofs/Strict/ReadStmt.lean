import Offside.Proofs.Strict.ReadExpr

/-!
# Strict reading of statements

Statements over a place in the list of lexemes. The place of a statement in the source takes the lexemes up to the
reader's place from the list, the last of which ends it.
-/

namespace Offside.Strict

open Reader
open Parse (Cursor isCallable)

/-- The value of an assignment, from its mark to the end of the line. -/
def assignedValue : Reader Expr := do
  let _ ← expectMark .assign .assignMark
  let value ← comparison
  let _ ← expectLineEnd
  return value

/-- What follows the name at the start of an assignment. -/
def assignment (name : String) : Reader (Target × Expr) := do
  if ← eat (.mark .openBracket) then
    let index ← expr
    let _ ← expectMark .closeBracket .closeIndex
    let value ← assignedValue
    return (.element name index, value)
  else return (.named name, ← assignedValue)

/-- The counter and the bounds of a counting loop. -/
def countHead : Reader (String × Expr × Expr) := do
  let (counter, _) ← expectName .loopVariable
  let _ ← expectWord .from_ .loopFrom
  let first ← expr
  let _ ← expectWord .to_ .loopTo
  let last ← expr
  return (counter, first, last)

/-- The condition of a branch and the word behind it. -/
def branchHead : Reader Expr := do
  let condition ← comparison
  let _ ← expectWord .then_ .thenWord
  return condition

/-- The condition of a loop that asks it last, with the word in front of it. -/
def untilHead : Reader Expr := do
  let _ ← expectWord .until_ .untilWord
  comparison

/-- The line end and the indent that open a block. -/
def openBlock : Reader Unit := do
  let _ ← expectLineEnd
  let _ ← expect .indent .block
  return ()

mutual

def statement (defined : List String) : Nat → Reader Stmt
  | 0 => undefined
  | fuel + 1 => do
    match ← peek with
    | none => fail (.expected .statement)
    | some first =>
      match first.token with
      | .keyword .if_ => do
        move
        let links ← chain defined fuel
        return .branch (← placeFrom first) links
      | .keyword .for_ => do
        move
        let (counter, low, high) ← countHead
        let body ← block defined fuel
        return .count (← placeFrom first) counter low high body
      | .keyword .while_ => do
        move
        let condition ← comparison
        let body ← block defined fuel
        return .loopWhile (← placeFrom first) condition body
      | .keyword .repeat_ => do
        move
        let condition ← untilHead
        let body ← block defined fuel
        return .loopUntil (← placeFrom first) condition body
      | .name name => do
        move
        if isCallable defined name then
          let args ← callArguments
          return .call (← placeFrom first) name args
        else
          let (target, value) ← assignment name
          return .assign (← placeFrom first) target value
      | _ => fail (.expected .statement)

/-- The links of a branching statement, behind the word that opens the first of them. -/
def chain (defined : List String) : Nat → Reader Chain
  | 0 => undefined
  | fuel + 1 => do
    let condition ← branchHead
    let body ← block defined fuel
    if ← eat (.keyword .elsif) then return .link (some condition) body (← chain defined fuel)
    else if ← eat (.keyword .else_) then return .link (some condition) body (.last none (← block defined fuel))
    else return .last (some condition) body

/-- A block on the lines below, one level deeper. -/
def block (defined : List String) : Nat → Reader (List Stmt)
  | 0 => undefined
  | fuel + 1 => do
    openBlock
    statementList defined .blockEnd fuel

/-- Statements up to the dedent that ends them, which is read too. -/
def statementList (defined : List String) (ending : Expected) : Nat → Reader (List Stmt)
  | 0 => undefined
  | fuel + 1 => do
    if ← eat .dedent then return []
    else if ← atEnd then fail (.expected ending)
    else
      let first ← statement defined fuel
      return first :: (← statementList defined ending fuel)

end

/-- Statements, read in as many steps as they may need. -/
def statements (defined : List String) (ending : Expected) : Reader (List Stmt) :=
  within 2 (statementList defined ending)

variable {ls : List Lexeme} {c : Cursor}

theorem meets_assignedValue (hc : Stands ls c) : Meets ls assignedValue c (Parse.assignedValue c) := by
  unfold assignedValue Parse.assignedValue
  apply Meets.bind hc (meets_expect hc _ _)
  intro mark _ hmark
  apply Meets.bind hmark (meets_comparison hmark)
  intro value _ hvalue
  apply Meets.bind hvalue (meets_expect hvalue _ _)
  intro lineEnd _ _
  rfl

theorem meets_assignment (hc : Stands ls c) (name : String) :
    Meets ls (assignment name) c (Parse.assignment name c) := by
  unfold assignment Parse.assignment Parse.target
  cases heat : c.eat? (.mark .openBracket) with
  | none =>
    apply meets_eat_none hc heat
    apply Meets.bind hc (meets_assignedValue hc)
    intro value _ _
    rfl
  | some bracket =>
    have hbracket := hc.next bracket
    apply meets_eat_some hc heat
    dsimp only
    simp only [bind_assoc, pure_bind]
    apply Meets.bind hbracket (meets_expr hbracket)
    intro index _ hindex
    apply Meets.bind hindex (meets_expect hindex _ _)
    intro close _ hclose
    apply Meets.bind hclose (meets_assignedValue hclose)
    intro value _ _
    rfl

theorem meets_countHead (hc : Stands ls c) : Meets ls countHead c (Parse.countHead c) := by
  unfold countHead Parse.countHead
  apply Meets.bind hc (meets_expectName hc _)
  intro counter _ hcounter
  apply Meets.bind hcounter (meets_expect hcounter _ _)
  intro from_ _ hfrom
  apply Meets.bind hfrom (meets_expr hfrom)
  intro first _ hfirst
  apply Meets.bind hfirst (meets_expect hfirst _ _)
  intro to_ _ hto
  apply Meets.bind hto (meets_expr hto)
  intro last _ _
  rfl

theorem meets_branchHead (hc : Stands ls c) : Meets ls branchHead c (Parse.branchHead c) := by
  unfold branchHead Parse.branchHead
  apply Meets.bind hc (meets_comparison hc)
  intro condition _ hcondition
  apply Meets.bind hcondition (meets_expect hcondition _ _)
  intro then_ _ _
  rfl

theorem meets_untilHead (hc : Stands ls c) : Meets ls untilHead c (Parse.untilHead c) := by
  unfold untilHead Parse.untilHead
  apply Meets.bind hc (meets_expect hc _ _)
  intro until_ _ huntil
  exact (meets_comparison huntil).widen fun r => ⟨rfl, rfl⟩

theorem meets_openBlock (hc : Stands ls c) : Meets ls openBlock c (Parse.openBlock c) := by
  unfold openBlock Parse.openBlock
  apply Meets.bind hc (meets_expect hc _ _)
  intro lineEnd _ hlineEnd
  apply Meets.bind hlineEnd (meets_expect hlineEnd _ _)
  intro indent _ _
  rfl

/-- The readers of statements meet those over cursors with so many steps. -/
structure StmtMeets (ls : List Lexeme) (defined : List String) (fuel : Nat) : Prop where
  statement : ∀ {c}, Stands ls c → 2 * c.ahead.length < fuel →
    Meets ls (statement defined fuel) c (Parse.statement defined c)
  chain : ∀ {c}, Stands ls c → 2 * c.ahead.length < fuel → Meets ls (chain defined fuel) c (Parse.chain defined c)
  block : ∀ {c}, Stands ls c → 2 * c.ahead.length < fuel → Meets ls (block defined fuel) c (Parse.block defined c)
  statements : ∀ {c} ending, Stands ls c → 2 * c.ahead.length + 1 < fuel →
    Meets ls (statementList defined ending fuel) c (Parse.statements defined ending c)

variable {defined : List String} {fuel : Nat}

theorem statement_meets_step (ih : StmtMeets ls defined fuel) (hc : Stands ls c)
    (hfuel : 2 * c.ahead.length < fuel + 1) :
    Meets ls (statement defined (fuel + 1)) c (Parse.statement defined c) := by
  rw [statement, Parse.statement]
  cases hnext : c.next? with
  | none => exact meets_peek_none hc hnext (meets_fail hc _)
  | some first =>
    have hfirst := hc.next first
    have hshorter := first.shorter
    apply meets_peek_some hc hnext
    dsimp only
    cases first.value.token with
    | keyword word =>
      cases word with
      | if_ =>
        apply meets_move hc hnext
        apply Meets.bind hfirst (ih.chain hfirst (by omega))
        intro links _ _
        exact meets_placeFrom hfirst links.passes _ rfl
      | for_ =>
        apply meets_move hc hnext
        apply Meets.bind hfirst (meets_countHead hfirst)
        intro head _ hhead
        have hshorter' := head.shorter
        apply Meets.bind hhead (ih.block hhead (by omega))
        intro body _ _
        exact meets_placeFrom hhead body.passes _ rfl
      | while_ =>
        apply meets_move hc hnext
        apply Meets.bind hfirst (meets_comparison hfirst)
        intro condition _ hcondition
        have hshorter' := condition.shorter
        apply Meets.bind hcondition (ih.block hcondition (by omega))
        intro body _ _
        exact meets_placeFrom hcondition body.passes _ rfl
      | repeat_ =>
        apply meets_move hc hnext
        apply Meets.bind hfirst (meets_untilHead hfirst)
        intro condition _ hcondition
        have hshorter' := condition.shorter
        apply Meets.bind hcondition (ih.block hcondition (by omega))
        intro body _ _
        exact meets_placeFrom hcondition body.passes _ rfl
      | _ => exact meets_fail hc _
    | name name =>
      apply meets_move hc hnext
      dsimp only
      split
      · apply Meets.bind hfirst (meets_callArguments hfirst)
        intro args _ _
        exact meets_placeFrom hfirst args.passes _ rfl
      · apply Meets.bind hfirst (meets_assignment hfirst name)
        intro parts _ _
        exact meets_placeFrom hfirst parts.passes _ rfl
    | _ => exact meets_fail hc _

theorem chain_meets_step (ih : StmtMeets ls defined fuel) (hc : Stands ls c)
    (hfuel : 2 * c.ahead.length < fuel + 1) : Meets ls (chain defined (fuel + 1)) c (Parse.chain defined c) := by
  rw [chain, Parse.chain]
  apply Meets.bind hc (meets_branchHead hc)
  intro head _ hhead
  have hshorter := head.shorter
  apply Meets.bind hhead (ih.block hhead (by omega))
  intro body _ hbody
  have hshorter' := body.shorter
  cases helsif : body.next.eat? (.keyword .elsif) with
  | some elsif =>
    have hshorter'' := elsif.shorter
    apply meets_eat_some hbody helsif
    apply Meets.bind (hbody.next elsif) (ih.chain (hbody.next elsif) (by omega))
    intro next _ _
    rfl
  | none =>
    apply meets_eat_none hbody helsif
    dsimp only
    cases helse : body.next.eat? (.keyword .else_) with
    | some else_ =>
      have hshorter'' := else_.shorter
      apply meets_eat_some hbody helse
      apply Meets.bind (hbody.next else_) (ih.block (hbody.next else_) (by omega))
      intro last _ _
      rfl
    | none => exact meets_eat_none hbody helse rfl

theorem block_meets_step (ih : StmtMeets ls defined fuel) (hc : Stands ls c)
    (hfuel : 2 * c.ahead.length < fuel + 1) : Meets ls (block defined (fuel + 1)) c (Parse.block defined c) := by
  rw [block, Parse.block]
  apply Meets.bind hc (meets_openBlock hc)
  intro opening _ hopening
  have hshorter := opening.shorter
  exact (ih.statements _ hopening (by omega)).widen fun r => ⟨rfl, rfl⟩

theorem statements_meets_step (ih : StmtMeets ls defined fuel) (ending : Expected) (hc : Stands ls c)
    (hfuel : 2 * c.ahead.length + 1 < fuel + 1) :
    Meets ls (statementList defined ending (fuel + 1)) c (Parse.statements defined ending c) := by
  rw [statementList, Parse.statements]
  cases heat : c.eat? .dedent with
  | some dedent => exact meets_eat_some hc heat rfl
  | none =>
    apply meets_eat_none hc heat
    apply meets_atEnd hc
    dsimp only
    split
    · exact meets_fail hc _
    · apply Meets.bind hc (ih.statement hc (by omega))
      intro first _ hfirst
      have hshorter := first.shorter
      apply Meets.bind hfirst (ih.statements ending hfirst (by omega))
      intro rest _ _
      rfl

theorem stmt_meets (ls : List Lexeme) (defined : List String) (fuel : Nat) : StmtMeets ls defined fuel := by
  induction fuel with
  | zero =>
    constructor
    all_goals
      intros
      omega
  | succ fuel ih =>
    exact ⟨statement_meets_step ih, chain_meets_step ih, block_meets_step ih, statements_meets_step ih⟩

theorem meets_statements (hc : Stands ls c) (defined : List String) (ending : Expected) :
    Meets ls (statements defined ending) c (Parse.statements defined ending c) := by
  apply Meets.within hc
  intro fuel hfuel
  exact (stmt_meets ls defined fuel).statements ending hc (by omega)

end Offside.Strict
