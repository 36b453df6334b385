import Offside.Parse.Program

/-!
# The grammar

Which tokens stand for which trees, said as relations and apart from the reader. The terminals come first: which tokens
are literals, types and operators. Each relation behind them is one production; operators group to the left by the shape
of the productions. Trees of the grammar have no places: what stands where in a source is not its matter, and `unplaced`
takes the places out of a tree. That the tables of the reader list the same terminals is shown beside them.
-/

namespace Offside

/-- No place. -/
def Location.blank : Location :=
  ⟨⟨0, 0⟩, 0⟩

def Declaration.unplaced (d : Declaration) : Declaration :=
  { d with place := .blank }

mutual

def Stmt.unplaced : Stmt → Stmt
  | .assign _ target value => .assign .blank target value
  | .branch _ chain => .branch .blank chain.unplaced
  | .count _ counter first last body => .count .blank counter first last (Stmt.unplacedAll body)
  | .loopWhile _ condition body => .loopWhile .blank condition (Stmt.unplacedAll body)
  | .loopUntil _ condition body => .loopUntil .blank condition (Stmt.unplacedAll body)
  | .call _ function arguments => .call .blank function arguments

def Chain.unplaced : Chain → Chain
  | .last condition body => .last condition (Stmt.unplacedAll body)
  | .link condition body next => .link condition (Stmt.unplacedAll body) next.unplaced

def Stmt.unplacedAll : List Stmt → List Stmt
  | [] => []
  | s :: ss => s.unplaced :: Stmt.unplacedAll ss

end

def Body.unplaced : Body → Body
  | .user statements => .user (Stmt.unplacedAll statements)
  | .builtin b => .builtin b

def Function.unplaced (f : Function) : Function where
  name := f.name
  parameters := f.parameters.map Declaration.unplaced
  locals := f.locals.map Declaration.unplaced
  body := f.body.unplaced
  place := .blank

def Program.unplaced (p : Program) : Program :=
  ⟨p.functions.map Function.unplaced⟩

namespace Grammar

open Parse

/-! ### Terminals -/

/-- The tokens that are literals by themselves. An integer has no sign here, and its magnitude is below that of the least
integer. -/
inductive IsLiteralToken : Token → Literal → Prop where
  | integer {n : Nat} (h : n < magnitudeLimit) : IsLiteralToken (.integer n) (.integer (.ofNat n))
  | real (x : Float32) : IsLiteralToken (.real x) (.real x)
  | string (s : String) : IsLiteralToken (.string s) (.string s)
  | character (c : Char) : IsLiteralToken (.character c) (.character c)
  | true_ : IsLiteralToken (.keyword .true_) (.boolean true)
  | false_ : IsLiteralToken (.keyword .false_) (.boolean false)

inductive IsScalar : Token → DataType → Prop where
  | integer : IsScalar (.keyword .integer) .integer
  | real : IsScalar (.keyword .real) .real
  | string : IsScalar (.keyword .string) .string
  | character : IsScalar (.keyword .character) .character
  | boolean : IsScalar (.keyword .boolean) .boolean

inductive IsMultiplicative : Token → Arithmetic → Prop where
  | star : IsMultiplicative (.mark .star) .multiply
  | slash : IsMultiplicative (.mark .slash) .divide
  | percent : IsMultiplicative (.mark .percent) .modulo

inductive IsAdditive : Token → Arithmetic → Prop where
  | plus : IsAdditive (.mark .plus) .add
  | minus : IsAdditive (.mark .minus) .subtract

/-- The tokens between two sides that are compared. One sign of equality and two mean the same. -/
inductive IsComparator : Token → Comparison → Prop where
  | equal : IsComparator (.mark .equal) .equal
  | equalEqual : IsComparator (.mark .equalEqual) .equal
  | notEqual : IsComparator (.mark .notEqual) .notEqual
  | less : IsComparator (.mark .less) .less
  | lessEqual : IsComparator (.mark .lessEqual) .lessEqual
  | greater : IsComparator (.mark .greater) .greater
  | greaterEqual : IsComparator (.mark .greaterEqual) .greaterEqual

section

variable {t : Token} {type : DataType} {op : Arithmetic}

theorem literalOf?_integer {n : Nat} {l : Literal} :
    literalOf? (.integer n) = some l ↔ n < magnitudeLimit ∧ l = .integer (.ofNat n) := by
  change (if n < magnitudeLimit then some (Literal.integer (.ofNat n)) else none) = some l ↔ _
  simp [eq_comm]

theorem literalOf?_eq_some {l : Literal} : literalOf? t = some l ↔ IsLiteralToken t l := by
  constructor
  · intro h
    cases t with
    | integer n =>
      obtain ⟨hn, rfl⟩ := literalOf?_integer.mp h
      exact .integer hn
    | real x =>
      cases h
      exact .real x
    | string s =>
      cases h
      exact .string s
    | character c =>
      cases h
      exact .character c
    | keyword word => cases word <;> cases h <;> constructor
    | _ => cases h
  · rintro ⟨⟩
    case integer hn => exact literalOf?_integer.mpr ⟨hn, rfl⟩
    all_goals rfl

theorem scalarType?_eq_some : scalarType? t = some type ↔ IsScalar t type := by
  constructor
  · intro h
    cases t with
    | keyword word => cases word <;> cases h <;> constructor
    | _ => cases h
  · rintro ⟨⟩ <;> rfl

theorem multiplicativeOf?_eq_some : multiplicativeOf? t = some op ↔ IsMultiplicative t op := by
  constructor
  · intro h
    cases t with
    | mark sign => cases sign <;> cases h <;> constructor
    | _ => cases h
  · rintro ⟨⟩ <;> rfl

theorem additiveOf?_eq_some : additiveOf? t = some op ↔ IsAdditive t op := by
  constructor
  · intro h
    cases t with
    | mark sign => cases sign <;> cases h <;> constructor
    | _ => cases h
  · rintro ⟨⟩ <;> rfl

theorem comparisonOf?_eq_some {op : Comparison} : comparisonOf? t = some op ↔ IsComparator t op := by
  constructor
  · intro h
    cases t with
    | mark sign => cases sign <;> cases h <;> constructor
    | _ => cases h
  · rintro ⟨⟩ <;> rfl

/-- The magnitude of the least integer is no literal without its sign. -/
theorem IsLiteralToken.ne_magnitudeLimit {l : Literal} (h : IsLiteralToken t l) : t ≠ .integer magnitudeLimit := by
  rintro rfl
  cases h with
  | integer hn => exact Nat.lt_irrefl _ hn

end

/-! ### Productions -/

inductive IsLiteral : List Token → Literal → Prop where
  | plain {t : Token} {l : Literal} (h : IsLiteralToken t l) : IsLiteral [t] l
  | least : IsLiteral [.mark .minus, .integer magnitudeLimit] (.integer Int32.minValue)
  | negated {t : Token} {l m : Literal} (h : IsLiteralToken t l) (hm : l.negate? = some m) :
      IsLiteral [.mark .minus, t] m

inductive IsType : List Token → DataType → Prop where
  | scalar {t : Token} {type : DataType} (h : IsScalar t type) : IsType [t] type
  | array {t : Token} {type : DataType} (h : IsScalar t type) :
      IsType [.keyword .array, .keyword .of_, t] (.array type)

inductive IsRange : List Token → Option Range → Prop where
  | none : IsRange [] none
  | limits {ts us : List Token} {low high : Literal} (hlow : IsLiteral ts low) (hhigh : IsLiteral us high) :
      IsRange (.keyword .from_ :: ts ++ .keyword .to_ :: us) (some ⟨low, high⟩)

/-- The levels of precedence, from the tightest on. -/
inductive Level where
  | factor | product | sum

inductive IsExpr : Level → List Token → Expr → Prop where
  | literal {t : Token} {l : Literal} (h : IsLiteralToken t l) : IsExpr .factor [t] (.literal l)
  | least : IsExpr .factor [.mark .minus, .integer magnitudeLimit] (.literal (.integer Int32.minValue))
  | named (name : String) : IsExpr .factor [.name name] (.named name)
  | element (name : String) {ts : List Token} {index : Expr} (h : IsExpr .sum ts index) :
      IsExpr .factor (.name name :: .mark .openBracket :: ts ++ [.mark .closeBracket]) (.element name index)
  | negate {ts : List Token} {e : Expr} (h : IsExpr .factor ts e) :
      IsExpr .factor (.mark .minus :: ts) (.negate e)
  | enclosed {ts : List Token} {e : Expr} (h : IsExpr .sum ts e) :
      IsExpr .factor (.mark .openParen :: ts ++ [.mark .closeParen]) e
  | ofFactor {ts : List Token} {e : Expr} (h : IsExpr .factor ts e) : IsExpr .product ts e
  | times {ts us : List Token} {l r : Expr} {t : Token} {op : Arithmetic} (hl : IsExpr .product ts l)
      (ht : IsMultiplicative t op) (hr : IsExpr .factor us r) :
      IsExpr .product (ts ++ t :: us) (.arithmetic op l r)
  | ofProduct {ts : List Token} {e : Expr} (h : IsExpr .product ts e) : IsExpr .sum ts e
  | plus {ts us : List Token} {l r : Expr} {t : Token} {op : Arithmetic} (hl : IsExpr .sum ts l)
      (ht : IsAdditive t op) (hr : IsExpr .product us r) :
      IsExpr .sum (ts ++ t :: us) (.arithmetic op l r)

inductive IsComparison : List Token → Expr → Prop where
  | ofSum {ts : List Token} {e : Expr} (h : IsExpr .sum ts e) : IsComparison ts e
  | compare {ts us : List Token} {l r : Expr} {t : Token} {op : Comparison} (hl : IsExpr .sum ts l)
      (ht : IsComparator t op) (hr : IsExpr .sum us r) :
      IsComparison (ts ++ t :: us) (.compare op l r)

inductive IsArgument : List Token → Argument → Prop where
  | value {ts : List Token} {e : Expr} (h : IsComparison ts e) : IsArgument ts ⟨e, false⟩
  | place {ts : List Token} {target : Target} (h : IsComparison ts target.toExpr) :
      IsArgument (.keyword .var :: ts) ⟨target.toExpr, true⟩

/-- One or more arguments. -/
inductive IsArguments : List Token → List Argument → Prop where
  | one {ts : List Token} {a : Argument} (h : IsArgument ts a) : IsArguments ts [a]
  | more {ts us : List Token} {a : Argument} {as : List Argument} (h : IsArgument ts a)
      (hs : IsArguments us as) : IsArguments (ts ++ .mark .comma :: us) (a :: as)

/-- What stands between the name of a function and the end of the line. -/
inductive IsCall : List Token → List Argument → Prop where
  | none : IsCall [] []
  | bare {ts : List Token} {as : List Argument} (h : IsArguments ts as) : IsCall ts as
  | enclosedNone : IsCall [.mark .openParen, .mark .closeParen] []
  | enclosed {ts : List Token} {as : List Argument} (h : IsArguments ts as) :
      IsCall (.mark .openParen :: ts ++ [.mark .closeParen]) as

inductive IsTarget : List Token → Target → Prop where
  | named (name : String) : IsTarget [.name name] (.named name)
  | element (name : String) {ts : List Token} {index : Expr} (h : IsExpr .sum ts index) :
      IsTarget (.name name :: .mark .openBracket :: ts ++ [.mark .closeBracket]) (.element name index)

mutual

inductive IsStmt (callable : String → Bool) : List Token → Stmt → Prop where
  | assign {ts us : List Token} {target : Target} {value : Expr} (hname : callable target.name = false)
      (htarget : IsTarget ts target) (hvalue : IsComparison us value) :
      IsStmt callable (ts ++ .mark .assign :: us ++ [.newline]) (.assign .blank target value)
  | call {name : String} {ts : List Token} {arguments : List Argument} (hname : callable name = true)
      (h : IsCall ts arguments) :
      IsStmt callable (.name name :: ts ++ [.newline]) (.call .blank name arguments)
  | branch {ts : List Token} {chain : Chain} (h : IsChain callable ts chain) :
      IsStmt callable (.keyword .if_ :: ts) (.branch .blank chain)
  | count (counter : String) {ts us vs : List Token} {first last : Expr} {body : List Stmt}
      (hfirst : IsExpr .sum ts first) (hlast : IsExpr .sum us last) (hbody : IsBlock callable vs body) :
      IsStmt callable (.keyword .for_ :: .name counter :: .keyword .from_ :: ts ++ .keyword .to_ :: us ++ vs)
        (.count .blank counter first last body)
  | loopWhile {ts us : List Token} {condition : Expr} {body : List Stmt} (h : IsComparison ts condition)
      (hbody : IsBlock callable us body) :
      IsStmt callable (.keyword .while_ :: ts ++ us) (.loopWhile .blank condition body)
  | loopUntil {ts us : List Token} {condition : Expr} {body : List Stmt} (h : IsComparison ts condition)
      (hbody : IsBlock callable us body) :
      IsStmt callable (.keyword .repeat_ :: .keyword .until_ :: ts ++ us) (.loopUntil .blank condition body)

/-- The links of a branching statement, behind the word that opens the first of them. -/
inductive IsChain (callable : String → Bool) : List Token → Chain → Prop where
  | last {ts us : List Token} {condition : Expr} {body : List Stmt} (h : IsComparison ts condition)
      (hbody : IsBlock callable us body) :
      IsChain callable (ts ++ .keyword .then_ :: us) (.last (some condition) body)
  | otherwise {ts us vs : List Token} {condition : Expr} {body other : List Stmt} (h : IsComparison ts condition)
      (hbody : IsBlock callable us body) (hother : IsBlock callable vs other) :
      IsChain callable (ts ++ .keyword .then_ :: us ++ .keyword .else_ :: vs)
        (.link (some condition) body (.last none other))
  | elsif {ts us vs : List Token} {condition : Expr} {body : List Stmt} {next : Chain}
      (h : IsComparison ts condition) (hbody : IsBlock callable us body) (hnext : IsChain callable vs next) :
      IsChain callable (ts ++ .keyword .then_ :: us ++ .keyword .elsif :: vs) (.link (some condition) body next)

inductive IsBlock (callable : String → Bool) : List Token → List Stmt → Prop where
  | mk {ts : List Token} {body : List Stmt} (h : IsStmts callable ts body) :
      IsBlock callable (.newline :: .indent :: ts ++ [.dedent]) body

inductive IsStmts (callable : String → Bool) : List Token → List Stmt → Prop where
  | nil : IsStmts callable [] []
  | cons {ts us : List Token} {s : Stmt} {ss : List Stmt} (h : IsStmt callable ts s)
      (hs : IsStmts callable us ss) : IsStmts callable (ts ++ us) (s :: ss)

end

/-- One or more names. -/
inductive IsNames : List Token → List String → Prop where
  | one (name : String) : IsNames [.name name] [name]
  | more (name : String) {ts : List Token} {names : List String} (h : IsNames ts names) :
      IsNames (.name name :: .mark .comma :: ts) (name :: names)

/-- The word that may stand in front of parameters. -/
def varTokens (mutable : Bool) : List Token :=
  if mutable then [.keyword .var] else []

inductive IsGroup : List Token → List Declaration → Prop where
  | mk (mutable : Bool) {ts us : List Token} {names : List String} {type : DataType} (hnames : IsNames ts names)
      (htype : IsType us type) :
      IsGroup (varTokens mutable ++ ts ++ .mark .colon :: us)
        (names.map fun name => .parameter name type mutable .blank)

inductive IsParameters : List Token → List Declaration → Prop where
  | one {ts : List Token} {ds : List Declaration} (h : IsGroup ts ds) : IsParameters ts ds
  | more {ts us : List Token} {ds es : List Declaration} {t : Token} (h : IsGroup ts ds)
      (ht : t = .mark .semicolon ∨ t = .mark .comma) (hs : IsParameters us es) :
      IsParameters (ts ++ t :: us) (ds ++ es)

/-- Parameters between their parentheses. -/
inductive IsParameterList : List Token → List Declaration → Prop where
  | none : IsParameterList [.mark .openParen, .mark .closeParen] []
  | some {ts : List Token} {ds : List Declaration} (h : IsParameters ts ds) :
      IsParameterList (.mark .openParen :: ts ++ [.mark .closeParen]) ds

/-- One or more constants. -/
inductive IsConstants : List Token → List Declaration → Prop where
  | one (name : String) {ts : List Token} {value : Literal} (h : IsLiteral ts value) :
      IsConstants (.name name :: .mark .equal :: ts) [.constant name value .blank]
  | more (name : String) {ts us : List Token} {value : Literal} {ds : List Declaration} (h : IsLiteral ts value)
      (hs : IsConstants us ds) :
      IsConstants (.name name :: .mark .equal :: ts ++ .mark .comma :: us)
        (.constant name value .blank :: ds)

/-- A line of a section, with its end. -/
inductive IsLine : Section → List Token → List Declaration → Prop where
  | constants {ts : List Token} {ds : List Declaration} (h : IsConstants ts ds) :
      IsLine .constants (ts ++ [.newline]) ds
  | const {ts : List Token} {ds : List Declaration} (h : IsConstants ts ds) :
      IsLine .constants (.keyword .const :: ts ++ [.newline]) ds
  | value (name : String) {ts : List Token} {value : Literal} (h : IsLiteral ts value) :
      IsLine .variables_ (.name name :: .mark .equal :: ts ++ [.newline]) [.ofValue name value .blank]
  | typed {ts us vs : List Token} {names : List String} {type : DataType} {range : Option Range}
      (hnames : IsNames ts names) (htype : IsType us type) (hrange : IsRange vs range)
      (hcheck : ∀ name ∈ names, Range.check name type range = .ok ()) :
      IsLine .variables_ (ts ++ .mark .colon :: us ++ vs ++ [.newline])
        (names.map fun name => ⟨name, type, true, none, range, .blank⟩)

/-- One or more lines. -/
inductive IsLines (kind : Section) : List Token → List Declaration → Prop where
  | one {ts : List Token} {ds : List Declaration} (h : IsLine kind ts ds) : IsLines kind ts ds
  | more {ts us : List Token} {ds es : List Declaration} (h : IsLine kind ts ds) (hs : IsLines kind us es) :
      IsLines kind (ts ++ us) (ds ++ es)

/-- The word that opens a section. -/
def word : Section → Token
  | .constants => .keyword .constants
  | .variables_ => .keyword .variables_

inductive IsSection (kind : Section) : List Token → List Declaration → Prop where
  | line {ts : List Token} {ds : List Declaration} (h : IsLine kind ts ds) : IsSection kind (word kind :: ts) ds
  | block {ts : List Token} {ds : List Declaration} (h : IsLines kind ts ds) :
      IsSection kind (word kind :: .newline :: .indent :: ts ++ [.dedent]) ds

/-- The sections and the statements of a function. -/
inductive IsBody (callable : String → Bool) : List Token → List Declaration → List Stmt → Prop where
  | declare {kind : Section} {ts us : List Token} {ds es : List Declaration} {body : List Stmt}
      (h : IsSection kind ts ds) (hs : IsBody callable us es body) :
      IsBody callable (ts ++ us) (ds ++ es) body
  | run {ts : List Token} {body : List Stmt} (h : IsStmts callable ts body) : IsBody callable ts [] body

/-- A function, all names of which are different. -/
inductive IsFunction (callable : String → Bool) : List Token → Function → Prop where
  | mk (name : String) {ts us : List Token} {parameters locals : List Declaration} {body : List Stmt}
      (hparameters : IsParameterList ts parameters) (hbody : IsBody callable us locals body)
      (distinct : ((parameters ++ locals).map Declaration.name).Nodup) :
      IsFunction callable
        (.keyword .define :: .name name :: ts ++ .newline :: .indent :: us ++ [.dedent])
        ⟨name, parameters, locals, .user body, .blank⟩

inductive IsFunctions (callable : String → Bool) : List Token → List Function → Prop where
  | nil : IsFunctions callable [] []
  | cons {ts us : List Token} {f : Function} {fs : List Function} (h : IsFunction callable ts f)
      (hs : IsFunctions callable us fs) : IsFunctions callable (ts ++ us) (f :: fs)

end Grammar

end Offside
