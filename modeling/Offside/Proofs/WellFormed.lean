import Offside.Proofs.ParseProgram
import Offside.Proofs.PrintStmt

/-!
# Well-formed programs

What holds of every program that is read from a source, and of few of the trees that could be built by hand.
Comparisons stand only at the root of an expression, an integer in an expression has no sign, blocks are not empty,
only the last link of a chain may do without a condition, and declarations suit their kind. Nothing in this depends on
places, so all of it is shown of the trees of the grammar.
-/

namespace Offside

open Grammar Parse

/-! ### Expressions -/

/-- An integer in an expression has no sign, except for the least, which has no magnitude of its own. -/
def Literal.IsUnsigned : Literal → Prop
  | .integer n => 0 ≤ n ∨ n = Int32.minValue
  | _ => True

namespace Expr

/-- An expression without comparisons. -/
def IsOperand : Expr → Prop
  | .literal value => value.IsUnsigned
  | .named _ => True
  | .element _ index => index.IsOperand
  | .negate e => e.IsOperand
  | .arithmetic _ l r => l.IsOperand ∧ r.IsOperand
  | .compare _ _ _ => False

/-- An expression with a comparison at its root or none at all. -/
def IsComplete : Expr → Prop
  | .compare _ l r => l.IsOperand ∧ r.IsOperand
  | e => e.IsOperand

theorem IsOperand.isComplete {e : Expr} (h : e.IsOperand) : e.IsComplete := by
  cases e with
  | compare => cases h
  | _ => exact h

end Expr

/-- An argument that is marked with `var` is a place. -/
structure Argument.WellFormed (a : Argument) : Prop where
  value : a.value.IsComplete
  place : a.byReference = true → ∃ target : Target, a.value = target.toExpr

theorem isUnsigned_of_isLiteralToken {t : Token} {l : Literal} (h : IsLiteralToken t l) : l.IsUnsigned := by
  cases h with
  | integer hn =>
    refine .inl (Int32.le_iff_toInt_le.mpr ?_)
    rw [Int32.toInt_ofNat_of_lt hn]
    exact Int.natCast_nonneg _
  | _ => trivial

theorem isOperand_of_isExpr {level : Level} {ts : List Token} {e : Expr} (h : IsExpr level ts e) : e.IsOperand := by
  induction h with
  | literal h => exact isUnsigned_of_isLiteralToken h
  | least => exact .inr rfl
  | named => trivial
  | element _ _ ih | negate _ ih | enclosed _ ih | ofFactor _ ih | ofProduct _ ih => exact ih
  | times _ _ _ hl hr | plus _ _ _ hl hr => exact ⟨hl, hr⟩

theorem isComplete_of_isComparison {ts : List Token} {e : Expr} (h : IsComparison ts e) : e.IsComplete := by
  cases h with
  | ofSum h => exact (isOperand_of_isExpr h).isComplete
  | compare hl _ hr => exact ⟨isOperand_of_isExpr hl, isOperand_of_isExpr hr⟩

theorem isOperand_of_isTarget {ts : List Token} {target : Target} (h : IsTarget ts target) :
    target.toExpr.IsOperand := by
  cases h with
  | named => trivial
  | element _ h =>
    have hindex := isOperand_of_isExpr h
    exact hindex

theorem Argument.wellFormed_of_isArgument {ts : List Token} {a : Argument} (h : IsArgument ts a) : a.WellFormed := by
  cases h with
  | value h => exact ⟨isComplete_of_isComparison h, by simp⟩
  | place h => exact ⟨isComplete_of_isComparison h, fun _ => ⟨_, rfl⟩⟩

theorem Argument.wellFormed_of_isArguments {ts : List Token} {arguments : List Argument}
    (h : IsArguments ts arguments) : ∀ a ∈ arguments, a.WellFormed := by
  induction h with
  | one h => exact List.forall_mem_singleton.mpr (wellFormed_of_isArgument h)
  | more h _ ih => exact List.forall_mem_cons.mpr ⟨wellFormed_of_isArgument h, ih⟩

theorem Argument.wellFormed_of_isCall {ts : List Token} {arguments : List Argument} (h : IsCall ts arguments) :
    ∀ a ∈ arguments, a.WellFormed := by
  cases h with
  | none | enclosedNone => exact List.forall_mem_nil _
  | bare h | enclosed h => exact wellFormed_of_isArguments h

/-! ### Statements -/

mutual

def Stmt.WellFormed : Stmt → Prop
  | .assign _ target value => target.toExpr.IsOperand ∧ value.IsComplete
  | .branch _ chain => chain.condition ≠ none ∧ chain.WellFormed
  | .count _ _ first last body => (first.IsOperand ∧ last.IsOperand) ∧ body ≠ [] ∧ Stmt.WellFormedAll body
  | .loopWhile _ condition body => condition.IsComplete ∧ body ≠ [] ∧ Stmt.WellFormedAll body
  | .loopUntil _ condition body => condition.IsComplete ∧ body ≠ [] ∧ Stmt.WellFormedAll body
  | .call _ _ arguments => ∀ a ∈ arguments, a.WellFormed

/-- A link that is not the last has a condition. -/
def Chain.WellFormed : Chain → Prop
  | .last condition body => (∀ c ∈ condition, c.IsComplete) ∧ body ≠ [] ∧ Stmt.WellFormedAll body
  | .link condition body next =>
    condition ≠ none ∧ (∀ c ∈ condition, c.IsComplete) ∧ (body ≠ [] ∧ Stmt.WellFormedAll body) ∧ next.WellFormed

def Stmt.WellFormedAll : List Stmt → Prop
  | [] => True
  | s :: ss => s.WellFormed ∧ Stmt.WellFormedAll ss

end

theorem Stmt.unplacedAll_eq_nil {body : List Stmt} : Stmt.unplacedAll body = [] ↔ body = [] := by
  cases body <;> simp [Stmt.unplacedAll]

theorem Chain.condition_unplaced (chain : Chain) : chain.unplaced.condition = chain.condition := by
  cases chain <;> rfl

mutual

theorem Stmt.wellFormed_unplaced : ∀ s : Stmt, s.unplaced.WellFormed ↔ s.WellFormed
  | .assign .. | .call .. => .rfl
  | .branch _ chain => by
    rw [Stmt.unplaced, Stmt.WellFormed, Stmt.WellFormed, Chain.condition_unplaced, Chain.wellFormed_unplaced]
  | .count _ _ _ _ body | .loopWhile _ _ body | .loopUntil _ _ body => by
    rw [Stmt.unplaced, Stmt.WellFormed, Stmt.WellFormed, Ne, Stmt.unplacedAll_eq_nil, Stmt.wellFormedAll_unplaced]

theorem Chain.wellFormed_unplaced : ∀ chain : Chain, chain.unplaced.WellFormed ↔ chain.WellFormed
  | .last _ body => by
    rw [Chain.unplaced, Chain.WellFormed, Chain.WellFormed, Ne, Stmt.unplacedAll_eq_nil, Stmt.wellFormedAll_unplaced]
  | .link _ body next => by
    rw [Chain.unplaced, Chain.WellFormed, Chain.WellFormed, Ne, Ne, Stmt.unplacedAll_eq_nil,
      Stmt.wellFormedAll_unplaced, Chain.wellFormed_unplaced]

theorem Stmt.wellFormedAll_unplaced :
    ∀ body : List Stmt, Stmt.WellFormedAll (Stmt.unplacedAll body) ↔ Stmt.WellFormedAll body
  | [] => .rfl
  | s :: ss => by
    rw [Stmt.unplacedAll, Stmt.WellFormedAll, Stmt.WellFormedAll, Stmt.wellFormed_unplaced, Stmt.wellFormedAll_unplaced]

end

variable {callable : String → Bool}

mutual

/-- By the productions. That blocks are not empty is not in them: it comes from the layout of the source. -/
theorem Stmt.wellFormed_of_isStmt {ts : List Token} {s : Stmt} : IsStmt callable ts s → Sourced ts → s.WellFormed
  | .assign _ htarget hvalue, _ => ⟨isOperand_of_isTarget htarget, isComplete_of_isComparison hvalue⟩
  | .call _ hcall, _ => Argument.wellFormed_of_isCall hcall
  | .branch hchain, hs => Chain.wellFormed_of_isChain hchain (hs.part ⟨[.keyword .if_], [], by simp⟩)
  | .count _ hfirst hlast hbody, hs =>
    ⟨⟨isOperand_of_isExpr hfirst, isOperand_of_isExpr hlast⟩, Stmt.wellFormed_of_isBlock hbody hs.right⟩
  | .loopWhile h hbody, hs => ⟨isComplete_of_isComparison h, Stmt.wellFormed_of_isBlock hbody hs.right⟩
  | .loopUntil h hbody, hs => ⟨isComplete_of_isComparison h, Stmt.wellFormed_of_isBlock hbody hs.right⟩

theorem Chain.wellFormed_of_isChain {ts : List Token} {chain : Chain} :
    IsChain callable ts chain → Sourced ts → chain.condition ≠ none ∧ chain.WellFormed
  | .last h hbody, hs => by
    have hblock := Stmt.wellFormed_of_isBlock hbody (hs.right.part ⟨[.keyword .then_], [], by simp⟩)
    exact ⟨Option.some_ne_none _, by simpa using isComplete_of_isComparison h, hblock⟩
  | @IsChain.otherwise _ _ _ _ condition _ _ h hbody hother, hs => by
    have hblock := Stmt.wellFormed_of_isBlock hbody (hs.left.right.part ⟨[.keyword .then_], [], by simp⟩)
    have hlast := Stmt.wellFormed_of_isBlock hother (hs.right.part ⟨[.keyword .else_], [], by simp⟩)
    have hcondition := Option.some_ne_none condition
    exact ⟨hcondition, hcondition, by simpa using isComplete_of_isComparison h, hblock, by simp, hlast⟩
  | @IsChain.elsif _ _ _ _ condition _ _ h hbody hnext, hs => by
    have hblock := Stmt.wellFormed_of_isBlock hbody (hs.left.right.part ⟨[.keyword .then_], [], by simp⟩)
    have hchain := Chain.wellFormed_of_isChain hnext (hs.right.part ⟨[.keyword .elsif], [], by simp⟩)
    have hcondition := Option.some_ne_none condition
    exact ⟨hcondition, hcondition, by simpa using isComplete_of_isComparison h, hblock, hchain.2⟩

theorem Stmt.wellFormed_of_isBlock {ts : List Token} {body : List Stmt} :
    IsBlock callable ts body → Sourced ts → body ≠ [] ∧ Stmt.WellFormedAll body
  | .mk h, hs => ⟨body_ne_nil hs h, Stmt.wellFormed_of_isStmts h (hs.part ⟨[.newline, .indent], [.dedent], rfl⟩)⟩

theorem Stmt.wellFormed_of_isStmts {ts : List Token} {ss : List Stmt} :
    IsStmts callable ts ss → Sourced ts → Stmt.WellFormedAll ss
  | .nil, _ => trivial
  | .cons h hmore, hs => ⟨Stmt.wellFormed_of_isStmt h hs.left, Stmt.wellFormed_of_isStmts hmore hs.right⟩

end

/-! ### Declarations -/

/-- No array of arrays. -/
def DataType.IsFlat (type : DataType) : Prop :=
  ∀ element, type = .array element → element.isArray = false

/-- A parameter has neither a first value nor a range. -/
structure Declaration.IsParameter (d : Declaration) : Prop where
  init : d.init = none
  range : d.range = none
  flat : d.type.IsFlat

/-- A constant has a value, a value goes with its own type and without a range, and a declaration without a value has a
range that suits its type. An array has bounds. -/
structure Declaration.IsLocal (d : Declaration) : Prop where
  constant : d.mutable = false → d.init ≠ none
  init : ∀ value, d.init = some value → value.type = d.type ∧ d.range = none
  range : d.init = none → Range.check d.name d.type d.range = .ok ()
  bounds : ∀ element, d.type = .array element →
    ∃ low high, d.range = some ⟨.integer low, .integer high⟩ ∧ low ≤ high ∧ Range.extent low high ≤ 2 ^ 20
  flat : d.type.IsFlat

theorem Literal.type_ne_array (l : Literal) (element : DataType) : l.type ≠ .array element := by
  cases l <;> simp [Literal.type]

namespace Range

theorem checkIntegers_eq_ok {name : String} {type : DataType} {low high : Int32} :
    checkIntegers name type low high = .ok () ↔ low ≤ high ∧
      (type = .string → 0 ≤ low.toInt ∧ low.toInt ≤ extentLimit) ∧
      (type.isArray = true → extent low high ≤ extentLimit) := by
  have hordered : ¬ high < low ↔ low ≤ high := Int32.not_lt
  have hlow : ¬ low < 0 ↔ 0 ≤ low.toInt := by rw [Int32.not_lt, Int32.le_iff_toInt_le, Int32.toInt_zero]
  unfold checkIntegers
  cases type <;> grind [DataType.isArray]

theorem eq_of_integers? {r : Range} {low high : Int32} (h : r.integers? = some (low, high)) :
    r = ⟨.integer low, .integer high⟩ := by
  unfold integers? at h
  split at h
  · rename_i hlow hhigh
    cases h
    obtain ⟨l, u⟩ := r
    rw [← hlow, ← hhigh]
  · cases h

/-- A range for one of these types has integers as its limits. -/
theorem check_integers {name : String} {type : DataType} {r : Range} (h : check name type (some r) = .ok ())
    (htype : type = .integer ∨ type = .string ∨ type.isArray = true) :
    ∃ low high, r = ⟨.integer low, .integer high⟩ ∧ checkIntegers name type low high = .ok () := by
  cases hr : r.integers? with
  | none => cases type <;> simp [check, hr, DataType.isArray] at h htype
  | some limits =>
    refine ⟨limits.1, limits.2, eq_of_integers? hr, ?_⟩
    cases type with
    | integer | string | array => simpa [check, hr] using h
    | _ => simp [DataType.isArray] at htype

theorem check_array {name : String} {element : DataType} {range : Option Range}
    (h : check name (.array element) range = .ok ()) :
    ∃ low high, range = some ⟨.integer low, .integer high⟩ ∧ low ≤ high ∧ extent low high ≤ 2 ^ 20 := by
  cases range with
  | none => cases h
  | some r =>
    obtain ⟨low, high, rfl, hlimits⟩ := check_integers h (.inr (.inr rfl))
    obtain ⟨hordered, -, hextent⟩ := checkIntegers_eq_ok.mp hlimits
    exact ⟨low, high, rfl, hordered, hextent rfl⟩

end Range

namespace Declaration

theorem isLocal_ofLiteral (name : String) (value : Literal) (mutable : Bool) (place : Location) :
    IsLocal ⟨name, value.type, mutable, some value, none, place⟩ where
  constant := by simp
  init := by
    intro own hown
    cases hown
    exact ⟨rfl, rfl⟩
  range := by simp
  bounds := fun element htype => absurd htype (value.type_ne_array element)
  flat := fun element htype => absurd htype (value.type_ne_array element)

theorem isLocal_ofRange {name : String} {type : DataType} {range : Option Range} (place : Location)
    (hflat : type.IsFlat) (hcheck : Range.check name type range = .ok ()) :
    IsLocal ⟨name, type, true, none, range, place⟩ where
  constant := by simp
  init := by simp
  range := fun _ => hcheck
  bounds := by
    rintro element rfl
    exact Range.check_array hcheck
  flat := hflat

theorem isLocal_unplaced {d : Declaration} (h : d.unplaced.IsLocal) : d.IsLocal :=
  ⟨h.constant, h.init, h.range, h.bounds, h.flat⟩

theorem isParameter_unplaced {d : Declaration} (h : d.unplaced.IsParameter) : d.IsParameter :=
  ⟨h.init, h.range, h.flat⟩

theorem isArray_of_isScalar {t : Token} {type : DataType} (h : IsScalar t type) : type.isArray = false := by
  cases h <;> rfl

theorem isFlat_of_isType {ts : List Token} {type : DataType} (h : IsType ts type) : type.IsFlat := by
  rintro element rfl
  cases h with
  | scalar h => cases isArray_of_isScalar h
  | array h => exact isArray_of_isScalar h

theorem isParameter_of_isGroup {ts : List Token} {ds : List Declaration} (h : IsGroup ts ds) :
    ∀ d ∈ ds, d.IsParameter := by
  cases h with
  | mk mutable hnames htype =>
    intro d hd
    obtain ⟨name, -, rfl⟩ := List.mem_map.mp hd
    exact ⟨rfl, rfl, isFlat_of_isType htype⟩

theorem isParameter_of_isParameters {ts : List Token} {ds : List Declaration} (h : IsParameters ts ds) :
    ∀ d ∈ ds, d.IsParameter := by
  induction h with
  | one h => exact isParameter_of_isGroup h
  | more h _ _ ih => exact List.forall_mem_append.mpr ⟨isParameter_of_isGroup h, ih⟩

theorem isParameter_of_isParameterList {ts : List Token} {ds : List Declaration} (h : IsParameterList ts ds) :
    ∀ d ∈ ds, d.IsParameter := by
  cases h with
  | none => exact List.forall_mem_nil _
  | some h => exact isParameter_of_isParameters h

theorem isLocal_of_isConstants {ts : List Token} {ds : List Declaration} (h : IsConstants ts ds) :
    ∀ d ∈ ds, d.IsLocal := by
  induction h with
  | one name h => exact List.forall_mem_singleton.mpr (isLocal_ofLiteral name _ false .blank)
  | more name h _ ih => exact List.forall_mem_cons.mpr ⟨isLocal_ofLiteral name _ false .blank, ih⟩

theorem isLocal_of_isLine {kind : Section} {ts : List Token} {ds : List Declaration} (h : IsLine kind ts ds) :
    ∀ d ∈ ds, d.IsLocal := by
  cases h with
  | constants h | const h => exact isLocal_of_isConstants h
  | value name h => exact List.forall_mem_singleton.mpr (isLocal_ofLiteral name _ true .blank)
  | typed hnames htype hrange hcheck =>
    intro d hd
    obtain ⟨name, hname, rfl⟩ := List.mem_map.mp hd
    exact isLocal_ofRange .blank (isFlat_of_isType htype) (hcheck name hname)

theorem isLocal_of_isLines {kind : Section} {ts : List Token} {ds : List Declaration} (h : IsLines kind ts ds) :
    ∀ d ∈ ds, d.IsLocal := by
  induction h with
  | one h => exact isLocal_of_isLine h
  | more h _ ih => exact List.forall_mem_append.mpr ⟨isLocal_of_isLine h, ih⟩

theorem isLocal_of_isSection {kind : Section} {ts : List Token} {ds : List Declaration} (h : IsSection kind ts ds) :
    ∀ d ∈ ds, d.IsLocal := by
  cases h with
  | line h => exact isLocal_of_isLine h
  | block h => exact isLocal_of_isLines h

end Declaration

/-! ### Functions -/

structure Function.WellFormed (f : Function) : Prop where
  distinct : ((f.parameters ++ f.locals).map Declaration.name).Nodup
  parameters : ∀ d ∈ f.parameters, d.IsParameter
  locals : ∀ d ∈ f.locals, d.IsLocal
  body : ∃ body, f.body = .user body ∧ Stmt.WellFormedAll body

theorem wellFormed_of_isBody {ts : List Token} {locals : List Declaration} {body : List Stmt}
    (h : IsBody callable ts locals body) (hs : Sourced ts) :
    (∀ d ∈ locals, d.IsLocal) ∧ Stmt.WellFormedAll body := by
  induction h with
  | declare h _ ih =>
    obtain ⟨hlocals, hbody⟩ := ih hs.right
    exact ⟨List.forall_mem_append.mpr ⟨Declaration.isLocal_of_isSection h, hlocals⟩, hbody⟩
  | run h => exact ⟨List.forall_mem_nil _, Stmt.wellFormed_of_isStmts h hs⟩

namespace Function

theorem wellFormed_of_isFunction {ts : List Token} {f : Function} (h : IsFunction callable ts f) (hs : Sourced ts) :
    f.WellFormed := by
  cases h with
  | mk name hparameters hbody distinct =>
    rename_i head inner _ _ _
    have hinner : Sourced inner := hs.part ⟨.keyword .define :: .name name :: head ++ [.newline, .indent],
      [.dedent], by simp⟩
    obtain ⟨hlocals, hstatements⟩ := wellFormed_of_isBody hbody hinner
    exact ⟨distinct, Declaration.isParameter_of_isParameterList hparameters, hlocals, _, rfl, hstatements⟩

theorem wellFormed_of_isFunctions {ts : List Token} {fs : List Function} (h : IsFunctions callable ts fs)
    (hs : Sourced ts) : ∀ f ∈ fs, f.WellFormed := by
  induction h with
  | nil => exact List.forall_mem_nil _
  | cons h _ ih => exact List.forall_mem_cons.mpr ⟨wellFormed_of_isFunction h hs.left, ih hs.right⟩

theorem wellFormed_unplaced {f : Function} (h : f.unplaced.WellFormed) : f.WellFormed where
  distinct := by
    have hdistinct := h.distinct
    simp only [unplaced, ← List.map_append, List.map_map] at hdistinct
    exact hdistinct
  parameters := fun d hd => Declaration.isParameter_unplaced (h.parameters _ (List.mem_map_of_mem hd))
  locals := fun d hd => Declaration.isLocal_unplaced (h.locals _ (List.mem_map_of_mem hd))
  body := by
    obtain ⟨body, hbody, hstatements⟩ := h.body
    rw [unplaced] at hbody
    cases hown : f.body with
    | user statements =>
      rw [hown] at hbody
      cases hbody
      exact ⟨statements, rfl, (Stmt.wellFormedAll_unplaced statements).mp hstatements⟩
    | builtin b =>
      rw [hown] at hbody
      cases hbody

end Function

/-- Every function of a program that is read from a source is well formed. -/
theorem Program.functions_wellFormed {source : String} {ls : List Lexeme} {p : Program} (hls : lexemes source = .ok ls)
    (hp : Program.ofLexemes ls = .ok p) : ∀ f ∈ p.functions, f.WellFormed := by
  intro f hf
  have hsourced := sourced_lexemes hls
  obtain ⟨hfunctions, -⟩ := Program.ofLexemes_sound hp hsourced.blocks
  exact Function.wellFormed_unplaced
    (Function.wellFormed_of_isFunctions hfunctions hsourced f.unplaced (List.mem_map_of_mem hf))

/-- A chain of two links in a loop, an array, and an integer that can only be written with its sign. -/
def tallySource : String :=
  Stmt.joinRows [
    "define tally(var n: integer)",
    "    constants least = -2147483648",
    "    variables a: array of integer from -3 to 4",
    "    for n from 0 to 5",
    "        if a[-n] = -2147483648 then",
    "            tally var a[n - 3]",
    "        else",
    "            n := n - least"]

theorem Program.functions_wellFormed_tally : ∃ ls p f, lexemes tallySource = .ok ls ∧ Program.ofLexemes ls = .ok p ∧
    f ∈ p.functions ∧ (f.parameters ++ f.locals).map Declaration.name = ["n", "least", "a"] ∧ f.WellFormed := by
  obtain ⟨ls, p, hls, hp, hnames⟩ : ∃ ls p, lexemes tallySource = .ok ls ∧ Program.ofLexemes ls = .ok p ∧
      p.functions.map (fun f => (f.parameters ++ f.locals).map Declaration.name) = [["n", "least", "a"]] :=
    exists_program (by decide +kernel)
  obtain ⟨f, hf, hnames⟩ := List.mem_map.mp (hnames ▸ List.mem_singleton_self _)
  exact ⟨ls, p, f, hls, hp, hf, hnames, Program.functions_wellFormed hls hp f hf⟩

end Offside
