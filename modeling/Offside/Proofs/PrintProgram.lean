import Offside.Proofs.ParseProgram
import Offside.Proofs.PrintStmt

/-!
# The text of a program

A program that is read from a source and written as text is read back from this text as the same program, places
apart. The text need not look like the source: every declaration has a section of its own, every operation has its
parentheses, and calls have none around their arguments.
-/

namespace Offside

open Grammar Parse Layout

/-! ### Declarations -/

/-- The literals of a declaration: its value and its limits. -/
def Declaration.literals (d : Declaration) : List Literal :=
  d.init.toList ++ (d.range.map fun r => [r.low, r.high]).getD []

/-- The keyword of a section, and whether what it declares can change. -/
def sectionWord : Section → Keyword × Bool
  | .constants => (.constants, false)
  | .variables_ => (.variables_, true)

theorem word_eq (kind : Section) : word kind = .keyword (sectionWord kind).1 := by
  cases kind <;> rfl

/-- The row of a declaration, a section by itself. -/
def Declaration.sectionRow (d : Declaration) : String :=
  (if d.mutable then "variables " else "constants ") ++ d.text

/-- A declaration whose row is a section that reads as this declaration. -/
def SectionOf (d : Declaration) : Prop :=
  ∃ kind us, Inline d.sectionRow.toList us ∧ IsSection kind (us ++ [.newline]) [d]

theorem sectionOf_line (kind : Section) {d : Declaration} {us : List Token} (hkind : d.mutable = (sectionWord kind).2)
    (h : Inline d.text.toList us) (hline : IsLine kind (us ++ [.newline]) [d]) : SectionOf d := by
  refine ⟨kind, word kind :: us, ?_, .line hline⟩
  have htext : d.sectionRow.toList = (sectionWord kind).1.spelling.toList ++ ' ' :: d.text.toList := by
    cases kind <;> simp [Declaration.sectionRow, hkind, sectionWord, Keyword.spelling]
  rw [htext, word_eq]
  exact (Inline.keyword _).spaced h

/-- A name and its value. -/
theorem inline_value {name : String} {value : Literal} (hname : Inline name.toList [.name name])
    (hvalue : value.IsPlain) : ∃ ts, IsLiteral ts value ∧
      Inline (name ++ " = " ++ value.text).toList (.name name :: .mark .equal :: ts) := by
  obtain ⟨ts, hinline, hliteral⟩ := hvalue.isLiteral
  refine ⟨ts, hliteral, ?_⟩
  simpa [Mark.spelling] using hname.operator .equal hinline

theorem Inline.typed {name : String} {type : List Char} {ts : List Token} (hname : Inline name.toList [.name name])
    (htype : Inline type ts) : Inline (name.toList ++ ':' :: ' ' :: type) (.name name :: .mark .colon :: ts) := by
  have hcolon : Inline [':'] [.mark .colon] := .token (.mark .colon) (by rintro c ⟨⟩; decide)
  simpa using (hname.append hcolon (by rintro c ⟨⟩; rfl)).spaced htype

theorem sectionOf_constant {name : String} {value : Literal} (hname : Inline name.toList [.name name])
    (hl : ∀ l ∈ (Declaration.constant name value .blank).literals, l.IsPlain) :
    SectionOf (.constant name value .blank) := by
  obtain ⟨us, hliteral, hinline⟩ :=
    inline_value hname (hl value (by simp [Declaration.literals, Declaration.constant]))
  exact sectionOf_line .constants rfl hinline (.constants (.one name hliteral))

theorem sectionOf_constants {ts : List Token} {ds : List Declaration} (h : IsConstants ts ds) (hs : Sourced ts)
    (hl : ∀ d ∈ ds, ∀ l ∈ d.literals, l.IsPlain) : ds ≠ [] ∧ ∀ d ∈ ds, SectionOf d := by
  induction h with
  | one name h =>
    refine ⟨by simp, fun d hd => ?_⟩
    obtain rfl := List.mem_singleton.mp hd
    exact sectionOf_constant (.name hs (by simp)) (hl _ hd)
  | more name h hmore ih =>
    refine ⟨by simp, fun d hd => ?_⟩
    rcases List.mem_cons.mp hd with rfl | hmem
    · exact sectionOf_constant (.name hs (by simp)) (hl _ hd)
    · exact (ih (hs.right.part ⟨[.mark .comma], [], by simp⟩) fun d hd => hl d (by simp [hd])).2 d hmem

theorem inline_range {range : Range} (hlow : range.low.IsPlain) (hhigh : range.high.IsPlain) :
    ∃ ts, Inline range.text.toList ts ∧ IsRange ts (some range) := by
  obtain ⟨ts, hinline, hliteral⟩ := hlow.isLiteral
  obtain ⟨us, hinline', hliteral'⟩ := hhigh.isLiteral
  refine ⟨_, ?_, .limits hliteral hliteral'⟩
  simpa [Range.text, Keyword.spelling] using
    (Inline.keyword .from_).spaced (hinline.spaced ((Inline.keyword .to_).spaced hinline'))

theorem sectionOf_typed {name : String} {type : DataType} {range : Option Range} {us : List Token}
    (hname : Inline name.toList [.name name]) (htype : IsType us type)
    (hcheck : Range.check name type range = .ok ())
    (hl : ∀ l ∈ (Declaration.mk name type true none range .blank).literals, l.IsPlain) :
    SectionOf ⟨name, type, true, none, range, .blank⟩ := by
  obtain ⟨us', hinline, htype'⟩ := inline_type htype
  have hcheck : ∀ n ∈ [name], Range.check n type range = .ok () := by
    intro n hn
    rw [List.mem_singleton.mp hn]
    exact hcheck
  cases range with
  | none =>
    refine sectionOf_line .variables_ rfl ?_ (.typed (.one name) htype' .none hcheck)
    simpa [Declaration.text] using hname.typed hinline
  | some range =>
    obtain ⟨vs', hrange, hisRange⟩ := inline_range (hl range.low (by simp [Declaration.literals]))
      (hl range.high (by simp [Declaration.literals]))
    refine sectionOf_line .variables_ rfl ?_ (.typed (.one name) htype' hisRange hcheck)
    simpa [Declaration.text] using hname.typed (hinline.spaced hrange)

theorem name_mem_of_isNames {ts : List Token} {all : List String} (h : IsNames ts all) :
    all ≠ [] ∧ ∀ name ∈ all, .name name ∈ ts := by
  induction h with
  | one name => simp
  | more name h ih =>
    refine ⟨by simp, fun n hn => ?_⟩
    rcases List.mem_cons.mp hn with rfl | hn
    · simp
    · simp [ih.2 n hn]

theorem sectionOf_isLine {kind : Section} {ts : List Token} {ds : List Declaration} (h : IsLine kind ts ds)
    (hs : Sourced ts) (hl : ∀ d ∈ ds, ∀ l ∈ d.literals, l.IsPlain) : ds ≠ [] ∧ ∀ d ∈ ds, SectionOf d := by
  cases h with
  | constants h => exact sectionOf_constants h hs.left hl
  | const h => exact sectionOf_constants h (hs.left.part ⟨[.keyword .const], [], by simp⟩) hl
  | value name h =>
    rename_i ts value
    refine ⟨by simp, fun d hd => ?_⟩
    obtain rfl := List.mem_singleton.mp hd
    have hname : Inline name.toList [.name name] := .name hs (by simp)
    obtain ⟨us, hliteral, hinline⟩ := inline_value hname
      (hl _ hd value (by simp [Declaration.literals, Declaration.ofValue]))
    exact sectionOf_line .variables_ rfl hinline (.value name hliteral)
  | typed hnames htype hrange hcheck =>
    obtain ⟨hne, hmem⟩ := name_mem_of_isNames hnames
    refine ⟨by simpa using hne, fun d hd => ?_⟩
    obtain ⟨name, hname, rfl⟩ := List.mem_map.mp hd
    exact sectionOf_typed (.name hs (by simp [hmem name hname])) htype (hcheck name hname) (hl _ hd)

theorem sectionOf_isLines {kind : Section} {ts : List Token} {ds : List Declaration} (h : IsLines kind ts ds)
    (hs : Sourced ts) (hl : ∀ d ∈ ds, ∀ l ∈ d.literals, l.IsPlain) : ds ≠ [] ∧ ∀ d ∈ ds, SectionOf d := by
  induction h with
  | one h => exact sectionOf_isLine h hs hl
  | more h hmore ih =>
    obtain ⟨hne, hfirst⟩ := sectionOf_isLine h hs.left fun d hd => hl d (by simp [hd])
    obtain ⟨-, hrest⟩ := ih hs.right fun d hd => hl d (by simp [hd])
    exact ⟨by simp [hne], List.forall_mem_append.mpr ⟨hfirst, hrest⟩⟩

theorem sectionOf_isSection {kind : Section} {ts : List Token} {ds : List Declaration} (h : IsSection kind ts ds)
    (hs : Sourced ts) (hl : ∀ d ∈ ds, ∀ l ∈ d.literals, l.IsPlain) : ds ≠ [] ∧ ∀ d ∈ ds, SectionOf d := by
  cases h with
  | line h => exact sectionOf_isLine h (hs.part ⟨[word kind], [], by simp⟩) hl
  | block h => exact sectionOf_isLines h (hs.part ⟨[word kind, .newline, .indent], [.dedent], rfl⟩) hl

/-! ### Bodies -/

/-- The rows of sections and statements. -/
def bodyRows (level : Nat) (ds : List Declaration) (body : List Stmt) : List String :=
  ds.map (fun d => Stmt.row level d.sectionRow) ++ Stmt.blockRows level body

section Body

variable {callable : String → Bool} {level : Nat} {rest : List Char} {us vs : List Token} {body : List Stmt}

/-- A declaration in front of a body, with the rows of both. -/
theorem printed_declaration {d : Declaration} {ds : List Declaration} (h : SectionOf d)
    (hbody : IsBody callable vs ds body) (hlands : Lands level (rowChars (bodyRows level ds body) ++ rest) (vs ++ us)) :
    ∃ ws, IsBody callable ws (d :: ds) body ∧
      RowAt level (rowChars (bodyRows level (d :: ds) body) ++ rest) (ws ++ us) := by
  obtain ⟨kind, ts, hinline, hsection⟩ := h
  refine ⟨ts ++ [.newline] ++ vs, .declare hsection hbody, ?_⟩
  simpa [bodyRows, rowChars_cons, rowChars_nil] using hlands.row hinline

theorem printed_declarations {ds es : List Declaration} (h : ∀ d ∈ ds, SectionOf d)
    (hbody : IsBody callable vs es body) (hlands : Lands level (rowChars (bodyRows level es body) ++ rest) (vs ++ us)) :
    ∃ ws, IsBody callable ws (ds ++ es) body ∧
      Lands level (rowChars (bodyRows level (ds ++ es) body) ++ rest) (ws ++ us) ∧
      (ds ≠ [] → RowAt level (rowChars (bodyRows level (ds ++ es) body) ++ rest) (ws ++ us)) := by
  induction ds with
  | nil => exact ⟨vs, hbody, hlands, by simp⟩
  | cons d ds ih =>
    obtain ⟨ws, hmore, hlands, -⟩ := ih fun e he => h e (by simp [he])
    obtain ⟨ws', hall, hrow⟩ := printed_declaration (h d (by simp)) hmore hlands
    exact ⟨ws', hall, hrow.lands, fun _ => hrow⟩

theorem printed_body {ts : List Token} {ds : List Declaration} (h : IsBody callable ts ds body) (hs : Sourced ts)
    (hd : ∀ d ∈ ds, ∀ l ∈ d.literals, l.IsPlain) (hl : ∀ l ∈ Stmt.literalsAll body, l.IsPlain)
    (hrest : Lands level rest us) :
    ∃ vs, IsBody callable vs ds body ∧ Lands level (rowChars (bodyRows level ds body) ++ rest) (vs ++ us) ∧
      (ts ≠ [] → RowAt level (rowChars (bodyRows level ds body) ++ rest) (vs ++ us)) := by
  induction h with
  | run h =>
    obtain ⟨vs, hstmts, hlands, hrow⟩ := printed_stmts h hs hl hrest
    refine ⟨vs, .run hstmts, hlands, fun hne => hrow ?_⟩
    rintro rfl
    cases h
    exact hne rfl
  | declare h hmore ih =>
    obtain ⟨hne, hsections⟩ := sectionOf_isSection h hs.left fun d hmem => hd d (by simp [hmem])
    obtain ⟨vs, hbody, hlands, -⟩ := ih hs.right (fun d hmem => hd d (by simp [hmem])) hl
    obtain ⟨ws, hall, hlands, hrow⟩ := printed_declarations hsections hbody hlands
    exact ⟨ws, hall, hlands, fun _ => hrow hne⟩

end Body

/-! ### Parameters -/

/-- A parameter whose signature reads as a group of its own. -/
def GroupOf (d : Declaration) : Prop :=
  ∃ us, Inline d.signature.toList us ∧ IsGroup us [d]

theorem groupOf_isGroup {ts : List Token} {ds : List Declaration} (h : IsGroup ts ds) (hs : Sourced ts) :
    ds ≠ [] ∧ ∀ d ∈ ds, GroupOf d := by
  obtain @⟨mutable, ts, us, names, type, hnames, htype⟩ := h
  obtain ⟨hne, hmem⟩ := name_mem_of_isNames hnames
  obtain ⟨vs, hinline, htype'⟩ := inline_type htype
  refine ⟨by simpa using hne, fun d hd => ?_⟩
  obtain ⟨name, hname, rfl⟩ := List.mem_map.mp hd
  have htyped : Inline (name.toList ++ ':' :: ' ' :: type.text.toList) (.name name :: .mark .colon :: vs) :=
    Inline.typed (.name hs (by simp [hmem name hname])) hinline
  refine ⟨varTokens mutable ++ [.name name] ++ .mark .colon :: vs, ?_, .mk mutable (.one name) htype'⟩
  cases mutable with
  | false => simpa [Declaration.signature, Declaration.parameter, varTokens] using htyped
  | true =>
    simpa [Declaration.signature, Declaration.parameter, varTokens, Keyword.spelling] using
      (Inline.keyword .var).spaced htyped

theorem groupOf_isParameters {ts : List Token} {ds : List Declaration} (h : IsParameters ts ds) (hs : Sourced ts) :
    ds ≠ [] ∧ ∀ d ∈ ds, GroupOf d := by
  induction h with
  | one h => exact groupOf_isGroup h hs
  | more h ht hmore ih =>
    rename_i t
    obtain ⟨hne, hfirst⟩ := groupOf_isGroup h hs.left
    obtain ⟨-, hrest⟩ := ih (hs.right.part ⟨[t], [], by simp⟩)
    exact ⟨by simp [hne], List.forall_mem_append.mpr ⟨hfirst, hrest⟩⟩

theorem inline_parameters {ds : List Declaration} (hne : ds ≠ []) (h : ∀ d ∈ ds, GroupOf d) :
    ∃ us, Inline ("; ".intercalate (ds.map Declaration.signature)).toList us ∧ IsParameters us ds := by
  induction ds with
  | nil => exact absurd rfl hne
  | cons d ds ih =>
    obtain ⟨us, hinline, hgroup⟩ := h d (by simp)
    cases ds with
    | nil => exact ⟨us, by simpa using hinline, .one hgroup⟩
    | cons e ds =>
      obtain ⟨vs, hinline', hmore⟩ := ih (by simp) fun d hd => h d (by simp [hd])
      refine ⟨us ++ .mark .semicolon :: vs, ?_, .more hgroup (.inl rfl) hmore⟩
      rw [List.map_cons, String.intercalate_cons_of_ne_nil (by simp)]
      simpa [Mark.spelling] using hinline.separated (m := .semicolon) hinline' (.inr rfl)

theorem inline_parameterList {ts : List Token} {ds : List Declaration} (h : IsParameterList ts ds) (hs : Sourced ts) :
    ∃ us, Inline ('(' :: ("; ".intercalate (ds.map Declaration.signature)).toList ++ [')']) us ∧
      IsParameterList us ds := by
  cases h with
  | none =>
    refine ⟨_, ?_, .none⟩
    have hclose : Inline [')'] [.mark .closeParen] := .token (.mark .closeParen) (by rintro c ⟨⟩; decide)
    exact hclose.behind (m := .openParen) (by rintro c ⟨⟩; decide)
  | some h =>
    obtain ⟨hne, hgroups⟩ := groupOf_isParameters h (hs.part ⟨[.mark .openParen], [.mark .closeParen], rfl⟩)
    obtain ⟨us, hinline, hparameters⟩ := inline_parameters hne hgroups
    exact ⟨_, hinline.enclosed, .some hparameters⟩

/-! ### Functions -/

def Body.literals : Body → List Literal
  | .user statements => Stmt.literalsAll statements
  | .builtin _ => []

/-- The literals inside a function. -/
def Function.literals (f : Function) : List Literal :=
  f.parameters.flatMap Declaration.literals ++ f.locals.flatMap Declaration.literals ++ f.body.literals

/-- The literals inside a program. -/
def Program.literals (p : Program) : List Literal :=
  p.functions.flatMap Function.literals

theorem printed_function {callable : String → Bool} {ts us : List Token} {f : Function} {rest : List Char}
    (h : IsFunction callable ts f) (hs : Sourced ts) (hl : ∀ l ∈ f.literals, l.IsPlain) (hrest : Lands 0 rest us) :
    ∃ vs, IsFunction callable vs f ∧ RowAt 0 (f.text.toList ++ rest) (vs ++ us) := by
  obtain @⟨name, ts, bs, parameters, locals, body, hparameters, hbody, distinct⟩ := h
  have hsbody : Sourced (.newline :: .indent :: bs ++ [.dedent]) :=
    hs.part ⟨.keyword .define :: .name name :: ts, [], by simp⟩
  -- a function without a row inside would be an empty block
  have hne : bs ≠ [] := by
    rintro rfl
    exact hsbody.blocks ⟨[.newline], [], rfl⟩
  have hname : Inline name.toList [.name name] := .name hs (by simp)
  obtain ⟨ps, hinline, hparameters'⟩ := inline_parameterList hparameters
    (hs.part ⟨[.keyword .define, .name name], .newline :: .indent :: bs ++ [.dedent], by simp⟩)
  have hlocals : ∀ d ∈ locals, ∀ l ∈ d.literals, l.IsPlain := by
    intro d hd l hmem
    exact hl l (List.mem_append_left _ (List.mem_append_right _ (List.mem_flatMap.mpr ⟨d, hd, hmem⟩)))
  obtain ⟨vs, hbody', -, hrow⟩ := printed_body hbody (hsbody.part ⟨[.newline, .indent], [.dedent], rfl⟩) hlocals
    (fun l hmem => hl l (List.mem_append_right _ hmem)) hrest.dedent
  have hhead : Inline ("define " ++ name ++ "(" ++ "; ".intercalate (parameters.map Declaration.signature) ++
      ")").toList (.keyword .define :: .name name :: ps) := by
    simpa [Keyword.spelling] using (Inline.keyword .define).spaced (hname.append hinline (by rintro c ⟨⟩; rfl))
  refine ⟨_, .mk name hparameters' hbody' distinct, ?_⟩
  have hrows := rowAt_row hhead (hrow hne).indent
  simpa [Function.text, Function.rows, rowChars, bodyRows, Declaration.sectionRow, Stmt.row] using hrows

theorem printed_functions {callable : String → Bool} {ts : List Token} {fs : List Function}
    (h : IsFunctions callable ts fs) (hs : Sourced ts) (hl : ∀ f ∈ fs, ∀ l ∈ f.literals, l.IsPlain) :
    ∃ vs, IsFunctions callable vs fs ∧ Lands 0 ("\n".intercalate (fs.map Function.text)).toList vs := by
  induction h with
  | nil => exact ⟨[], .nil, lands_nil⟩
  | cons h hmore ih =>
    rename_i f fs
    obtain ⟨vs, hfunctions, hlands⟩ := ih hs.right fun g hg => hl g (by simp [hg])
    cases fs with
    | nil =>
      obtain ⟨us, hfunction, hrow⟩ := printed_function h hs.left (hl f (by simp)) hlands
      exact ⟨us ++ vs, .cons hfunction hfunctions, by simpa using hrow.lands⟩
    | cons g fs =>
      obtain ⟨us, hfunction, hrow⟩ := printed_function h hs.left (hl f (by simp)) hlands.feed
      refine ⟨us ++ vs, .cons hfunction hfunctions, ?_⟩
      rw [List.map_cons, String.intercalate_cons_of_ne_nil (by simp)]
      simpa using hrow.lands

/-! ### Texts and places -/

mutual

@[simp] theorem Stmt.rows_unplaced (level : Nat) : ∀ s : Stmt, s.unplaced.rows level = s.rows level
  | .assign _ _ _ => rfl
  | .branch _ chain => by
    rw [Stmt.unplaced, Stmt.rows, Stmt.rows, Stmt.chainRows_unplaced level true chain]
  | .count _ _ _ _ body => by
    rw [Stmt.unplaced, Stmt.rows, Stmt.rows, Stmt.blockRows_unplaced _ body]
  | .loopWhile _ _ body => by
    rw [Stmt.unplaced, Stmt.rows, Stmt.rows, Stmt.blockRows_unplaced _ body]
  | .loopUntil _ _ body => by
    rw [Stmt.unplaced, Stmt.rows, Stmt.rows, Stmt.blockRows_unplaced _ body]
  | .call _ _ _ => rfl

theorem Stmt.chainRows_unplaced (level : Nat) (first : Bool) :
    ∀ chain : Chain, Stmt.chainRows level first chain.unplaced = Stmt.chainRows level first chain
  | .last _ body => by
    rw [Chain.unplaced, Stmt.chainRows, Stmt.chainRows, Stmt.blockRows_unplaced _ body]
  | .link _ body next => by
    rw [Chain.unplaced, Stmt.chainRows, Stmt.chainRows, Stmt.blockRows_unplaced _ body,
      Stmt.chainRows_unplaced level false next]

theorem Stmt.blockRows_unplaced (level : Nat) :
    ∀ ss : List Stmt, Stmt.blockRows level (Stmt.unplacedAll ss) = Stmt.blockRows level ss
  | [] => rfl
  | s :: ss => by
    rw [Stmt.unplacedAll, Stmt.blockRows, Stmt.blockRows, Stmt.rows_unplaced level s, Stmt.blockRows_unplaced level ss]

end

mutual

theorem Stmt.literals_unplaced : ∀ s : Stmt, s.unplaced.literals = s.literals
  | .assign _ _ _ => rfl
  | .branch _ chain => by rw [Stmt.unplaced, Stmt.literals, Stmt.literals, Chain.literals_unplaced chain]
  | .count _ _ _ _ body => by rw [Stmt.unplaced, Stmt.literals, Stmt.literals, Stmt.literalsAll_unplaced body]
  | .loopWhile _ _ body => by rw [Stmt.unplaced, Stmt.literals, Stmt.literals, Stmt.literalsAll_unplaced body]
  | .loopUntil _ _ body => by rw [Stmt.unplaced, Stmt.literals, Stmt.literals, Stmt.literalsAll_unplaced body]
  | .call _ _ _ => rfl

theorem Chain.literals_unplaced : ∀ chain : Chain, chain.unplaced.literals = chain.literals
  | .last _ body => by rw [Chain.unplaced, Chain.literals, Chain.literals, Stmt.literalsAll_unplaced body]
  | .link _ body next => by
    rw [Chain.unplaced, Chain.literals, Chain.literals, Stmt.literalsAll_unplaced body, Chain.literals_unplaced next]

theorem Stmt.literalsAll_unplaced : ∀ ss : List Stmt, Stmt.literalsAll (Stmt.unplacedAll ss) = Stmt.literalsAll ss
  | [] => rfl
  | s :: ss => by
    rw [Stmt.unplacedAll, Stmt.literalsAll, Stmt.literalsAll, Stmt.literals_unplaced s, Stmt.literalsAll_unplaced ss]

end

theorem Function.text_unplaced (f : Function) : f.unplaced.text = f.text := by
  obtain ⟨name, parameters, locals, body, place⟩ := f
  cases body with
  | builtin b => rfl
  | user statements =>
    simp only [Function.unplaced, Body.unplaced, Function.text, Function.rows, List.map_map, Stmt.blockRows_unplaced]
    rfl

theorem Function.literals_unplaced (f : Function) : f.unplaced.literals = f.literals := by
  obtain ⟨name, parameters, locals, body, place⟩ := f
  have hbody : body.unplaced.literals = body.literals := by
    cases body with
    | builtin b => rfl
    | user statements => exact Stmt.literalsAll_unplaced statements
  simp only [Function.unplaced, Function.literals, List.flatMap_map, hbody]
  rfl

theorem Program.text_unplaced (p : Program) : p.unplaced.text = p.text := by
  have hcomp : Function.text ∘ Function.unplaced = Function.text := funext Function.text_unplaced
  rw [Program.text, Program.unplaced, List.map_map, hcomp, Program.text]

theorem Program.literals_unplaced (p : Program) : p.unplaced.literals = p.literals := by
  simp [Program.literals, Program.unplaced, List.flatMap_map, Function.literals_unplaced]

/-! ### Programs -/

/-- The text of functions that were read from a source reads as the same functions. -/
theorem lexemes_text {callable : String → Bool} {ts : List Token} {p : Program}
    (h : IsFunctions callable ts p.functions) (hs : Sourced ts) (hl : ∀ l ∈ p.literals, l.IsPlain) :
    ∃ again, lexemes p.text = .ok again ∧ IsFunctions callable (again.map Lexeme.token) p.functions := by
  obtain ⟨vs, hfunctions, hlands⟩ :=
    printed_functions h hs fun f hf l hmem => hl l (List.mem_flatMap.mpr ⟨f, hf, hmem⟩)
  obtain ⟨out, hreads, hout⟩ := hlands 0 1 1
  obtain ⟨again, hagain, htokens⟩ := lexemes_of_reads hreads
  have hvs : again.map Lexeme.token = vs := by
    have hmap : (again.map Lexeme.tokenAndLine).map Prod.fst = again.map Lexeme.token := by
      rw [List.map_map]
      rfl
    rw [← hmap, htokens, hout]
    rfl
  exact ⟨again, hagain, hvs ▸ hfunctions⟩

/-- A program read from a source is read back from its own text: the same functions, declarations, statements and
expressions, places apart. Literals must be plain, since strings and characters are written without escapes and no
source spells an infinite real. -/
theorem Program.text_roundtrip {source : String} {ls : List Lexeme} {p : Program} (hls : lexemes source = .ok ls)
    (hp : Program.ofLexemes ls = .ok p) (hplain : ∀ l ∈ p.literals, l.IsPlain) :
    ∃ again q, lexemes p.text = .ok again ∧ Program.ofLexemes again = .ok q ∧ q.unplaced = p.unplaced := by
  have hsourced := sourced_lexemes hls
  obtain ⟨hfunctions, hdistinct⟩ := Program.ofLexemes_sound hp hsourced.blocks
  have hnames : p.unplaced.functions.map Function.name = p.functions.map Function.name := by
    simp [Program.unplaced, Function.unplaced]
  rw [← hnames] at hfunctions hdistinct
  have hliterals : ∀ l ∈ p.unplaced.literals, l.IsPlain := by
    rw [Program.literals_unplaced]
    exact hplain
  obtain ⟨again, hagain, hread⟩ := lexemes_text hfunctions hsourced hliterals
  obtain ⟨q, hq, heq⟩ := Program.ofLexemes_complete hread hdistinct
  rw [Program.text_unplaced] at hagain
  exact ⟨again, q, hagain, hq, congrArg Program.mk heq⟩

/-- A source that its program is not written as: names share a section and a type, operations have no parentheses,
and a call starts with one. -/
def blendSource : String :=
  Stmt.joinRows [
    "define blend(var a, b: real)",
    "    constants least = -2147483648, half = -0.5",
    "    variables g: array of integer from -3 to 4",
    "    if g[0] <> -least % 2 then",
    "        blend (a + half) * b, var b",
    "    else",
    "        a := 3.25"]

theorem text_roundtrip_blend : ∃ ls p again q, lexemes blendSource = .ok ls ∧ Program.ofLexemes ls = .ok p ∧
    lexemes p.text = .ok again ∧ Program.ofLexemes again = .ok q ∧ q.unplaced = p.unplaced := by
  obtain ⟨ls, p, hls, hp, hliterals⟩ : ∃ ls p, lexemes blendSource = .ok ls ∧ Program.ofLexemes ls = .ok p ∧
      p.literals = [.integer (-2147483648), .real (-0.5), .integer (-3), .integer 4, .integer 0, .integer 2,
        .real 3.25] :=
    exists_program (by decide +kernel)
  have hplain : ∀ l ∈ p.literals, l.IsPlain := by
    rw [hliterals]
    decide +kernel
  obtain ⟨again, q, hagain, hq, heq⟩ := Program.text_roundtrip hls hp hplain
  exact ⟨ls, p, again, q, hls, hp, hagain, hq, heq⟩

end Offside
