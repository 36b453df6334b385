import Offside.Proofs.ParseProgram

/-!
# The grammar with places

The productions of statements and functions once more, over lexemes instead of tokens, with the places of the nodes.
A statement and a function reach from their first lexeme to their last, and a declaration stands where its name
stands. What has no place of its own, expressions and the lines of declarations, is left to the grammar of tokens.

The places are no choice: lexemes and the tree without places determine them.
-/

namespace Offside

/-- From the first to the last of some lexemes, on the line of the first. -/
def Location.over : List Lexeme → Location
  | [] => .blank
  | l :: ls => ⟨l.span.merge (ls.getLastD l).span, l.line⟩

namespace Grammar

open Parse

def isName : Token → Bool
  | .name _ => true
  | _ => false

/-- The places of the names among lexemes, in their order. -/
def namePlaces (ls : List Lexeme) : List Location :=
  (ls.filter fun l => isName l.token).map Lexeme.location

mutual

inductive StmtAt (callable : String → Bool) : List Lexeme → Stmt → Prop where
  | assign {ls : List Lexeme} {target : Target} {value : Expr}
      (h : IsStmt callable (ls.map Lexeme.token) (.assign .blank target value)) :
      StmtAt callable ls (.assign (.over ls) target value)
  | call {ls : List Lexeme} {name : String} {arguments : List Argument}
      (h : IsStmt callable (ls.map Lexeme.token) (.call .blank name arguments)) :
      StmtAt callable ls (.call (.over ls) name arguments)
  | branch {word : Lexeme} {ls : List Lexeme} {chain : Chain} (hword : word.token = .keyword .if_)
      (h : ChainAt callable ls chain) :
      StmtAt callable (word :: ls) (.branch (.over (word :: ls)) chain)
  | count (counter : String) {head ls : List Lexeme} {ts us : List Token} {first last : Expr} {body : List Stmt}
      (hhead : head.map Lexeme.token =
        .keyword .for_ :: .name counter :: .keyword .from_ :: ts ++ .keyword .to_ :: us)
      (hfirst : IsExpr .sum ts first) (hlast : IsExpr .sum us last) (hbody : BlockAt callable ls body) :
      StmtAt callable (head ++ ls) (.count (.over (head ++ ls)) counter first last body)
  | loopWhile {head ls : List Lexeme} {ts : List Token} {condition : Expr} {body : List Stmt}
      (hhead : head.map Lexeme.token = .keyword .while_ :: ts) (h : IsComparison ts condition)
      (hbody : BlockAt callable ls body) :
      StmtAt callable (head ++ ls) (.loopWhile (.over (head ++ ls)) condition body)
  | loopUntil {head ls : List Lexeme} {ts : List Token} {condition : Expr} {body : List Stmt}
      (hhead : head.map Lexeme.token = .keyword .repeat_ :: .keyword .until_ :: ts) (h : IsComparison ts condition)
      (hbody : BlockAt callable ls body) :
      StmtAt callable (head ++ ls) (.loopUntil (.over (head ++ ls)) condition body)

inductive ChainAt (callable : String → Bool) : List Lexeme → Chain → Prop where
  | last {head ls : List Lexeme} {ts : List Token} {condition : Expr} {body : List Stmt}
      (hhead : head.map Lexeme.token = ts ++ [.keyword .then_]) (h : IsComparison ts condition)
      (hbody : BlockAt callable ls body) :
      ChainAt callable (head ++ ls) (.last (some condition) body)
  | otherwise {head ls ms : List Lexeme} {word : Lexeme} {ts : List Token} {condition : Expr}
      {body other : List Stmt} (hhead : head.map Lexeme.token = ts ++ [.keyword .then_])
      (h : IsComparison ts condition) (hbody : BlockAt callable ls body) (hword : word.token = .keyword .else_)
      (hother : BlockAt callable ms other) :
      ChainAt callable (head ++ ls ++ word :: ms) (.link (some condition) body (.last none other))
  | elsif {head ls ms : List Lexeme} {word : Lexeme} {ts : List Token} {condition : Expr} {body : List Stmt}
      {next : Chain} (hhead : head.map Lexeme.token = ts ++ [.keyword .then_]) (h : IsComparison ts condition)
      (hbody : BlockAt callable ls body) (hword : word.token = .keyword .elsif) (hnext : ChainAt callable ms next) :
      ChainAt callable (head ++ ls ++ word :: ms) (.link (some condition) body next)

inductive BlockAt (callable : String → Bool) : List Lexeme → List Stmt → Prop where
  | mk {lineEnd indent dedent : Lexeme} {ls : List Lexeme} {body : List Stmt} (hlineEnd : lineEnd.token = .newline)
      (hindent : indent.token = .indent) (hdedent : dedent.token = .dedent) (h : StmtsAt callable ls body) :
      BlockAt callable (lineEnd :: indent :: ls ++ [dedent]) body

inductive StmtsAt (callable : String → Bool) : List Lexeme → List Stmt → Prop where
  | nil : StmtsAt callable [] []
  | cons {ls ms : List Lexeme} {s : Stmt} {ss : List Stmt} (h : StmtAt callable ls s)
      (hs : StmtsAt callable ms ss) : StmtsAt callable (ls ++ ms) (s :: ss)

end

/-- The sections and the statements of a function. -/
inductive BodyAt (callable : String → Bool) : List Lexeme → List Declaration → List Stmt → Prop where
  | declare {kind : Section} {ls ms : List Lexeme} {ds es : List Declaration} {body : List Stmt}
      (h : IsSection kind (ls.map Lexeme.token) (ds.map Declaration.unplaced))
      (hplaces : ds.map Declaration.place = namePlaces ls) (hs : BodyAt callable ms es body) :
      BodyAt callable (ls ++ ms) (ds ++ es) body
  | run {ls : List Lexeme} {body : List Stmt} (h : StmtsAt callable ls body) : BodyAt callable ls [] body

/-- A function, all names of which are different. -/
inductive FunctionAt (callable : String → Bool) : List Lexeme → Function → Prop where
  | mk (name : String) {opening ls closing ms : List Lexeme} {dedent : Lexeme}
      {parameters locals : List Declaration} {body : List Stmt}
      (hopening : opening.map Lexeme.token = [.keyword .define, .name name])
      (hparameters : IsParameterList (ls.map Lexeme.token) (parameters.map Declaration.unplaced))
      (hplaces : parameters.map Declaration.place = namePlaces ls)
      (hclosing : closing.map Lexeme.token = [.newline, .indent])
      (hbody : BodyAt callable ms locals body) (hdedent : dedent.token = .dedent)
      (distinct : ((parameters ++ locals).map Declaration.name).Nodup) :
      FunctionAt callable (opening ++ ls ++ closing ++ ms ++ [dedent])
        ⟨name, parameters, locals, .user body, .over (opening ++ ls ++ closing ++ ms ++ [dedent])⟩

inductive FunctionsAt (callable : String → Bool) : List Lexeme → List Function → Prop where
  | nil : FunctionsAt callable [] []
  | cons {ls ms : List Lexeme} {f : Function} {fs : List Function} (h : FunctionAt callable ls f)
      (hs : FunctionsAt callable ms fs) : FunctionsAt callable (ls ++ ms) (f :: fs)

/-! ### Without the places -/

section

variable {callable : String → Bool}

mutual

theorem StmtAt.isStmt {ls : List Lexeme} {s : Stmt} :
    StmtAt callable ls s → IsStmt callable (ls.map Lexeme.token) s.unplaced
  | .assign h => h
  | .call h => h
  | .branch hword h => by
    rw [List.map_cons, hword]
    exact .branch h.isChain
  | .count counter hhead hfirst hlast hbody => by
    rw [List.map_append, hhead]
    exact .count counter hfirst hlast hbody.isBlock
  | .loopWhile hhead h hbody => by
    rw [List.map_append, hhead]
    exact .loopWhile h hbody.isBlock
  | .loopUntil hhead h hbody => by
    rw [List.map_append, hhead]
    exact .loopUntil h hbody.isBlock

theorem ChainAt.isChain {ls : List Lexeme} {chain : Chain} :
    ChainAt callable ls chain → IsChain callable (ls.map Lexeme.token) chain.unplaced
  | .last hhead h hbody => by
    rw [List.map_append, hhead, List.append_assoc]
    exact .last h hbody.isBlock
  | .otherwise hhead h hbody hword hother => by
    rw [List.map_append, List.map_append, List.map_cons, hhead, hword, List.append_assoc _ [_]]
    exact .otherwise h hbody.isBlock hother.isBlock
  | .elsif hhead h hbody hword hnext => by
    rw [List.map_append, List.map_append, List.map_cons, hhead, hword, List.append_assoc _ [_]]
    exact .elsif h hbody.isBlock hnext.isChain

theorem BlockAt.isBlock {ls : List Lexeme} {body : List Stmt} :
    BlockAt callable ls body → IsBlock callable (ls.map Lexeme.token) (Stmt.unplacedAll body)
  | .mk hlineEnd hindent hdedent h => by
    rw [List.map_append, List.map_cons, List.map_cons, hlineEnd, hindent, List.map_singleton, hdedent]
    exact .mk h.isStmts

theorem StmtsAt.isStmts {ls : List Lexeme} {body : List Stmt} :
    StmtsAt callable ls body → IsStmts callable (ls.map Lexeme.token) (Stmt.unplacedAll body)
  | .nil => .nil
  | .cons h hs => by
    rw [List.map_append]
    exact .cons h.isStmt hs.isStmts

end

theorem BodyAt.isBody {ls : List Lexeme} {locals : List Declaration} {body : List Stmt}
    (h : BodyAt callable ls locals body) :
    IsBody callable (ls.map Lexeme.token) (locals.map Declaration.unplaced) (Stmt.unplacedAll body) := by
  induction h with
  | declare h _ _ ih =>
    rw [List.map_append, List.map_append]
    exact .declare h ih
  | run h => exact .run h.isStmts

theorem FunctionAt.isFunction {ls : List Lexeme} {f : Function} (h : FunctionAt callable ls f) :
    IsFunction callable (ls.map Lexeme.token) f.unplaced := by
  cases h with
  | mk name hopening hparameters hplaces hclosing hbody hdedent distinct =>
    rename_i opening ls closing ms dedent parameters locals body
    have htokens : (opening ++ ls ++ closing ++ ms ++ [dedent]).map Lexeme.token =
        .keyword .define :: .name name :: ls.map Lexeme.token ++
          .newline :: .indent :: ms.map Lexeme.token ++ [.dedent] := by
      simp [hopening, hclosing, hdedent]
    rw [← names_unplaced, List.map_append] at distinct
    rw [htokens]
    exact .mk name hparameters hbody.isBody distinct

theorem FunctionsAt.isFunctions {ls : List Lexeme} {fs : List Function} (h : FunctionsAt callable ls fs) :
    IsFunctions callable (ls.map Lexeme.token) (fs.map Function.unplaced) := by
  induction h with
  | nil => exact .nil
  | cons h _ ih =>
    rw [List.map_append]
    exact .cons h.isFunction ih

/-! ### The places are determined -/

/-- A line end divides lexemes in one way if no line end stands in front of it. -/
theorem append_lineEnd_inj {ls ls' rest rest' : List Lexeme} {l l' : Lexeme}
    (hls : ∀ t ∈ ls.map Lexeme.token, divides t = false) (hls' : ∀ t ∈ ls'.map Lexeme.token, divides t = false)
    (hl : l.token = .newline) (hl' : l'.token = .newline) (heq : ls ++ l :: rest = ls' ++ l' :: rest') :
    ls = ls' ∧ l = l' ∧ rest = rest' := by
  induction ls generalizing ls' with
  | nil =>
    cases ls' with
    | nil => exact ⟨rfl, List.cons.inj heq⟩
    | cons m ls' =>
      obtain ⟨rfl, -⟩ := List.cons.inj heq
      rw [List.map_cons, List.forall_mem_cons, hl] at hls'
      cases hls'.1
  | cons m ls ih =>
    rw [List.map_cons, List.forall_mem_cons] at hls
    cases ls' with
    | nil =>
      obtain ⟨rfl, -⟩ := List.cons.inj heq
      rw [hl'] at hls
      cases hls.1
    | cons m' ls' =>
      rw [List.map_cons, List.forall_mem_cons] at hls'
      obtain ⟨rfl, htail⟩ := List.cons.inj heq
      obtain ⟨rfl, hrest⟩ := ih hls.2 hls'.2 htail
      exact ⟨rfl, hrest⟩

/-- A statement of one line. -/
theorem isStmt_line {ls : List Lexeme} {s : Stmt} (h : IsStmt callable (ls.map Lexeme.token) s)
    (hs : (∃ target value, s = .assign .blank target value) ∨ ∃ name arguments, s = .call .blank name arguments) :
    ∃ line l, ls = line ++ [l] ∧ l.token = .newline ∧ ∀ t ∈ line.map Lexeme.token, divides t = false := by
  obtain ⟨ts, hts, hdivides⟩ : ∃ ts, ls.map Lexeme.token = ts ++ [.newline] ∧ ∀ t ∈ ts, divides t = false := by
    rcases hs with ⟨target, value, rfl⟩ | ⟨name, arguments, rfl⟩
    · generalize ls.map Lexeme.token = us at h
      cases h with
      | assign _ htarget hvalue =>
        exact ⟨_, rfl, by grind [divides, not_divides_target htarget, not_divides_comparison hvalue]⟩
    · generalize ls.map Lexeme.token = us at h
      cases h with
      | call _ hcall => exact ⟨_, rfl, by grind [divides, not_divides_call hcall]⟩
  obtain ⟨line, last, rfl, hline, hlast⟩ := List.map_eq_append_iff.mp hts
  obtain ⟨l, rfl, hl⟩ := List.map_eq_singleton_iff.mp hlast
  exact ⟨line, l, rfl, hl, hline ▸ hdivides⟩

/-- Lines with the same beginning are the same. -/
theorem line_inj {ls ls' rest rest' : List Lexeme} {s : Stmt} (h : IsStmt callable (ls.map Lexeme.token) s)
    (h' : IsStmt callable (ls'.map Lexeme.token) s)
    (hs : (∃ target value, s = .assign .blank target value) ∨ ∃ name arguments, s = .call .blank name arguments)
    (heq : ls ++ rest = ls' ++ rest') : ls = ls' ∧ rest = rest' := by
  obtain ⟨line, l, rfl, hl, hdivides⟩ := isStmt_line h hs
  obtain ⟨line', l', rfl, hl', hdivides'⟩ := isStmt_line h' hs
  have heq : line ++ l :: rest = line' ++ l' :: rest' := by simpa using heq
  obtain ⟨rfl, rfl, rfl⟩ := append_lineEnd_inj hdivides hdivides' hl hl' heq
  exact ⟨rfl, rfl⟩

/-- The head of a statement ends where its block starts. If the block is determined, then so are both. -/
theorem head_inj {head head' ls ls' rest rest' : List Lexeme} {body body' : List Stmt}
    (hhead : ∀ t ∈ head.map Lexeme.token, divides t = false)
    (hhead' : ∀ t ∈ head'.map Lexeme.token, divides t = false) (hbody : BlockAt callable ls body)
    (hbody' : BlockAt callable ls' body')
    (hunique : ls ++ rest = ls' ++ rest' → ls = ls' ∧ body = body' ∧ rest = rest')
    (heq : head ++ ls ++ rest = head' ++ ls' ++ rest') :
    head = head' ∧ ls = ls' ∧ body = body' ∧ rest = rest' := by
  rw [List.append_assoc, List.append_assoc] at heq
  cases hbody with
  | mk hlineEnd _ _ _ =>
    cases hbody' with
    | mk hlineEnd' _ _ _ =>
      obtain ⟨rfl, rfl, htail⟩ := append_lineEnd_inj hhead hhead' hlineEnd hlineEnd' heq
      exact ⟨rfl, hunique (congrArg (List.cons _) htail)⟩

theorem not_divides_then {head : List Lexeme} {ts : List Token} {condition : Expr}
    (hhead : head.map Lexeme.token = ts ++ [.keyword .then_]) (h : IsComparison ts condition) :
    ∀ t ∈ head.map Lexeme.token, divides t = false := by
  rw [hhead]
  grind [divides, not_divides_comparison h]

mutual

theorem StmtAt.unique {ls ls' rest rest' : List Lexeme} {s s' : Stmt} :
    StmtAt callable ls s → StmtAt callable ls' s' → s.unplaced = s'.unplaced → ls ++ rest = ls' ++ rest' →
      ls = ls' ∧ s = s' ∧ rest = rest'
  | .assign h, h', htree, heq => by
    cases h' with
    | assign h' =>
      cases htree
      obtain ⟨rfl, rfl⟩ := line_inj h h' (.inl ⟨_, _, rfl⟩) heq
      exact ⟨rfl, rfl, rfl⟩
    | _ => cases htree
  | .call h, h', htree, heq => by
    cases h' with
    | call h' =>
      cases htree
      obtain ⟨rfl, rfl⟩ := line_inj h h' (.inr ⟨_, _, rfl⟩) heq
      exact ⟨rfl, rfl, rfl⟩
    | _ => cases htree
  | .branch hword h, h', htree, heq => by
    cases h' with
    | branch hword' h' =>
      obtain ⟨rfl, htail⟩ := List.cons.inj heq
      obtain ⟨rfl, rfl, rfl⟩ := h.unique h' (Stmt.branch.inj htree).2 htail
      exact ⟨rfl, rfl, rfl⟩
    | _ => cases htree
  | .count counter hhead hfirst hlast hbody, h', htree, heq => by
    cases h' with
    | count counter' hhead' hfirst' hlast' hbody' =>
      obtain ⟨-, rfl, rfl, rfl, hbodies⟩ := Stmt.count.inj htree
      obtain ⟨rfl, rfl, rfl, rfl⟩ := head_inj
        (by rw [hhead]; grind [divides, not_divides_expr hfirst, not_divides_expr hlast])
        (by rw [hhead']; grind [divides, not_divides_expr hfirst', not_divides_expr hlast'])
        hbody hbody' (hbody.unique hbody' hbodies) heq
      exact ⟨rfl, rfl, rfl⟩
    | _ => cases htree
  | .loopWhile hhead h hbody, h', htree, heq => by
    cases h' with
    | loopWhile hhead' h' hbody' =>
      obtain ⟨-, rfl, hbodies⟩ := Stmt.loopWhile.inj htree
      obtain ⟨rfl, rfl, rfl, rfl⟩ := head_inj (by rw [hhead]; grind [divides, not_divides_comparison h])
        (by rw [hhead']; grind [divides, not_divides_comparison h']) hbody hbody' (hbody.unique hbody' hbodies) heq
      exact ⟨rfl, rfl, rfl⟩
    | _ => cases htree
  | .loopUntil hhead h hbody, h', htree, heq => by
    cases h' with
    | loopUntil hhead' h' hbody' =>
      obtain ⟨-, rfl, hbodies⟩ := Stmt.loopUntil.inj htree
      obtain ⟨rfl, rfl, rfl, rfl⟩ := head_inj (by rw [hhead]; grind [divides, not_divides_comparison h])
        (by rw [hhead']; grind [divides, not_divides_comparison h']) hbody hbody' (hbody.unique hbody' hbodies) heq
      exact ⟨rfl, rfl, rfl⟩
    | _ => cases htree
termination_by structural h => h

theorem ChainAt.unique {ls ls' rest rest' : List Lexeme} {chain chain' : Chain} :
    ChainAt callable ls chain → ChainAt callable ls' chain' → chain.unplaced = chain'.unplaced →
      ls ++ rest = ls' ++ rest' → ls = ls' ∧ chain = chain' ∧ rest = rest'
  | .last hhead h hbody, h', htree, heq => by
    cases h' with
    | last hhead' h' hbody' =>
      obtain ⟨hconditions, hbodies⟩ := Chain.last.inj htree
      cases hconditions
      obtain ⟨rfl, rfl, rfl, rfl⟩ := head_inj (not_divides_then hhead h) (not_divides_then hhead' h') hbody hbody'
        (hbody.unique hbody' hbodies) heq
      exact ⟨rfl, rfl, rfl⟩
    | _ => cases htree
  | .otherwise hhead h hbody hword hother, h', htree, heq => by
    cases h' with
    | last => cases htree
    | otherwise hhead' h' hbody' hword' hother' =>
      obtain ⟨hconditions, hbodies, hlast⟩ := Chain.link.inj htree
      cases hconditions
      rw [List.append_assoc (_ ++ _), List.append_assoc (_ ++ _)] at heq
      obtain ⟨rfl, rfl, rfl, htail⟩ := head_inj (not_divides_then hhead h) (not_divides_then hhead' h') hbody hbody'
        (hbody.unique hbody' hbodies) heq
      obtain ⟨rfl, hmore⟩ := List.cons.inj htail
      obtain ⟨rfl, rfl, rfl⟩ := hother.unique hother' (Chain.last.inj hlast).2 hmore
      exact ⟨rfl, rfl, rfl⟩
    | elsif hhead' h' hbody' hword' hnext' =>
      obtain ⟨-, hbodies, -⟩ := Chain.link.inj htree
      rw [List.append_assoc (_ ++ _), List.append_assoc (_ ++ _)] at heq
      obtain ⟨rfl, rfl, rfl, htail⟩ := head_inj (not_divides_then hhead h) (not_divides_then hhead' h') hbody hbody'
        (hbody.unique hbody' hbodies) heq
      rw [(List.cons.inj htail).1, hword'] at hword
      cases hword
  | .elsif hhead h hbody hword hnext, h', htree, heq => by
    cases h' with
    | last => cases htree
    | otherwise hhead' h' hbody' hword' hother' =>
      obtain ⟨-, hbodies, -⟩ := Chain.link.inj htree
      rw [List.append_assoc (_ ++ _), List.append_assoc (_ ++ _)] at heq
      obtain ⟨rfl, rfl, rfl, htail⟩ := head_inj (not_divides_then hhead h) (not_divides_then hhead' h') hbody hbody'
        (hbody.unique hbody' hbodies) heq
      rw [(List.cons.inj htail).1, hword'] at hword
      cases hword
    | elsif hhead' h' hbody' hword' hnext' =>
      obtain ⟨hconditions, hbodies, hchains⟩ := Chain.link.inj htree
      cases hconditions
      rw [List.append_assoc (_ ++ _), List.append_assoc (_ ++ _)] at heq
      obtain ⟨rfl, rfl, rfl, htail⟩ := head_inj (not_divides_then hhead h) (not_divides_then hhead' h') hbody hbody'
        (hbody.unique hbody' hbodies) heq
      obtain ⟨rfl, hmore⟩ := List.cons.inj htail
      obtain ⟨rfl, rfl, rfl⟩ := hnext.unique hnext' hchains hmore
      exact ⟨rfl, rfl, rfl⟩
termination_by structural h => h

theorem BlockAt.unique {ls ls' rest rest' : List Lexeme} {body body' : List Stmt} :
    BlockAt callable ls body → BlockAt callable ls' body' → Stmt.unplacedAll body = Stmt.unplacedAll body' →
      ls ++ rest = ls' ++ rest' → ls = ls' ∧ body = body' ∧ rest = rest'
  | .mk hlineEnd hindent hdedent h, h', htree, heq => by
    cases h' with
    | mk hlineEnd' hindent' hdedent' h' =>
      simp only [List.append_assoc, List.cons_append, List.nil_append, List.cons.injEq] at heq
      obtain ⟨rfl, rfl, htail⟩ := heq
      obtain ⟨rfl, rfl, hrest⟩ := h.unique h' htree htail
      obtain ⟨rfl, rfl⟩ := List.cons.inj hrest
      exact ⟨rfl, rfl, rfl⟩
termination_by structural h => h

theorem StmtsAt.unique {ls ls' rest rest' : List Lexeme} {body body' : List Stmt} :
    StmtsAt callable ls body → StmtsAt callable ls' body' → Stmt.unplacedAll body = Stmt.unplacedAll body' →
      ls ++ rest = ls' ++ rest' → ls = ls' ∧ body = body' ∧ rest = rest'
  | .nil, h', htree, heq => by
    cases h' with
    | nil => exact ⟨rfl, rfl, heq⟩
    | cons h' hs' => cases htree
  | .cons h hs, h', htree, heq => by
    cases h' with
    | nil => cases htree
    | cons h' hs' =>
      obtain ⟨hfirst, hmore⟩ := List.cons.inj htree
      rw [List.append_assoc, List.append_assoc] at heq
      obtain ⟨rfl, rfl, htail⟩ := h.unique h' hfirst heq
      obtain ⟨rfl, rfl, rfl⟩ := hs.unique hs' hmore htail
      exact ⟨rfl, rfl, rfl⟩
termination_by structural h => h

end

/-- A declaration is what it is without its place, and its place. -/
theorem declarations_ext {ds es : List Declaration} (h : ds.map Declaration.unplaced = es.map Declaration.unplaced)
    (hplaces : ds.map Declaration.place = es.map Declaration.place) : ds = es := by
  induction ds generalizing es with
  | nil => exact (List.map_eq_nil_iff.mp h.symm).symm
  | cons d ds ih =>
    cases es with
    | nil => cases h
    | cons e es =>
      obtain ⟨hd, hds⟩ := List.cons.inj h
      obtain ⟨hplace, hmore⟩ := List.cons.inj hplaces
      have hde : d = e := by
        cases d
        cases e
        simp_all [Declaration.unplaced]
      rw [hde, ih hds hmore]

/-- What one reader takes from a list it takes in one way. -/
theorem taken_inj {α : Type} {c : Cursor} {attempt : Attempt α c} {P Q : α → Prop} {ls ls' rest rest' : List Lexeme}
    (h : Gives attempt P (rest.map Lexeme.token)) (h' : Gives attempt Q (rest'.map Lexeme.token))
    (heq : ls ++ rest = ls' ++ rest') : ls = ls' ∧ rest = rest' ∧ ∃ a, P a ∧ Q a := by
  obtain ⟨r, hr, hP, hrest⟩ := h
  obtain ⟨r', hr', hQ, hrest'⟩ := h'
  obtain rfl : r = r' := Except.ok.inj (hr.symm.trans hr')
  have hlength : rest.length = rest'.length := by
    simpa using congrArg List.length (hrest.symm.trans hrest')
  obtain ⟨hls, hrests⟩ := List.append_inj' heq hlength
  exact ⟨hls, hrests, r.value, hP, hQ⟩

theorem parameterList_inj {ls ls' rest rest' : List Lexeme} {ds ds' : List Declaration}
    (h : IsParameterList (ls.map Lexeme.token) ds) (h' : IsParameterList (ls'.map Lexeme.token) ds')
    (heq : ls ++ rest = ls' ++ rest') : ls = ls' ∧ rest = rest' := by
  have hread := parameterList_complete (c := .ofLexemes (ls ++ rest)) h List.map_append
  have hread' := parameterList_complete (c := .ofLexemes (ls ++ rest)) h' (by rw [heq]; exact List.map_append)
  obtain ⟨hls, hrest, -⟩ := taken_inj hread hread' heq
  exact ⟨hls, hrest⟩

theorem lexemes_of_isSection {kind : Section} {ls : List Lexeme} {ds : List Declaration}
    (h : IsSection kind (ls.map Lexeme.token) ds) : ∃ l more, ls = l :: more ∧ l.token = word kind := by
  obtain ⟨us, hus⟩ : ∃ us, ls.map Lexeme.token = word kind :: us := by
    generalize ls.map Lexeme.token = ts at h
    cases h <;> exact ⟨_, rfl⟩
  obtain ⟨l, more, hls, hl, -⟩ := List.map_eq_cons_iff.mp hus
  exact ⟨l, more, hls, hl⟩

theorem section_inj {kind kind' : Section} {ls ls' rest rest' : List Lexeme} {ds ds' : List Declaration}
    (h : IsSection kind (ls.map Lexeme.token) ds) (h' : IsSection kind' (ls'.map Lexeme.token) ds')
    (heq : ls ++ rest = ls' ++ rest') : ls = ls' ∧ rest = rest' ∧ ds = ds' := by
  obtain ⟨l, more, rfl, hl⟩ := lexemes_of_isSection h
  obtain ⟨l', more', rfl, hl'⟩ := lexemes_of_isSection h'
  have hmore : more ++ rest = more' ++ rest' := (List.cons.inj heq).2
  obtain rfl : l = l' := (List.cons.inj heq).1
  obtain rfl : kind = kind' := by
    rw [hl] at hl'
    cases kind <;> cases kind' <;> first | rfl | cases hl'
  rw [List.map_cons, hl] at h h'
  have hread := read_complete (c := .ofLexemes (more ++ rest)) h List.map_append
  have hread' := read_complete (c := .ofLexemes (more ++ rest)) h' (by rw [hmore]; exact List.map_append)
  obtain ⟨rfl, rfl, es, rfl, rfl⟩ := taken_inj hread hread' hmore
  exact ⟨rfl, rfl, rfl⟩

/-- Statements do not start like a section. -/
theorem section_ne_stmts {kind : Section} {ls ls' rest rest' : List Lexeme} {l : Lexeme} {ds : List Declaration}
    {body : List Stmt} (h : IsSection kind (ls.map Lexeme.token) ds) (h' : StmtsAt callable ls' body)
    (hl : l.token = .dedent) (heq : ls ++ rest = ls' ++ l :: rest') : False := by
  obtain ⟨m, more, rfl, hm⟩ := lexemes_of_isSection h
  have htokens : (Cursor.ofLexemes (m :: more ++ rest)).tokens = word kind :: (more ++ rest).map Lexeme.token := by
    rw [← hm]
    rfl
  obtain ⟨r, hr, -⟩ := section?_of_tokens htokens
  have hstmts : (Cursor.ofLexemes (m :: more ++ rest)).tokens =
      ls'.map Lexeme.token ++ .dedent :: rest'.map Lexeme.token := by
    rw [heq, Cursor.tokens, ← hl]
    exact List.map_append
  cases (section?_of_isStmts h'.isStmts hstmts).symm.trans hr

theorem BodyAt.unique {ls : List Lexeme} {locals : List Declaration} {body : List Stmt}
    (h : BodyAt callable ls locals body) :
    ∀ {ls' rest rest' : List Lexeme} {l l' : Lexeme} {locals' : List Declaration} {body' : List Stmt},
      BodyAt callable ls' locals' body' → l.token = .dedent → l'.token = .dedent →
      locals.map Declaration.unplaced = locals'.map Declaration.unplaced →
      Stmt.unplacedAll body = Stmt.unplacedAll body' → ls ++ l :: rest = ls' ++ l' :: rest' →
      ls = ls' ∧ locals = locals' ∧ body = body' ∧ l :: rest = l' :: rest' := by
  induction h with
  | declare hsection hplaces _ ih =>
    intro ls' rest rest' l l' locals' body' h' hl hl' hlocals hbody heq
    rw [List.append_assoc] at heq
    cases h' with
    | declare hsection' hplaces' hs' =>
      rw [List.append_assoc] at heq
      obtain ⟨rfl, htail, hdeclared⟩ := section_inj hsection hsection' heq
      obtain rfl := declarations_ext hdeclared (hplaces.trans hplaces'.symm)
      rw [List.map_append, List.map_append, List.append_cancel_left_eq] at hlocals
      obtain ⟨rfl, rfl, rfl, hrest⟩ := ih hs' hl hl' hlocals hbody htail
      exact ⟨rfl, rfl, rfl, hrest⟩
    | run h' => exact (section_ne_stmts hsection h' hl' heq).elim
  | run h =>
    intro ls' rest rest' l l' locals' body' h' hl hl' hlocals hbody heq
    cases h' with
    | declare hsection' hplaces' hs' =>
      rw [List.append_assoc] at heq
      exact (section_ne_stmts hsection' h hl heq.symm).elim
    | run h' =>
      obtain ⟨rfl, rfl, hrest⟩ := h.unique h' hbody heq
      exact ⟨rfl, rfl, rfl, hrest⟩

theorem FunctionAt.unique {ls ls' rest rest' : List Lexeme} {f f' : Function} (h : FunctionAt callable ls f)
    (h' : FunctionAt callable ls' f') (htree : f.unplaced = f'.unplaced) (heq : ls ++ rest = ls' ++ rest') :
    ls = ls' ∧ f = f' ∧ rest = rest' := by
  cases h with
  | mk name hopening hparameters hplaces hclosing hbody hdedent distinct =>
    cases h' with
    | mk name' hopening' hparameters' hplaces' hclosing' hbody' hdedent' distinct' =>
      obtain ⟨rfl, hdeclared, hlocals, hbodies, -⟩ := Function.mk.inj htree
      simp only [List.append_assoc, List.cons_append, List.nil_append] at heq
      obtain ⟨rfl, htail⟩ := List.append_inj heq
        (by simpa using congrArg List.length (hopening.trans hopening'.symm))
      obtain ⟨rfl, hclosed⟩ := parameterList_inj hparameters hparameters' htail
      obtain ⟨rfl, hinner⟩ := List.append_inj hclosed
        (by simpa using congrArg List.length (hclosing.trans hclosing'.symm))
      obtain ⟨rfl, rfl, rfl, hrest⟩ :=
        hbody.unique hbody' hdedent hdedent' hlocals (Body.user.inj hbodies) hinner
      obtain ⟨rfl, rfl⟩ := List.cons.inj hrest
      obtain rfl := declarations_ext hdeclared (hplaces.trans hplaces'.symm)
      exact ⟨rfl, rfl, rfl⟩

/-- Lexemes and the functions without places determine the places. -/
theorem FunctionsAt.unique {ls : List Lexeme} {fs : List Function} (h : FunctionsAt callable ls fs) :
    ∀ {fs' : List Function}, FunctionsAt callable ls fs' →
      fs.map Function.unplaced = fs'.map Function.unplaced → fs = fs' := by
  induction h with
  | nil =>
    intro fs' _ htree
    exact (List.map_eq_nil_iff.mp htree.symm).symm
  | cons h hs ih =>
    rename_i ls ms f fs
    intro fs' h' htree
    generalize hls : ls ++ ms = ls' at h'
    cases h' with
    | nil => cases htree
    | cons h' hs' =>
      obtain ⟨hfirst, hmore⟩ := List.cons.inj htree
      obtain ⟨rfl, rfl, rfl⟩ := h.unique h' hfirst hls
      rw [ih hs' hmore]

end

end Grammar

end Offside
