import Offside.Machine.Session
import Offside.Proofs.PlacedGrammar

/-!
# Trees without spans

A place is a stretch of bytes and a line. `unspanned` keeps the lines of a tree and takes out the stretches. An
execution shows lines, in its faults, and never a stretch: a program runs like itself without spans. The grammar with
places derives the tree without spans from lexemes of which no more is known than their tokens, and the lines of those
that have a text of their own.
-/

namespace Offside

/-- A place with its line alone. -/
def Location.unspanned (place : Location) : Location :=
  ⟨⟨0, 0⟩, place.line⟩

def Declaration.unspanned (d : Declaration) : Declaration :=
  { d with place := d.place.unspanned }

mutual

def Stmt.unspanned : Stmt → Stmt
  | .assign place target value => .assign place.unspanned target value
  | .branch place chain => .branch place.unspanned chain.unspanned
  | .count place counter first last body => .count place.unspanned counter first last (Stmt.unspannedAll body)
  | .loopWhile place condition body => .loopWhile place.unspanned condition (Stmt.unspannedAll body)
  | .loopUntil place condition body => .loopUntil place.unspanned condition (Stmt.unspannedAll body)
  | .call place function arguments => .call place.unspanned function arguments

def Chain.unspanned : Chain → Chain
  | .last condition body => .last condition (Stmt.unspannedAll body)
  | .link condition body next => .link condition (Stmt.unspannedAll body) next.unspanned

def Stmt.unspannedAll : List Stmt → List Stmt
  | [] => []
  | s :: ss => s.unspanned :: Stmt.unspannedAll ss

end

def Body.unspanned : Body → Body
  | .user statements => .user (Stmt.unspannedAll statements)
  | .builtin b => .builtin b

def Function.unspanned (f : Function) : Function where
  name := f.name
  parameters := f.parameters.map Declaration.unspanned
  locals := f.locals.map Declaration.unspanned
  body := f.body.unspanned
  place := f.place.unspanned

def Program.unspanned (p : Program) : Program :=
  ⟨p.functions.map Function.unspanned⟩

/-! ### Execution -/

namespace Function

theorem isOutput_unspanned (f : Function) (index : Nat) : f.unspanned.isOutput index = f.isOutput index := by
  obtain ⟨name, parameters, locals, body, place⟩ := f
  cases body with
  | builtin b => rfl
  | user statements =>
    simp only [isOutput, unspanned, Body.unspanned, List.getElem?_map, Option.map_map]
    rfl

theorem arity_unspanned (f : Function) : f.unspanned.arity = f.arity := by
  obtain ⟨name, parameters, locals, body, place⟩ := f
  cases body with
  | builtin b => rfl
  | user statements => exact congrArg some (List.length_map _)

theorem checkArguments_unspanned (f : Function) (name : String) (position : Nat) (arguments : List Argument) :
    f.unspanned.checkArguments name position arguments = f.checkArguments name position arguments := by
  induction arguments generalizing position with
  | nil => rfl
  | cons argument arguments ih => rw [checkArguments, checkArguments, isOutput_unspanned, ih]

theorem bindConstants_unspanned (s : Scope) (ds : List Declaration) :
    bindConstants s (ds.map Declaration.unspanned) = bindConstants s ds := by
  induction ds generalizing s with
  | nil => rfl
  | cons d ds ih =>
    cases hinit : d.init with
    | none => simp only [List.map_cons, bindConstants, Declaration.unspanned, hinit, ← ih]
    | some value => simp only [List.map_cons, bindConstants, Declaration.unspanned, hinit, ← ih]

/-- A variable that cannot be bound shows the line of its declaration, which stays. -/
theorem bindVariables_unspanned (s : Scope) (ds : List Declaration) :
    bindVariables s (ds.map Declaration.unspanned) = bindVariables s ds := by
  induction ds generalizing s with
  | nil => rfl
  | cons d ds ih =>
    have hvalue : firstValue d.unspanned = firstValue d := rfl
    rw [List.map_cons, bindVariables, bindVariables, hvalue]
    simp only [Declaration.unspanned, Location.unspanned, ih]

theorem bindParameters_unspanned (s : Scope) (ds : List Declaration) (values : List Value) :
    bindParameters s (ds.map Declaration.unspanned) values = bindParameters s ds values := by
  induction ds generalizing s values with
  | nil => rfl
  | cons d ds ih =>
    cases values with
    | nil => rfl
    | cons value values => simp only [List.map_cons, bindParameters, Declaration.unspanned, ← ih]

theorem scopeFor_unspanned (f : Function) (arguments : List Value) :
    f.unspanned.scopeFor arguments = f.scopeFor arguments := by
  have hconstants : f.unspanned.constants = f.constants.map Declaration.unspanned := List.filter_map
  have hvariables : f.unspanned.localVariables = f.localVariables.map Declaration.unspanned := List.filter_map
  rw [scopeFor, scopeFor, hconstants, hvariables, bindConstants_unspanned, bindVariables_unspanned]
  simp only [unspanned, bindParameters_unspanned]

end Function

namespace Scope

theorem collect_unspanned (s : Scope) (ds : List Declaration) (slots : List Value) :
    s.collect (ds.map Declaration.unspanned) slots = s.collect ds slots := by
  induction ds generalizing s slots with
  | nil => rfl
  | cons d ds ih =>
    cases slots with
    | nil => rfl
    | cons slot slots => simp only [List.map_cons, collect, Declaration.unspanned, ← ih]

theorem storeOutputs_unspanned (f : Function) (position : Nat) (arguments : List Argument) (slots : List Value)
    (s : Scope) :
    storeOutputs f.unspanned position arguments slots s = storeOutputs f position arguments slots s := by
  induction arguments generalizing position slots s with
  | nil => rfl
  | cons argument arguments ih =>
    cases slots with
    | nil => rfl
    | cons slot slots => simp only [storeOutputs, Function.isOutput_unspanned, ih]

end Scope

theorem Call.enter_unspanned (f : Function) (body : Act Frame) : enter f.unspanned body = enter f body := by
  funext ⟨slots, machine⟩
  simp only [enter, Function.scopeFor_unspanned]
  simp only [Function.unspanned, Scope.collect_unspanned]

theorem Program.function?_unspanned (p : Program) (name : String) :
    p.unspanned.function? name = (p.function? name).map Function.unspanned := by
  have hfind : p.unspanned.find? name = (p.find? name).map Function.unspanned := List.find?_map ..
  rw [function?, function?, hfind]
  cases p.find? name with
  | some f => rfl
  | none =>
    cases Builtin.ofName? name with
    | none => rfl
    | some b => rfl

/-- A call runs a function without spans if `invoke` does. -/
theorem Frame.call_unspanned {program : Program} {invoke invoke' : Function → Act Call}
    (hinvoke : ∀ f, invoke' f.unspanned = invoke f) (name : String) (arguments : List Argument) :
    call program.unspanned invoke' name arguments = call program invoke name arguments := by
  funext ⟨scope, machine⟩
  rw [call, call, Program.function?_unspanned]
  cases program.function? name with
  | none => rfl
  | some f =>
    have houtputs : Scope.storeOutputs f.unspanned = Scope.storeOutputs f := by
      funext position arguments slots s
      exact Scope.storeOutputs_unspanned f position arguments slots s
    simp only [Option.map_some, Function.checkArguments_unspanned, hinvoke, houtputs]

section

variable {program : Program} {invoke invoke' : Function → Act Call} (fuel : Nat)

mutual

theorem Stmt.run_unspanned (hinvoke : ∀ f, invoke' f.unspanned = invoke f) :
    ∀ s : Stmt, s.unspanned.run program.unspanned invoke' fuel = s.run program invoke fuel
  | .assign _ _ _ => rfl
  | .branch _ chain => by
    rw [Stmt.unspanned, Stmt.run, Stmt.run, Chain.run_unspanned hinvoke chain, Location.unspanned]
  | .count _ _ _ _ body => by
    rw [Stmt.unspanned, Stmt.run, Stmt.run, Stmt.runAll_unspanned hinvoke body, Location.unspanned]
  | .loopWhile _ _ body => by
    rw [Stmt.unspanned, Stmt.run, Stmt.run, Stmt.runAll_unspanned hinvoke body, Location.unspanned]
  | .loopUntil _ _ body => by
    rw [Stmt.unspanned, Stmt.run, Stmt.run, Stmt.runAll_unspanned hinvoke body, Location.unspanned]
  | .call _ name arguments => by
    rw [Stmt.unspanned, Stmt.run, Stmt.run, Frame.call_unspanned hinvoke name arguments, Location.unspanned]

theorem Chain.run_unspanned (hinvoke : ∀ f, invoke' f.unspanned = invoke f) :
    ∀ chain : Chain, chain.unspanned.run program.unspanned invoke' fuel = chain.run program invoke fuel
  | .last none body => by
    rw [Chain.unspanned, Chain.run, Chain.run, Stmt.runAll_unspanned hinvoke body]
  | .last (some _) body => by
    rw [Chain.unspanned, Chain.run, Chain.run, Stmt.runAll_unspanned hinvoke body]
  | .link none body _ => by
    rw [Chain.unspanned, Chain.run, Chain.run, Stmt.runAll_unspanned hinvoke body]
  | .link (some _) body next => by
    rw [Chain.unspanned, Chain.run, Chain.run, Stmt.runAll_unspanned hinvoke body, Chain.run_unspanned hinvoke next]

theorem Stmt.runAll_unspanned (hinvoke : ∀ f, invoke' f.unspanned = invoke f) :
    ∀ ss : List Stmt,
      Stmt.runAll program.unspanned invoke' fuel (Stmt.unspannedAll ss) = Stmt.runAll program invoke fuel ss
  | [] => rfl
  | s :: ss => by
    rw [Stmt.unspannedAll, Stmt.runAll, Stmt.runAll, Stmt.run_unspanned hinvoke s, Stmt.runAll_unspanned hinvoke ss]

end

end

/-- The induction is on the fuel, which limits how deep calls nest. -/
theorem Function.run_unspanned (program : Program) (limit fuel : Nat) (f : Function) :
    f.unspanned.run program.unspanned limit fuel = f.run program limit fuel := by
  induction fuel generalizing f with
  | zero => rfl
  | succ fuel ih =>
    funext call
    rw [run, run, takes, takes, arity_unspanned]
    obtain ⟨name, parameters, locals, body, place⟩ := f
    cases body with
    | builtin b => rfl
    | user body =>
      have hbody : Stmt.runAll program.unspanned (run program.unspanned limit fuel) fuel (Stmt.unspannedAll body) =
          Stmt.runAll program (run program limit fuel) fuel body := Stmt.runAll_unspanned fuel ih body
      have henter := Call.enter_unspanned ⟨name, parameters, locals, .user body, place⟩
      simp only [unspanned, Body.unspanned] at henter ⊢
      rw [hbody, henter]

namespace Session

theorem callNamed_unspanned (program : Program) (limit fuel : Nat) (name : String) :
    callNamed program.unspanned limit fuel name = callNamed program limit fuel name := by
  rw [callNamed, callNamed, Program.function?_unspanned]
  cases program.function? name with
  | none => rfl
  | some f => exact f.run_unspanned program limit fuel

theorem callAll_unspanned (program : Program) (limit fuel : Nat) (fs : List Function) :
    callAll program.unspanned limit fuel (fs.map Function.unspanned) = callAll program limit fuel fs := by
  induction fs with
  | nil => rfl
  | cons f fs ih =>
    funext machine
    rw [List.map_cons, callAll, callAll, Function.run_unspanned, ih]

theorem execute_unspanned (program : Program) (settings : Settings) (fuel : Nat) :
    execute program.unspanned settings fuel = execute program settings fuel := by
  have hentries : program.unspanned.functions.filter (·.parameters.isEmpty) =
      (program.functions.filter (·.parameters.isEmpty)).map Function.unspanned := by
    rw [Program.unspanned, List.filter_map]
    simp [Function.comp_def, Function.unspanned]
  cases hentry : settings.entry with
  | none => simp only [execute, hentry, hentries, callAll_unspanned]
  | some name => simp only [execute, hentry, callNamed_unspanned]

end Session

/-! ### The grammar -/

theorem Declaration.unplaced_unspanned (ds : List Declaration) :
    (ds.map Declaration.unspanned).map Declaration.unplaced = ds.map Declaration.unplaced := by
  rw [List.map_map]
  rfl

mutual

theorem Stmt.unplaced_unspanned : ∀ s : Stmt, s.unspanned.unplaced = s.unplaced
  | .assign _ _ _ => rfl
  | .branch _ chain => by
    rw [Stmt.unspanned, Stmt.unplaced, Stmt.unplaced, Chain.unplaced_unspanned chain]
  | .count _ _ _ _ body => by
    rw [Stmt.unspanned, Stmt.unplaced, Stmt.unplaced, Stmt.unplacedAll_unspanned body]
  | .loopWhile _ _ body => by
    rw [Stmt.unspanned, Stmt.unplaced, Stmt.unplaced, Stmt.unplacedAll_unspanned body]
  | .loopUntil _ _ body => by
    rw [Stmt.unspanned, Stmt.unplaced, Stmt.unplaced, Stmt.unplacedAll_unspanned body]
  | .call _ _ _ => rfl

theorem Chain.unplaced_unspanned : ∀ chain : Chain, chain.unspanned.unplaced = chain.unplaced
  | .last _ body => by
    rw [Chain.unspanned, Chain.unplaced, Chain.unplaced, Stmt.unplacedAll_unspanned body]
  | .link _ body next => by
    rw [Chain.unspanned, Chain.unplaced, Chain.unplaced, Stmt.unplacedAll_unspanned body,
      Chain.unplaced_unspanned next]

theorem Stmt.unplacedAll_unspanned :
    ∀ ss : List Stmt, Stmt.unplacedAll (Stmt.unspannedAll ss) = Stmt.unplacedAll ss
  | [] => rfl
  | s :: ss => by
    rw [Stmt.unspannedAll, Stmt.unplacedAll, Stmt.unplacedAll, Stmt.unplaced_unspanned s,
      Stmt.unplacedAll_unspanned ss]

end

theorem Function.unplaced_unspanned (f : Function) : f.unspanned.unplaced = f.unplaced := by
  obtain ⟨name, parameters, locals, body, place⟩ := f
  have hbody : body.unspanned.unplaced = body.unplaced := by
    cases body with
    | builtin b => rfl
    | user statements => exact congrArg Body.user (Stmt.unplacedAll_unspanned statements)
  simp only [unspanned, unplaced, Declaration.unplaced_unspanned, hbody]

/-- What counts of a lexeme in a tree without spans: its token and, if it has a text of its own, its line. -/
def Lexeme.outline (l : Lexeme) : Lexeme :=
  ⟨l.token, "", ⟨⟨0, 0⟩, if l.token.isContent then l.line else 0⟩⟩

theorem Lexeme.map_token_outline (ls : List Lexeme) : (ls.map outline).map token = ls.map token := by
  rw [List.map_map]
  rfl

/-- A node that starts with content is on the line of its first lexeme. -/
theorem Location.over_outline {ls : List Lexeme} {t : Token} {ts : List Token} (h : ls.map Lexeme.token = t :: ts)
    (ht : t.isContent = true) : Location.over (ls.map Lexeme.outline) = (Location.over ls).unspanned := by
  obtain ⟨l, more, rfl, rfl, -⟩ := List.map_eq_cons_iff.mp h
  have hlast : (more.map Lexeme.outline).getLastD l.outline = (more.getLastD l).outline := by
    rw [List.getLastD_eq_getLast?, List.getLastD_eq_getLast?, List.getLast?_map, Option.getD_map]
  rw [List.map_cons, Location.over, Location.over, hlast]
  simp [Lexeme.outline, Lexeme.span, Lexeme.line, Span.merge, unspanned, ht]

namespace Grammar

theorem namePlaces_outline (ls : List Lexeme) :
    namePlaces (ls.map Lexeme.outline) = (namePlaces ls).map Location.unspanned := by
  have hfilter : (ls.map Lexeme.outline).filter (fun l => isName l.token) =
      (ls.filter fun l => isName l.token).map Lexeme.outline := List.filter_map
  rw [namePlaces, namePlaces, hfilter, List.map_map, List.map_map]
  refine List.map_congr_left fun l hl => ?_
  have hcontent : l.token.isContent = true := by
    have hname := (List.mem_filter.mp hl).2
    cases htoken : l.token <;> simp_all [isName, Token.isContent]
  simp [Lexeme.outline, Location.unspanned, Lexeme.line, hcontent]

/-- The places of names without their stretches. -/
theorem places_unspanned {ds : List Declaration} {ls : List Lexeme}
    (h : ds.map Declaration.place = namePlaces ls) :
    (ds.map Declaration.unspanned).map Declaration.place = namePlaces (ls.map Lexeme.outline) := by
  rw [namePlaces_outline, ← h, List.map_map, List.map_map]
  rfl

theorem isContent_of_isStmt {callable : String → Bool} {ts : List Token} {s : Stmt} (h : IsStmt callable ts s) :
    ∃ t us, ts = t :: us ∧ t.isContent = true := by
  cases h with
  | assign _ htarget _ => cases htarget <;> exact ⟨_, _, rfl, rfl⟩
  | _ => exact ⟨_, _, rfl, rfl⟩

section

variable {callable : String → Bool}

theorem StmtAt.over_outline {ls : List Lexeme} {s : Stmt} (h : StmtAt callable ls s) :
    Location.over (ls.map Lexeme.outline) = (Location.over ls).unspanned := by
  obtain ⟨t, us, htokens, ht⟩ := isContent_of_isStmt h.isStmt
  exact Location.over_outline htokens ht

mutual

theorem StmtAt.outline {ls : List Lexeme} {s : Stmt} :
    StmtAt callable ls s → StmtAt callable (ls.map Lexeme.outline) s.unspanned
  | .assign h => by
    rw [Stmt.unspanned, ← (StmtAt.assign h).over_outline]
    exact .assign (by rwa [Lexeme.map_token_outline])
  | .call h => by
    rw [Stmt.unspanned, ← (StmtAt.call h).over_outline]
    exact .call (by rwa [Lexeme.map_token_outline])
  | .branch hword h => by
    rw [Stmt.unspanned, ← (StmtAt.branch hword h).over_outline, List.map_cons]
    exact .branch hword h.outline
  | .count counter hhead hfirst hlast hbody => by
    rw [Stmt.unspanned, ← (StmtAt.count counter hhead hfirst hlast hbody).over_outline, List.map_append]
    exact .count counter (by rwa [Lexeme.map_token_outline]) hfirst hlast hbody.outline
  | .loopWhile hhead h hbody => by
    rw [Stmt.unspanned, ← (StmtAt.loopWhile hhead h hbody).over_outline, List.map_append]
    exact .loopWhile (by rwa [Lexeme.map_token_outline]) h hbody.outline
  | .loopUntil hhead h hbody => by
    rw [Stmt.unspanned, ← (StmtAt.loopUntil hhead h hbody).over_outline, List.map_append]
    exact .loopUntil (by rwa [Lexeme.map_token_outline]) h hbody.outline

theorem ChainAt.outline {ls : List Lexeme} {chain : Chain} :
    ChainAt callable ls chain → ChainAt callable (ls.map Lexeme.outline) chain.unspanned
  | .last hhead h hbody => by
    rw [Chain.unspanned, List.map_append]
    exact .last (by rwa [Lexeme.map_token_outline]) h hbody.outline
  | .otherwise hhead h hbody hword hother => by
    rw [Chain.unspanned, Chain.unspanned, List.map_append, List.map_append, List.map_cons]
    exact .otherwise (by rwa [Lexeme.map_token_outline]) h hbody.outline hword hother.outline
  | .elsif hhead h hbody hword hnext => by
    rw [Chain.unspanned, List.map_append, List.map_append, List.map_cons]
    exact .elsif (by rwa [Lexeme.map_token_outline]) h hbody.outline hword hnext.outline

theorem BlockAt.outline {ls : List Lexeme} {body : List Stmt} :
    BlockAt callable ls body → BlockAt callable (ls.map Lexeme.outline) (Stmt.unspannedAll body)
  | .mk hlineEnd hindent hdedent h => by
    rw [List.map_append, List.map_cons, List.map_cons, List.map_singleton]
    exact .mk hlineEnd hindent hdedent h.outline

theorem StmtsAt.outline {ls : List Lexeme} {body : List Stmt} :
    StmtsAt callable ls body → StmtsAt callable (ls.map Lexeme.outline) (Stmt.unspannedAll body)
  | .nil => .nil
  | .cons h hs => by
    rw [List.map_append]
    exact .cons h.outline hs.outline

end

theorem BodyAt.outline {ls : List Lexeme} {locals : List Declaration} {body : List Stmt}
    (h : BodyAt callable ls locals body) :
    BodyAt callable (ls.map Lexeme.outline) (locals.map Declaration.unspanned) (Stmt.unspannedAll body) := by
  induction h with
  | declare h hplaces _ ih =>
    rw [List.map_append, List.map_append]
    exact .declare (by rwa [Lexeme.map_token_outline, Declaration.unplaced_unspanned]) (places_unspanned hplaces) ih
  | run h => exact .run h.outline

theorem FunctionAt.outline {ls : List Lexeme} {f : Function} (h : FunctionAt callable ls f) :
    FunctionAt callable (ls.map Lexeme.outline) f.unspanned := by
  cases h with
  | mk name hopening hparameters hplaces hclosing hbody hdedent distinct =>
    rename_i opening ls closing ms dedent parameters locals body
    have hplace : Location.over ((opening ++ ls ++ closing ++ ms ++ [dedent]).map Lexeme.outline) =
        (Location.over (opening ++ ls ++ closing ++ ms ++ [dedent])).unspanned :=
      Location.over_outline (by simp only [List.map_append, hopening, List.cons_append]; rfl) rfl
    have hnames : ((parameters.map Declaration.unspanned ++ locals.map Declaration.unspanned).map
        Declaration.name).Nodup := by
      rw [← List.map_append, List.map_map]
      exact distinct
    rw [Function.unspanned, Body.unspanned, ← hplace]
    simp only [List.map_append, List.map_singleton]
    exact .mk name (by rwa [Lexeme.map_token_outline])
      (by rwa [Lexeme.map_token_outline, Declaration.unplaced_unspanned]) (places_unspanned hplaces)
      (by rwa [Lexeme.map_token_outline]) hbody.outline hdedent hnames

/-- The tree without spans is derived from what counts of the lexemes. -/
theorem FunctionsAt.outline {ls : List Lexeme} {fs : List Function} (h : FunctionsAt callable ls fs) :
    FunctionsAt callable (ls.map Lexeme.outline) (fs.map Function.unspanned) := by
  induction h with
  | nil => exact .nil
  | cons h _ ih =>
    rw [List.map_append]
    exact .cons h.outline ih

/-- Lexemes of one outline and a tree without places determine the tree without spans. -/
theorem FunctionsAt.unspanned_unique {ls ls' : List Lexeme} {fs fs' : List Function} (h : FunctionsAt callable ls fs)
    (h' : FunctionsAt callable ls' fs') (hlexemes : ls.map Lexeme.outline = ls'.map Lexeme.outline)
    (htree : fs.map Function.unplaced = fs'.map Function.unplaced) :
    fs.map Function.unspanned = fs'.map Function.unspanned := by
  have houtline := h'.outline
  rw [← hlexemes] at houtline
  refine h.outline.unique houtline ?_
  simpa only [List.map_map, Function.comp_def, Function.unplaced_unspanned] using htree

end

end Grammar

end Offside
