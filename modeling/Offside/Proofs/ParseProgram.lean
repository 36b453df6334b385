import Offside.Proofs.ParseDeclaration
import Offside.Proofs.ParseStmt

/-!
# Reading programs

The reader of a program takes what the grammar derives, and reads what it derives. Which names are callable is
known before any function is read: a first pass collects the names behind the word `define`. The grammar has this
word at the start of a function only, so that the names are those of the functions, in their order.
-/

namespace Offside.Parse

open Grammar

variable {c : Cursor}

/-! ### The names of a function -/

@[simp] theorem name_unplaced (d : Declaration) : d.unplaced.name = d.name := rfl

@[simp] theorem names_unplaced (ds : List Declaration) :
    (ds.map Declaration.unplaced).map Declaration.name = ds.map Declaration.name := by
  simp

theorem reserve_sound {taken used : List String} {ds : List Declaration} (h : reserve taken ds = .ok used)
    (htaken : taken.Nodup) : used = (ds.map Declaration.name).reverse ++ taken ∧ used.Nodup := by
  induction ds generalizing taken with
  | nil =>
    cases h
    exact ⟨rfl, htaken⟩
  | cons d ds ih =>
    rw [reserve] at h
    split at h
    · cases h
    · rename_i hnew
      have hnew : d.name ∉ taken := by simpa using hnew
      obtain ⟨rfl, hused⟩ := ih h (List.nodup_cons.mpr ⟨hnew, htaken⟩)
      refine ⟨?_, hused⟩
      simp

theorem reserve_complete {taken : List String} {ds : List Declaration}
    (h : ((ds.map Declaration.name).reverse ++ taken).Nodup) :
    reserve taken ds = .ok ((ds.map Declaration.name).reverse ++ taken) := by
  induction ds generalizing taken with
  | nil => rfl
  | cons d ds ih =>
    have h : ((ds.map Declaration.name).reverse ++ d.name :: taken).Nodup := by simpa using h
    have hnew : d.name ∉ taken := (List.nodup_cons.mp (List.nodup_append.mp h).2.1).1
    rw [reserve, if_neg (by simpa using hnew), ih h]
    simp

/-! ### Bodies -/

/-- How the inside of a function is read: sections, each with names that are not yet taken, and then statements. -/
inductive ReadsBody (defined : List String) :
    List String → (c : Cursor) → Reading (List Declaration × List Stmt) c → Prop where
  | declare {taken used : List String} {c : Cursor} {opening : Reading Section c}
      {declared : Reading (List Declaration) opening.next}
      {rest : Reading (List Declaration × List Stmt) declared.next} (hopening : section? c = some opening)
      (hdeclared : opening.value.read opening.next = .ok declared) (hused : reserve taken declared.value = .ok used)
      (hrest : ReadsBody defined used declared.next rest) :
      ReadsBody defined taken c
        ((opening.andThen declared ()).andThen rest (declared.value ++ rest.value.1, rest.value.2))
  | run {taken : List String} {c : Cursor} {body : Reading (List Stmt) c}
      (hbody : statements defined .functionEnd c = .ok body) :
      ReadsBody defined taken c (body.map fun ss => ([], ss))

theorem readsBody {defined taken : List String} {c : Cursor} {r : Reading (List Declaration × List Stmt) c}
    (h : functionBody defined taken c = .ok r) : ReadsBody defined taken c r := by
  rw [functionBody] at h
  split at h
  · rename_i opening hopening
    obtain ⟨declared, hdeclared, h⟩ := bind_eq_ok.mp h
    obtain ⟨used, hused, h⟩ := bind_eq_ok.mp h
    obtain ⟨rest, hrest, h⟩ := bind_eq_ok.mp h
    cases h
    have hshorter := Nat.lt_trans declared.shorter opening.shorter
    exact .declare hopening hdeclared hused (readsBody hrest)
  · obtain ⟨body, hbody, h⟩ := bind_eq_ok.mp h
    cases h
    exact .run hbody
termination_by c.ahead.length

theorem functionBody_sound {defined taken : List String} {c : Cursor} {r : Reading (List Declaration × List Stmt) c}
    (h : functionBody defined taken c = .ok r) (htaken : taken.Nodup) (hblocks : ¬ [.indent, .dedent] <:+: c.tokens) :
    ∃ ts, c.tokens = ts ++ .dedent :: r.next.tokens ∧
      IsBody (isCallable defined) ts (r.value.1.map Declaration.unplaced) (Stmt.unplacedAll r.value.2) ∧
      ((r.value.1.map Declaration.name).reverse ++ taken).Nodup := by
  replace h := readsBody h
  induction h with
  | declare hopening hdeclared hused hrest ih =>
    rename_i taken used c opening declared rest
    have hc := tokens_of_section? hopening
    have hsuffix : opening.next.tokens <:+ c.tokens := ⟨[word opening.value], hc.symm⟩
    obtain ⟨ts, hts, hsection⟩ := read_sound hdeclared fun hempty => hblocks (hempty.trans hsuffix.isInfix)
    obtain ⟨rfl, hnodup⟩ := reserve_sound hused htaken
    have hsuffix : declared.next.tokens <:+ c.tokens := ⟨word opening.value :: ts, by rw [hc, hts]; rfl⟩
    obtain ⟨us, hus, hbody, hdistinct⟩ := ih hnodup fun hempty => hblocks (hempty.trans hsuffix.isInfix)
    refine ⟨word opening.value :: ts ++ us, ?_, ?_, ?_⟩
    · rw [hc, hts, hus]
      simp [Reading.andThen]
    · simp only [Reading.andThen, List.map_append]
      exact .declare hsection hbody
    · simpa [Reading.andThen] using hdistinct
  | run hbody =>
    obtain ⟨ts, hts, hstmts⟩ := statements_sound hbody
    exact ⟨ts, hts, .run hstmts, htaken⟩

theorem section?_of_isStmts {callable : String → Bool} {ts rest : List Token} {body : List Stmt}
    (h : IsStmts callable ts body) (hc : c.tokens = ts ++ .dedent :: rest) : section? c = none := by
  have hhead : ∀ {us : List Token} {s : Stmt}, IsStmt callable us s → ∀ kind : Section, ∀ vs,
      us ≠ word kind :: vs := by
    intro us s hs kind vs
    cases hs with
    | assign _ htarget _ => cases htarget <;> cases kind <;> nofun
    | _ => cases kind <;> nofun
  refine section?_eq_none fun kind hkind => ?_
  rw [hc] at hkind
  cases h with
  | nil => cases kind <;> cases hkind
  | cons hs _ =>
    obtain ⟨t, vs, rfl, -⟩ := head_of_isStmt hs
    exact hhead hs kind vs (by rw [Option.some.inj hkind])

theorem functionBody_complete {defined : List String} {ts : List Token} {locals : List Declaration}
    {body : List Stmt} (h : IsBody (isCallable defined) ts locals body) :
    ∀ {c : Cursor} {rest : List Token} {taken : List String}, c.tokens = ts ++ .dedent :: rest →
      ((locals.map Declaration.name).reverse ++ taken).Nodup →
      Gives (functionBody defined taken c)
        (fun r => r.1.map Declaration.unplaced = locals ∧ Stmt.unplacedAll r.2 = body) rest := by
  induction h with
  | declare hsection hbody ih =>
    rename_i kind ts us ds es body
    intro c rest taken hc hdistinct
    obtain ⟨vs, rfl⟩ : ∃ vs, ts = word kind :: vs := by cases hsection <;> exact ⟨_, rfl⟩
    have hc : c.tokens = word kind :: (vs ++ (us ++ .dedent :: rest)) := by simpa using hc
    obtain ⟨opening, hopening, rfl, hnext⟩ := section?_of_tokens hc
    have hdistinct : ((es.map Declaration.name).reverse ++ ((ds.map Declaration.name).reverse ++ taken)).Nodup := by
      simpa using hdistinct
    rw [functionBody, hopening]
    refine (read_complete hsection hnext).bind fun declared hdeclared hnext => ?_
    have hnames : declared.value.map Declaration.name = ds.map Declaration.name := by
      rw [← hdeclared, names_unplaced]
    rw [← hnames] at hdistinct
    rw [reserve_complete (List.nodup_append.mp hdistinct).2.1]
    refine (ih hnext hdistinct).bind fun more hmore hnext => gives_pure ⟨?_, hmore.2⟩ hnext
    rw [← hdeclared, ← hmore.1, ← List.map_append]
    rfl
  | run h =>
    intro c rest taken hc hdistinct
    rw [functionBody, section?_of_isStmts h hc]
    exact (statements_complete defined _ h hc).bind fun ss hss hnext => gives_pure ⟨rfl, hss⟩ hnext

/-! ### Functions -/

/-- How a function is read: a head with parameters of different names, and the inside. -/
inductive ReadsFunction (defined : List String) (c : Cursor) : Reading Function c → Prop where
  | mk {define : Reading Lexeme c} {name : Reading (String × Lexeme) define.next}
      {declared : Reading (List Declaration) name.next} {lineEnd : Reading Lexeme declared.next}
      {indent : Reading Lexeme lineEnd.next} {taken : List String}
      {body : Reading (List Declaration × List Stmt) indent.next} (hdefine : c.expectWord .define .define = .ok define)
      (hname : define.next.expectName .functionName = .ok name) (hdeclared : parameterList name.next = .ok declared)
      (hlineEnd : declared.next.expectLineEnd = .ok lineEnd)
      (hindent : lineEnd.next.expect .indent .functionBody = .ok indent)
      (htaken : reserve [] declared.value = .ok taken) (hbody : functionBody defined taken indent.next = .ok body) :
      ReadsFunction defined c
        (((((define.andThen name ()).andThen declared ()).andThen lineEnd ()).andThen indent ()).andThen body
          ⟨name.value.1, declared.value, body.value.1, .user body.value.2, placeOf define.value body.next⟩)

theorem readsFunction {defined : List String} {r : Reading Function c} (h : function defined c = .ok r) :
    ReadsFunction defined c r := by
  obtain ⟨define, hdefine, h⟩ := bind_eq_ok.mp h
  obtain ⟨name, hname, h⟩ := bind_eq_ok.mp h
  obtain ⟨declared, hdeclared, h⟩ := bind_eq_ok.mp h
  obtain ⟨lineEnd, hlineEnd, h⟩ := bind_eq_ok.mp h
  obtain ⟨indent, hindent, h⟩ := bind_eq_ok.mp h
  obtain ⟨taken, htaken, h⟩ := bind_eq_ok.mp h
  obtain ⟨body, hbody, h⟩ := bind_eq_ok.mp h
  cases h
  exact .mk hdefine hname hdeclared hlineEnd hindent htaken hbody

theorem function_sound {defined : List String} {r : Reading Function c} (h : function defined c = .ok r)
    (hblocks : ¬ [.indent, .dedent] <:+: c.tokens) :
    ∃ ts, c.tokens = ts ++ r.next.tokens ∧ IsFunction (isCallable defined) ts r.value.unplaced := by
  obtain ⟨hdefine, hname, hdeclared, hlineEnd, hindent, htaken, hbody⟩ := readsFunction h
  rename_i define name declared lineEnd indent taken body
  obtain ⟨ts, hts, hparameters⟩ := parameterList_sound hdeclared
  obtain ⟨rfl, hnodup⟩ := reserve_sound htaken List.nodup_nil
  have hc : c.tokens = .keyword .define :: .name name.value.1 :: ts ++ .newline :: .indent :: indent.next.tokens := by
    rw [Cursor.tokens_of_expect hdefine, Cursor.tokens_of_expectName hname, hts, Cursor.tokens_of_expect hlineEnd,
      Cursor.tokens_of_expect hindent]
    rfl
  have hsuffix : indent.next.tokens <:+ c.tokens :=
    ⟨.keyword .define :: .name name.value.1 :: ts ++ [.newline, .indent], by rw [hc]; simp⟩
  obtain ⟨us, hus, hisBody, hdistinct⟩ :=
    functionBody_sound hbody hnodup fun hempty => hblocks (hempty.trans hsuffix.isInfix)
  refine ⟨_, ?_, .mk name.value.1 hparameters hisBody ?_⟩
  · rw [hc, hus]
    simp [Reading.andThen]
  · have hdistinct : ((declared.value ++ body.value.1).map Declaration.name).reverse.Nodup := by
      simpa using hdistinct
    rw [← List.map_append, names_unplaced]
    exact (List.reverse_perm _).nodup_iff.mp hdistinct

theorem function_complete {defined : List String} {ts rest : List Token} {f : Function}
    (h : IsFunction (isCallable defined) ts f) (hc : c.tokens = ts ++ rest) :
    Gives (function defined c) (fun g => g.unplaced = f) rest := by
  cases h with
  | mk name hparameters hbody distinct =>
    rename_i ts us parameters locals body
    have hc : c.tokens = .keyword .define :: .name name :: (ts ++ .newline :: .indent :: (us ++ .dedent :: rest)) := by
      simpa using hc
    refine (Cursor.gives_expect hc).bind fun define _ hnext => ?_
    refine (Cursor.gives_expectName hnext).bind fun n hn hnext => ?_
    refine (parameterList_complete hparameters hnext).bind fun declared hdeclared hnext => ?_
    refine (Cursor.gives_expect hnext).bind fun lineEnd _ hnext => ?_
    refine (Cursor.gives_expect hnext).bind fun indent _ hnext => ?_
    have hnames : declared.value.map Declaration.name = parameters.map Declaration.name := by
      rw [← hdeclared, names_unplaced]
    have hdistinct := (List.reverse_perm _).nodup_iff.mpr distinct
    rw [List.map_append, List.reverse_append, ← hnames] at hdistinct
    have hreserve : reserve [] declared.value = .ok ((declared.value.map Declaration.name).reverse ++ []) :=
      reserve_complete (by simpa using (List.nodup_append.mp hdistinct).2.1)
    rw [List.append_nil] at hreserve
    rw [hreserve]
    refine (functionBody_complete hbody hnext hdistinct).bind fun b hb hnext => gives_pure ?_ hnext
    simp only [Reading.andThen, Function.unplaced, Body.unplaced, hdeclared, hb.1, hb.2, hn]

theorem define_eq_ok {p q : Program} {f : Function} : p.define f = .ok q ↔
    Builtin.ofName? f.name = none ∧ f.name ∉ p.functions.map Function.name ∧ q = ⟨p.functions ++ [f]⟩ := by
  rw [Program.define]
  split
  · rename_i hbuiltin
    refine ⟨nofun, fun h => ?_⟩
    rw [h.1] at hbuiltin
    cases hbuiltin
  · rename_i hbuiltin
    have hbuiltin : Builtin.ofName? f.name = none := by simpa using hbuiltin
    split
    · rename_i hfound
      refine ⟨nofun, fun h => absurd ?_ h.2.1⟩
      obtain ⟨g, hg⟩ := Option.isSome_iff_exists.mp hfound
      refine List.mem_map.mpr ⟨g, List.mem_of_find?_eq_some hg, ?_⟩
      simpa using List.find?_some hg
    · rename_i hfound
      have hnew : f.name ∉ p.functions.map Function.name := by
        intro hmem
        obtain ⟨g, hg, hname⟩ := List.mem_map.mp hmem
        exact hfound (List.find?_isSome.mpr ⟨g, hg, by simpa using hname⟩)
      simp [hbuiltin, hnew, eq_comm]

/-- Names that the functions of a program can have: all different, and none of them built in. -/
def DistinctNames (names : List String) : Prop :=
  names.Nodup ∧ ∀ name ∈ names, Builtin.ofName? name = none

theorem DistinctNames.snoc {names : List String} {name : String} (h : DistinctNames names) (hnew : name ∉ names)
    (hbuiltin : Builtin.ofName? name = none) : DistinctNames (names ++ [name]) := by
  constructor
  · refine List.nodup_append.mpr ⟨h.1, by simp, ?_⟩
    intro a ha b hb
    rw [List.mem_singleton.mp hb]
    rintro rfl
    exact hnew ha
  · intro a ha
    rcases List.mem_append.mp ha with ha | ha
    · exact h.2 a ha
    · rw [List.mem_singleton.mp ha]
      exact hbuiltin

/-- How functions are read up to the end of the input: one after the other, each with a name that is not yet taken. -/
inductive ReadsFunctions (defined : List String) : Program → Cursor → Program → Prop where
  | done {program : Program} {c : Cursor} (hempty : c.ahead = []) : ReadsFunctions defined program c program
  | next {program p : Program} {c : Cursor} {f : Reading Function c} (hf : function defined c = .ok f)
      (hbuiltin : Builtin.ofName? f.value.name = none) (hnew : f.value.name ∉ program.functions.map Function.name)
      (hrest : ReadsFunctions defined ⟨program.functions ++ [f.value]⟩ f.next p) : ReadsFunctions defined program c p

section

variable {defined : List String} {p : Program}

theorem readsFunctions {program : Program} {c : Cursor} (h : functions defined program c = .ok p) :
    ReadsFunctions defined program c p := by
  rw [functions] at h
  split at h
  · rename_i hempty
    cases h
    exact .done (List.isEmpty_iff.mp hempty)
  · obtain ⟨f, hf, h⟩ := bind_eq_ok.mp h
    split at h
    · cases h
    · rename_i extended hdefine
      obtain ⟨hbuiltin, hnew, rfl⟩ := define_eq_ok.mp hdefine
      have hshorter := f.shorter
      exact .next hf hbuiltin hnew (readsFunctions h)
termination_by c.ahead.length

variable {program : Program}

theorem distinctNames_functions (h : functions defined program c = .ok p)
    (hprogram : DistinctNames (program.functions.map Function.name)) :
    DistinctNames (p.functions.map Function.name) := by
  replace h := readsFunctions h
  induction h with
  | done => exact hprogram
  | next hf hbuiltin hnew hrest ih =>
    refine ih ?_
    simpa using hprogram.snoc hnew hbuiltin

/-- Every function of a program is read at some place. -/
theorem mem_functions (h : functions defined program c = .ok p) {f : Function} (hf : f ∈ p.functions) :
    f ∈ program.functions ∨ ∃ (d : Cursor) (r : Reading Function d), function defined d = .ok r ∧ r.value = f := by
  replace h := readsFunctions h
  induction h with
  | done => exact .inl hf
  | next hread hbuiltin hnew hrest ih =>
    refine (ih hf).elim (fun hmem => ?_) .inr
    rcases List.mem_append.mp hmem with hmem | hmem
    · exact .inl hmem
    · exact .inr ⟨_, _, hread, (List.mem_singleton.mp hmem).symm⟩

theorem functions_sound (h : functions defined program c = .ok p)
    (hprogram : DistinctNames (program.functions.map Function.name)) (hblocks : ¬ [.indent, .dedent] <:+: c.tokens) :
    ∃ fs, p.functions = program.functions ++ fs ∧
      IsFunctions (isCallable defined) c.tokens (fs.map Function.unplaced) ∧
      DistinctNames (p.functions.map Function.name) := by
  have hdistinct := distinctNames_functions h hprogram
  replace h := readsFunctions h
  clear hprogram
  induction h with
  | done hempty =>
    refine ⟨[], by simp, ?_, hdistinct⟩
    rw [Cursor.tokens, hempty]
    exact .nil
  | next hf hbuiltin hnew hrest ih =>
    rename_i program p c f
    obtain ⟨ts, hts, hfunction⟩ := function_sound hf hblocks
    have hsuffix : f.next.tokens <:+ c.tokens := ⟨ts, hts.symm⟩
    obtain ⟨fs, hfs, hfunctions, -⟩ := ih (fun hempty => hblocks (hempty.trans hsuffix.isInfix)) hdistinct
    refine ⟨f.value :: fs, by rw [hfs]; simp, ?_, hdistinct⟩
    rw [hts]
    exact .cons hfunction hfunctions

end

theorem functions_complete {defined : List String} {ts : List Token} {fs : List Function}
    (h : IsFunctions (isCallable defined) ts fs) :
    ∀ {program : Program} {c : Cursor}, c.tokens = ts → DistinctNames ((program.functions ++ fs).map Function.name) →
      ∃ p, functions defined program c = .ok p ∧
        p.functions.map Function.unplaced = program.functions.map Function.unplaced ++ fs := by
  induction h with
  | nil =>
    intro program c hc _
    refine ⟨program, ?_, by simp⟩
    rw [functions, if_pos]
    rw [Cursor.isEmpty_ahead, hc]
    rfl
  | cons h hs ih =>
    rename_i ts us f fs
    intro program c hc hdistinct
    obtain ⟨g, hg, hvalue, hnext⟩ := function_complete h hc
    have hname : g.value.name = f.name := by rw [← hvalue]; rfl
    have hmore : DistinctNames ((program.functions ++ [g.value] ++ fs).map Function.name) := by
      simpa [hname] using hdistinct
    have hdefine : program.define g.value = .ok ⟨program.functions ++ [g.value]⟩ := by
      refine define_eq_ok.mpr ⟨hmore.2 g.value.name (by simp), fun hmem => ?_, rfl⟩
      have hnodup := hmore.1
      simp only [List.map_append, List.append_assoc] at hnodup
      exact (List.nodup_append.mp hnodup).2.2 _ hmem _ (by simp) rfl
    have hahead : ¬ c.ahead.isEmpty = true := by
      rw [Cursor.isEmpty_ahead, hc]
      cases h
      nofun
    obtain ⟨p, hp, hfunctions⟩ := ih hnext hmore
    refine ⟨p, ?_, ?_⟩
    · rw [functions, if_neg hahead]
      refine bind_eq_ok.mpr ⟨g, hg, ?_⟩
      simp only [hdefine]
      exact hp
    · rw [hfunctions, ← hvalue]
      simp

/-! ### The names that are defined -/

theorem define_notMem_literal {ts : List Token} {l : Literal} (h : IsLiteral ts l) : .keyword .define ∉ ts := by
  cases h with
  | plain h => cases h <;> simp
  | least => simp
  | negated h => cases h <;> simp

theorem define_notMem_type {ts : List Token} {type : DataType} (h : IsType ts type) : .keyword .define ∉ ts := by
  cases h with
  | scalar h => cases h <;> simp
  | array h => cases h <;> simp

/-- Tokens that stand between lines, blocks and functions, and never inside an expression. -/
def divides : Token → Bool
  | .keyword .define | .newline | .indent | .dedent => true
  | _ => false

theorem not_divides_expr {level : Level} {ts : List Token} {e : Expr} (h : IsExpr level ts e) :
    ∀ t ∈ ts, divides t = false := by
  induction h with
  | literal h => cases h <;> simp [divides]
  | times hl ht hr ihl ihr => cases ht <;> grind [divides]
  | plus hl ht hr ihl ihr => cases ht <;> grind [divides]
  | _ => grind [divides]

theorem not_divides_comparison {ts : List Token} {e : Expr} (h : IsComparison ts e) : ∀ t ∈ ts, divides t = false := by
  cases h with
  | ofSum h => exact not_divides_expr h
  | compare hl ht hr => cases ht <;> grind [divides, not_divides_expr hl, not_divides_expr hr]

theorem not_divides_arguments {ts : List Token} {as : List Argument} (h : IsArguments ts as) :
    ∀ t ∈ ts, divides t = false := by
  have not_divides_argument : ∀ {ts : List Token} {a : Argument}, IsArgument ts a → ∀ t ∈ ts, divides t = false := by
    intro ts a h
    cases h with
    | value h => exact not_divides_comparison h
    | place h => grind [divides, not_divides_comparison h]
  induction h with
  | one h => exact not_divides_argument h
  | more h hs ih => grind [divides, not_divides_argument h]

theorem not_divides_call {ts : List Token} {as : List Argument} (h : IsCall ts as) : ∀ t ∈ ts, divides t = false := by
  cases h with
  | none => nofun
  | bare h => exact not_divides_arguments h
  | enclosedNone => simp [divides]
  | enclosed h => grind [divides, not_divides_arguments h]

theorem not_divides_target {ts : List Token} {target : Target} (h : IsTarget ts target) :
    ∀ t ∈ ts, divides t = false := by
  cases h with
  | named name => simp [divides]
  | element name h => grind [divides, not_divides_expr h]

theorem define_notMem {ts : List Token} (h : ∀ t ∈ ts, divides t = false) : .keyword .define ∉ ts :=
  fun hmem => nomatch h _ hmem

mutual

theorem define_notMem_stmt {callable : String → Bool} {ts : List Token} {s : Stmt} :
    IsStmt callable ts s → .keyword .define ∉ ts
  | .assign _ htarget hvalue => by
    simp [define_notMem (not_divides_target htarget), define_notMem (not_divides_comparison hvalue)]
  | .call _ h => by simp [define_notMem (not_divides_call h)]
  | .branch h => by simp [define_notMem_chain h]
  | .count _ hfirst hlast hbody => by
    simp [define_notMem (not_divides_expr hfirst), define_notMem (not_divides_expr hlast), define_notMem_block hbody]
  | .loopWhile h hbody => by simp [define_notMem (not_divides_comparison h), define_notMem_block hbody]
  | .loopUntil h hbody => by simp [define_notMem (not_divides_comparison h), define_notMem_block hbody]

theorem define_notMem_chain {callable : String → Bool} {ts : List Token} {links : Chain} :
    IsChain callable ts links → .keyword .define ∉ ts
  | .last h hbody => by simp [define_notMem (not_divides_comparison h), define_notMem_block hbody]
  | .otherwise h hbody hother => by
    simp [define_notMem (not_divides_comparison h), define_notMem_block hbody, define_notMem_block hother]
  | .elsif h hbody hnext => by
    simp [define_notMem (not_divides_comparison h), define_notMem_block hbody, define_notMem_chain hnext]

theorem define_notMem_block {callable : String → Bool} {ts : List Token} {body : List Stmt} :
    IsBlock callable ts body → .keyword .define ∉ ts
  | .mk h => by simp [define_notMem_stmts h]

theorem define_notMem_stmts {callable : String → Bool} {ts : List Token} {body : List Stmt} :
    IsStmts callable ts body → .keyword .define ∉ ts
  | .nil => nofun
  | .cons h hs => by simp [define_notMem_stmt h, define_notMem_stmts hs]

end

theorem define_notMem_names {ts : List Token} {all : List String} (h : IsNames ts all) : .keyword .define ∉ ts := by
  induction h with
  | one name => simp
  | more name h ih => simp [ih]

theorem define_notMem_parameterList {ts : List Token} {ds : List Declaration} (h : IsParameterList ts ds) :
    .keyword .define ∉ ts := by
  have define_notMem_group : ∀ {ts : List Token} {ds : List Declaration}, IsGroup ts ds →
      .keyword .define ∉ ts := by
    intro ts ds h
    cases h with
    | mk mutable hnames htype =>
      cases mutable <;> simp [varTokens, define_notMem_names hnames, define_notMem_type htype]
  have define_notMem_parameters : ∀ {ts : List Token} {ds : List Declaration}, IsParameters ts ds →
      .keyword .define ∉ ts := by
    intro ts ds h
    induction h with
    | one h => exact define_notMem_group h
    | more h ht hs ih => rcases ht with rfl | rfl <;> simp [define_notMem_group h, ih]
  cases h with
  | none => simp
  | some h => simp [define_notMem_parameters h]

theorem define_notMem_line {kind : Section} {ts : List Token} {ds : List Declaration} (h : IsLine kind ts ds) :
    .keyword .define ∉ ts := by
  have define_notMem_constants : ∀ {ts : List Token} {ds : List Declaration}, IsConstants ts ds →
      .keyword .define ∉ ts := by
    intro ts ds h
    induction h with
    | one name h => simp [define_notMem_literal h]
    | more name h hs ih => simp [define_notMem_literal h, ih]
  cases h with
  | constants h => simp [define_notMem_constants h]
  | const h => simp [define_notMem_constants h]
  | value name h => simp [define_notMem_literal h]
  | typed hnames htype hrange =>
    cases hrange with
    | none => simp [define_notMem_names hnames, define_notMem_type htype]
    | limits hlow hhigh =>
      simp [define_notMem_names hnames, define_notMem_type htype, define_notMem_literal hlow,
        define_notMem_literal hhigh]

theorem define_notMem_lines {kind : Section} {ts : List Token} {ds : List Declaration} (h : IsLines kind ts ds) :
    .keyword .define ∉ ts := by
  induction h with
  | one h => exact define_notMem_line h
  | more h hs ih => simp [define_notMem_line h, ih]

theorem define_notMem_body {callable : String → Bool} {ts : List Token} {ds : List Declaration} {body : List Stmt}
    (h : IsBody callable ts ds body) : .keyword .define ∉ ts := by
  induction h with
  | declare h hs ih =>
    rename_i kind _ _ _ _ _
    cases h with
    | line h => cases kind <;> simp [word, define_notMem_line h, ih]
    | block h => cases kind <;> simp [word, define_notMem_lines h, ih]
  | run h => exact define_notMem_stmts h

theorem definedNames_skip {l : Lexeme} (ls : List Lexeme) (h : l.token ≠ .keyword .define) :
    definedNames (l :: ls) = definedNames ls := by
  cases ls with
  | nil => rfl
  | cons m ls =>
    rw [definedNames]
    split
    · rename_i hdefine _
      exact absurd hdefine h
    · rfl

theorem definedNames_append {ls ms : List Lexeme} (h : .keyword .define ∉ ls.map Lexeme.token) :
    definedNames (ls ++ ms) = definedNames ms := by
  induction ls with
  | nil => rfl
  | cons l ls ih =>
    rw [List.map_cons, List.mem_cons, not_or] at h
    rw [List.cons_append, definedNames_skip _ (Ne.symm h.1), ih h.2]

theorem definedNames_of_isFunctions {callable : String → Bool} {ts : List Token} {fs : List Function}
    (h : IsFunctions callable ts fs) :
    ∀ {ls : List Lexeme}, ls.map Lexeme.token = ts → definedNames ls = fs.map Function.name := by
  induction h with
  | nil =>
    intro ls hls
    rw [List.map_eq_nil_iff.mp hls]
    rfl
  | cons h hs ih =>
    intro ls hls
    cases h with
    | mk name hparameters hbody _ =>
      rename_i us fs ts vs _ _ _
      obtain ⟨head, more, rfl, hhead, hmore⟩ := List.map_eq_append_iff.mp hls
      obtain ⟨define, named, rfl, hdefine, hnamed⟩ := List.map_eq_cons_iff.mp (by simpa using hhead)
      obtain ⟨n, inner, rfl, hn, hinner⟩ := List.map_eq_cons_iff.mp hnamed
      have hnone : .keyword .define ∉ (n :: inner).map Lexeme.token := by
        rw [hnamed]
        simp [define_notMem_parameterList hparameters, define_notMem_body hbody]
      have hfirst : definedNames (define :: n :: (inner ++ more)) = name :: definedNames ((n :: inner) ++ more) := by
        rw [definedNames, hdefine, hn]
        rfl
      exact hfirst.trans (by rw [definedNames_append hnone, ih hmore]; rfl)

end Offside.Parse

namespace Offside

open Parse Grammar

/-- What is read from lexemes, among which no block is empty, is derived by the grammar. -/
theorem Program.ofLexemes_sound {ls : List Lexeme} {p : Program} (h : Program.ofLexemes ls = .ok p)
    (hblocks : ¬ [.indent, .dedent] <:+: ls.map Lexeme.token) :
    IsFunctions (isCallable (p.functions.map Function.name)) (ls.map Lexeme.token) p.unplaced.functions ∧
      DistinctNames (p.functions.map Function.name) := by
  obtain ⟨fs, hfs, hfunctions, hdistinct⟩ := functions_sound h ⟨List.nodup_nil, nofun⟩ hblocks
  have hdefined : definedNames ls = _ := definedNames_of_isFunctions hfunctions rfl
  have hfs : p.functions = fs := hfs
  subst hfs
  rw [hdefined, List.map_map] at hfunctions
  exact ⟨hfunctions, hdistinct⟩

/-- What the grammar derives is read from any lexemes with these tokens. -/
theorem Program.ofLexemes_complete {ls : List Lexeme} {fs : List Function}
    (h : IsFunctions (isCallable (fs.map Function.name)) (ls.map Lexeme.token) fs)
    (hdistinct : DistinctNames (fs.map Function.name)) :
    ∃ p, Program.ofLexemes ls = .ok p ∧ p.unplaced.functions = fs := by
  rw [← definedNames_of_isFunctions h rfl] at h
  exact functions_complete h rfl hdistinct

/-- A source is read if something of its program can be computed. -/
theorem exists_program {α : Type} {source : String} {view : Program → α} {result : α}
    (h : (lexemes source).toOption.bind (fun ls => (Program.ofLexemes ls).toOption.map view) = some result) :
    ∃ ls p, lexemes source = .ok ls ∧ Program.ofLexemes ls = .ok p ∧ view p = result := by
  cases hls : lexemes source with
  | error e => simp [hls, Except.toOption] at h
  | ok ls =>
    cases hp : Program.ofLexemes ls with
    | error e => simp [hls, hp, Except.toOption] at h
    | ok p => exact ⟨ls, p, rfl, hp, by simpa [hls, hp, Except.toOption] using h⟩

end Offside
