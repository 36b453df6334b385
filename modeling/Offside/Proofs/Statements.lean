import Offside.Proofs.Moves
import Offside.Proofs.ParsePlaces

/-!
# The statements of a program

A program has the statements of its bodies and, down from there, those inside other statements. For a program that is
read, every statement is derived by the grammar on its own, with the names of the program's functions as the callable
ones. This holds of any list of lexemes, also of one that no source has: an empty section of declarations, which the
reader takes, has no part in it.
-/

namespace Offside

theorem Chain.sizeOf_lt {t : Stmt} : ∀ {chain : Chain}, t ∈ chain.links.flatMap (fun link => link.2.1) →
    sizeOf t < sizeOf chain
  | .last condition body, h => by
    have hbody : t ∈ body := by simpa [Chain.links] using h
    have hsize := List.sizeOf_lt_of_mem hbody
    simp only [Chain.last.sizeOf_spec]
    omega
  | .link condition body next, h => by
    simp only [Chain.links, List.flatMap_cons, List.mem_append] at h
    simp only [Chain.link.sizeOf_spec]
    rcases h with hbody | hnext
    · have hsize := List.sizeOf_lt_of_mem hbody
      omega
    · have hsize := Chain.sizeOf_lt hnext
      omega

theorem Stmt.sizeOf_lt {s t : Stmt} (h : t ∈ s.inside) : sizeOf t < sizeOf s := by
  cases s with
  | assign | call => cases h
  | branch place chain =>
    have hsize := Chain.sizeOf_lt h
    simp only [Stmt.branch.sizeOf_spec]
    omega
  | count place counter first last body =>
    have hsize : sizeOf t < sizeOf body := List.sizeOf_lt_of_mem h
    simp only [Stmt.count.sizeOf_spec]
    omega
  | loopWhile place condition body =>
    have hsize : sizeOf t < sizeOf body := List.sizeOf_lt_of_mem h
    simp only [Stmt.loopWhile.sizeOf_spec]
    omega
  | loopUntil place condition body =>
    have hsize : sizeOf t < sizeOf body := List.sizeOf_lt_of_mem h
    simp only [Stmt.loopUntil.sizeOf_spec]
    omega

/-- Induction from the statements inside to the statement around them. -/
theorem Stmt.inside_induction {P : Stmt → Prop} (h : ∀ s, (∀ t ∈ s.inside, P t) → P s) (s : Stmt) : P s :=
  h s fun t _ => inside_induction h t
termination_by sizeOf s
decreasing_by exact Stmt.sizeOf_lt ‹_›

/-- The statements of a program, at any depth. -/
inductive Program.Has (p : Program) : Stmt → Prop where
  | body {f : Function} {body : List Stmt} {s : Stmt} (hf : f ∈ p.functions) (hbody : f.body = .user body)
      (hs : s ∈ body) : p.Has s
  | inside {s t : Stmt} (hs : p.Has s) (ht : t ∈ s.inside) : p.Has t

namespace Grammar

variable {callable : String → Bool} {ls : List Lexeme} {s t : Stmt} {body : List Stmt}

theorem StmtsAt.stmtAt (h : StmtsAt callable ls body) (hs : s ∈ body) : ∃ ms, ms.Sublist ls ∧ StmtAt callable ms s := by
  induction body generalizing ls with
  | nil => cases hs
  | cons first rest ih =>
    cases h with
    | cons hfirst hrest =>
      rcases List.mem_cons.mp hs with rfl | hs
      · exact ⟨_, List.sublist_append_left _ _, hfirst⟩
      · obtain ⟨ms, hms, hstmt⟩ := ih hrest hs
        exact ⟨ms, hms.trans (List.sublist_append_right _ _), hstmt⟩

theorem StmtsAt.append {ms : List Lexeme} {more : List Stmt} (h : StmtsAt callable ls body)
    (hmore : StmtsAt callable ms more) : StmtsAt callable (ls ++ ms) (body ++ more) := by
  induction body generalizing ls with
  | nil =>
    cases h with
    | nil => exact hmore
  | cons first rest ih =>
    cases h with
    | cons hfirst hrest =>
      rw [List.append_assoc]
      exact .cons hfirst (ih hrest)

theorem BlockAt.stmtsAt (h : BlockAt callable ls body) (head : List Lexeme) :
    ∃ ms, ms.Sublist (head ++ ls) ∧ StmtsAt callable ms body := by
  cases h with
  | @mk lineEnd indent dedent ms _ _ _ _ h =>
    have hms : ms.Sublist ([lineEnd, indent] ++ ms ++ [dedent]) :=
      (List.sublist_append_right _ _).trans (List.sublist_append_left _ _)
    exact ⟨ms, hms.trans (List.sublist_append_right head _), h⟩

theorem ChainAt.stmtsAt : ∀ {chain : Chain} {ls : List Lexeme}, ChainAt callable ls chain →
    ∃ ms, ms.Sublist ls ∧ StmtsAt callable ms (chain.links.flatMap fun link => link.2.1)
  | .last condition body, ls, h => by
    cases h with
    | last _ _ hbody =>
      simpa only [Chain.links, List.flatMap_cons, List.flatMap_nil, List.append_nil] using hbody.stmtsAt _
  | .link condition body next, ls, h => by
    simp only [Chain.links, List.flatMap_cons]
    cases h with
    | otherwise _ _ hbody _ hother =>
      obtain ⟨ms, hms, hstmts⟩ := hbody.stmtsAt _
      obtain ⟨ns, hns, hstmts'⟩ := hother.stmtsAt [_]
      simp only [Chain.links, List.flatMap_cons, List.flatMap_nil, List.append_nil]
      exact ⟨ms ++ ns, hms.append hns, hstmts.append hstmts'⟩
    | elsif _ _ hbody _ hnext =>
      obtain ⟨ms, hms, hstmts⟩ := hbody.stmtsAt _
      obtain ⟨ns, hns, hstmts'⟩ := hnext.stmtsAt
      exact ⟨ms ++ ns, hms.append (hns.cons _), hstmts.append hstmts'⟩

/-- The statements inside a statement are derived, one behind the other, from a part of its lexemes. -/
theorem StmtAt.stmtsAt (h : StmtAt callable ls s) : ∃ ms, ms.Sublist ls ∧ StmtsAt callable ms s.inside := by
  cases h with
  | assign | call => exact ⟨[], List.nil_sublist _, .nil⟩
  | branch _ h =>
    obtain ⟨ms, hms, hstmts⟩ := h.stmtsAt
    exact ⟨ms, hms.cons _, hstmts⟩
  | count _ _ _ _ hbody | loopWhile _ _ hbody | loopUntil _ _ hbody => exact hbody.stmtsAt _

theorem StmtAt.stmtAt (h : StmtAt callable ls s) (ht : t ∈ s.inside) :
    ∃ ms, ms.Sublist ls ∧ StmtAt callable ms t := by
  obtain ⟨ms, hms, hstmts⟩ := h.stmtsAt
  obtain ⟨ns, hns, hstmt⟩ := hstmts.stmtAt ht
  exact ⟨ns, hns.trans hms, hstmt⟩

end Grammar

namespace Parse

open Grammar

variable {c : Cursor}

/-! ### The word `define` opens functions and stands nowhere else -/

theorem define_notMem_read {kind : Section} {r : Reading (List Declaration) c} (h : kind.read c = .ok r) :
    ∃ ts, c.tokens = ts ++ r.next.tokens ∧ .keyword .define ∉ ts := by
  unfold Section.read at h
  split at h
  · obtain ⟨ts, hts, hline⟩ := line_sound h
    exact ⟨ts, hts, define_notMem_line hline⟩
  · rename_i lineEnd hlineEnd
    obtain ⟨indent, hindent, h⟩ := bind_eq_ok.mp h
    obtain ⟨all, hall, h⟩ := bind_eq_ok.mp h
    cases h
    have hc : c.tokens = .newline :: .indent :: indent.next.tokens := by
      rw [Cursor.tokens_of_eat? hlineEnd, Cursor.tokens_of_expect hindent]
    rcases lines_sound hall with ⟨hdedent, -⟩ | ⟨ts, hts, hlines⟩
    · exact ⟨[.newline, .indent, .dedent], by rw [hc, hdedent]; rfl, by simp⟩
    · refine ⟨.newline :: .indent :: ts ++ [.dedent], ?_, by simp [define_notMem_lines hlines]⟩
      rw [hc, hts]
      simp [Reading.andThen]

/-- What is read for the inside of a function: no `define` among the tokens, and statements that are derived. -/
theorem functionBody_stmts {defined taken : List String} {c : Cursor} {r : Reading (List Declaration × List Stmt) c}
    (h : functionBody defined taken c = .ok r) :
    (∃ ts, c.tokens = ts ++ r.next.tokens ∧ .keyword .define ∉ ts) ∧
      ∃ ls, StmtsAt (isCallable defined) ls r.value.2 := by
  replace h := readsBody h
  induction h with
  | declare hopening hdeclared hused hrest ih =>
    rename_i taken used c opening declared rest
    obtain ⟨ts, hts, hnone⟩ := define_notMem_read hdeclared
    obtain ⟨⟨us, hus, hnone'⟩, hstmts⟩ := ih
    refine ⟨⟨word opening.value :: ts ++ us, ?_, ?_⟩, hstmts⟩
    · rw [tokens_of_section? hopening, hts, hus]
      simp [Reading.andThen]
    · cases opening.value <;> simp [word, hnone, hnone']
  | run hbody =>
    obtain ⟨ls, dedent, hls, hdedent, hstmts⟩ := statements_placed hbody
    refine ⟨⟨ls.map Lexeme.token ++ [.dedent], ?_, ?_⟩, ls, hstmts⟩
    · rw [Cursor.tokens, hls, ← hdedent]
      simp [Reading.map, Cursor.tokens]
    · simp [define_notMem_stmts hstmts.isStmts]

theorem function_stmts {defined : List String} {r : Reading Function c} (h : function defined c = .ok r) :
    (∃ ts, c.tokens = .keyword .define :: .name r.value.name :: ts ++ r.next.tokens ∧ .keyword .define ∉ ts) ∧
      ∃ body ls, r.value.body = .user body ∧ StmtsAt (isCallable defined) ls body := by
  obtain ⟨hdefine, hname, hdeclared, hlineEnd, hindent, -, hbody⟩ := readsFunction h
  rename_i define name declared lineEnd indent taken body
  obtain ⟨ts, hts, hparameters⟩ := parameterList_sound hdeclared
  obtain ⟨⟨us, hus, hnone⟩, ls, hstmts⟩ := functionBody_stmts hbody
  refine ⟨⟨ts ++ .newline :: .indent :: us, ?_, ?_⟩, body.value.2, ls, rfl, hstmts⟩
  · rw [Cursor.tokens_of_expect hdefine, Cursor.tokens_of_expectName hname, hts, Cursor.tokens_of_expect hlineEnd,
      Cursor.tokens_of_expect hindent, hus]
    simp [Reading.andThen]
  · simp [define_notMem_parameterList hparameters, hnone]

/-- The first pass over the lexemes collects the names of exactly the functions that are then read. -/
theorem functions_stmts {defined : List String} {program p : Program} {c : Cursor}
    (h : functions defined program c = .ok p) :
    ∃ fs, p.functions = program.functions ++ fs ∧ definedNames c.ahead = fs.map Function.name ∧
      ∀ f ∈ fs, ∃ body ls, f.body = .user body ∧ StmtsAt (isCallable defined) ls body := by
  replace h := readsFunctions h
  induction h with
  | done hempty =>
    refine ⟨[], by simp, ?_, by simp⟩
    rw [hempty]
    rfl
  | next hf hbuiltin hnew hrest ih =>
    rename_i program p c f
    obtain ⟨⟨ts, hts, hnone⟩, hbody⟩ := function_stmts hf
    obtain ⟨fs, hfs, hnames, hbodies⟩ := ih
    refine ⟨f.value :: fs, by rw [hfs]; simp, ?_, List.forall_mem_cons.mpr ⟨hbody, hbodies⟩⟩
    obtain ⟨ls, hls, hmap⟩ := f.passes.lexemes hts
    obtain ⟨define, named, rfl, hdefine, hnamed⟩ := List.map_eq_cons_iff.mp hmap
    obtain ⟨name, inner, rfl, hname, hinner⟩ := List.map_eq_cons_iff.mp hnamed
    have hinside : .keyword .define ∉ (name :: inner).map Lexeme.token := by
      rw [hnamed]
      simpa using hnone
    have hfirst : definedNames (define :: name :: (inner ++ f.next.ahead)) =
        f.value.name :: definedNames ((name :: inner) ++ f.next.ahead) := by
      rw [definedNames, hdefine, hname]
      rfl
    rw [hls]
    exact hfirst.trans (by rw [definedNames_append hinside, hnames]; rfl)

end Parse

open Grammar Parse

/-- A program that is read: user functions, whose statements are derived with their names as the callable ones. -/
def Program.IsDerived (p : Program) : Prop :=
  ∀ f ∈ p.functions, ∃ body ls, f.body = .user body ∧ StmtsAt (isCallable (p.functions.map Function.name)) ls body

theorem Program.isDerived_ofLexemes {ls : List Lexeme} {p : Program} (h : Program.ofLexemes ls = .ok p) :
    p.IsDerived := by
  obtain ⟨fs, hfs, hnames, hbodies⟩ := functions_stmts h
  have hfs : p.functions = fs := hfs
  subst hfs
  have hnames : definedNames ls = p.functions.map Function.name := hnames
  rw [hnames] at hbodies
  exact hbodies

theorem Program.IsDerived.stmtAt {p : Program} (hp : p.IsDerived) {s : Stmt} (hs : p.Has s) :
    ∃ ls, StmtAt (isCallable (p.functions.map Function.name)) ls s := by
  induction hs with
  | body hf hbody hs =>
    obtain ⟨body, ls, hbody', hstmts⟩ := hp _ hf
    obtain rfl := Body.user.inj (hbody.symm.trans hbody')
    obtain ⟨ms, -, hstmt⟩ := hstmts.stmtAt hs
    exact ⟨ms, hstmt⟩
  | inside _ ht ih =>
    obtain ⟨ls, hstmt⟩ := ih
    obtain ⟨ms, -, hstmt⟩ := hstmt.stmtAt ht
    exact ⟨ms, hstmt⟩

end Offside
