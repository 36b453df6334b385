import Offside.Proofs.PrintExpr

/-!
# The text of statements

Statements are written in rows, each with the margin of its level. The tokens that close a block come of the text
behind it: of the margin of the next row, or of the end. So the rules for rows carry the rest of the text along, with
what it reads as from any deeper level.
-/

namespace Offside

open Grammar Parse

namespace Layout

/-- A text that starts with a row of a level, read from any depth. -/
def RowAt (level : Nat) (text : List Char) (ts : List Token) : Prop :=
  ∀ depth, Yields false depth text (shiftTokens depth level ++ ts)

/-- A text that closes all levels but these before anything else. -/
def Lands (level : Nat) (text : List Char) (ts : List Token) : Prop :=
  ∀ extra, Yields false (level + extra) text (List.replicate extra .dedent ++ ts)

variable {level : Nat} {text rest : List Char} {ts us : List Token}

theorem lands_nil : Lands 0 [] [] := by
  intro extra
  simpa using yields_nil

theorem RowAt.lands (h : RowAt level text ts) : Lands level text ts := by
  intro extra
  simpa [shiftTokens] using h (level + extra)

theorem Lands.feed (h : Lands level text ts) : Lands level ('\n' :: text) ts :=
  fun extra => yields_feed (h extra)

theorem Lands.dedent (h : Lands level text ts) : Lands (level + 1) text (.dedent :: ts) := by
  intro extra
  have hclosed := h (1 + extra)
  rw [← Nat.add_assoc, Nat.add_comm 1 extra, List.replicate_succ'] at hclosed
  simpa using hclosed

theorem RowAt.indent (h : RowAt (level + 1) text ts) : Yields false level text (.indent :: ts) := by
  have hopened := h level
  have hzero : level - (level + 1) = 0 := by omega
  simpa [shiftTokens, hzero] using hopened

theorem isMargin_replicate (level : Nat) : IsMargin (List.replicate (4 * level) ' ') level where
  blank := fun c hc => .inl (List.eq_of_mem_replicate hc)
  columns_eq := by
    have hcolumns : ∀ n, columns (List.replicate n ' ') = n := by
      intro n
      induction n with
      | zero => rfl
      | succ n ih =>
        rw [List.replicate_succ, columns, ih]
        exact Nat.add_comm 1 n
    rw [hcolumns]
    rfl

end Layout

/-! ### Rows -/

open Layout

/-- The text of rows. -/
def rowChars (rows : List String) : List Char :=
  (Stmt.joinRows rows).toList

theorem rowChars_nil : rowChars [] = [] := rfl

theorem rowChars_cons (row : String) (rows : List String) :
    rowChars (row :: rows) = row.toList ++ '\n' :: rowChars rows := by
  simp [rowChars, Stmt.joinRows]

theorem rowChars_append (rows more : List String) : rowChars (rows ++ more) = rowChars rows ++ rowChars more := by
  simp [rowChars, Stmt.joinRows]

/-- A row in front of more text. -/
theorem rowAt_row {level : Nat} {text : String} {ts us : List Token} {rows : List String} {rest : List Char}
    (h : Inline text.toList ts) (hrest : Yields false level (rowChars rows ++ rest) us) :
    RowAt level (rowChars (Stmt.row level text :: rows) ++ rest) (ts ++ .newline :: us) := by
  intro depth
  have hread := h.reads (.first depth (isMargin_replicate level)) (by rintro c ⟨⟩; rfl) (yields_lineEnd hrest)
  rw [rowChars_cons]
  simpa [Stmt.row] using hread

/-- A row by itself. -/
theorem Layout.Lands.row {level : Nat} {text : String} {ts us : List Token} {rest : List Char}
    (hrest : Lands level rest us) (h : Inline text.toList ts) :
    RowAt level (rowChars [Stmt.row level text] ++ rest) (ts ++ .newline :: us) :=
  rowAt_row h (hrest 0)

/-! ### Literals of statements -/

mutual

/-- The literals inside a statement. -/
def Stmt.literals : Stmt → List Literal
  | .assign _ target value => target.toExpr.literals ++ value.literals
  | .branch _ chain => chain.literals
  | .count _ _ first last body => first.literals ++ last.literals ++ Stmt.literalsAll body
  | .loopWhile _ condition body => condition.literals ++ Stmt.literalsAll body
  | .loopUntil _ condition body => condition.literals ++ Stmt.literalsAll body
  | .call _ _ arguments => arguments.flatMap fun a => a.value.literals

def Chain.literals : Chain → List Literal
  | .last condition body => (condition.map Expr.literals).getD [] ++ Stmt.literalsAll body
  | .link condition body next =>
    (condition.map Expr.literals).getD [] ++ Stmt.literalsAll body ++ next.literals

def Stmt.literalsAll : List Stmt → List Literal
  | [] => []
  | s :: ss => s.literals ++ Stmt.literalsAll ss

end

/-! ### Heads of statements -/

theorem Inline.separated {a b : List Char} {ts us : List Token} {m : Mark} (ha : Inline a ts) (hb : Inline b us)
    (hm : m = .comma ∨ m = .semicolon) :
    Inline (a ++ (m.spelling.toList ++ ' ' :: b)) (ts ++ .mark m :: us) := by
  have hmark : Inline m.spelling.toList [.mark m] := by
    rcases hm with rfl | rfl <;> exact .token (.mark _) (by rintro c ⟨⟩; decide)
  have hends : ∀ c ∈ m.spelling.toList.head?, isDelimiter c = true := by
    rcases hm with rfl | rfl <;> rintro c ⟨⟩ <;> rfl
  simpa using (ha.append hmark hends).spaced hb

theorem inline_of_isArgument {ts : List Token} {a : Argument} (h : IsArgument ts a) (hs : Sourced ts)
    (hl : ∀ l ∈ a.value.literals, l.IsPlain) : ∃ us, Inline a.text.toList us ∧ IsArgument us a := by
  cases h with
  | value h =>
    rename_i e
    obtain ⟨us, hinline, hcomparison⟩ := inline_of_isComparison h hs hl
    refine ⟨us, ?_, .value hcomparison⟩
    simpa [Argument.text] using hinline
  | place h =>
    rename_i ts target
    obtain ⟨us, hinline, hcomparison⟩ := inline_of_isComparison h (hs.part ⟨[.keyword .var], [], by simp⟩) hl
    refine ⟨_, ?_, .place hcomparison⟩
    simpa [Argument.text, Keyword.spelling] using (Inline.keyword .var).spaced hinline

theorem inline_of_isArguments {ts : List Token} {as : List Argument} (h : IsArguments ts as) (hs : Sourced ts)
    (hl : ∀ a ∈ as, ∀ l ∈ a.value.literals, l.IsPlain) :
    ∃ us, Inline (", ".intercalate (as.map Argument.text)).toList us ∧ IsArguments us as := by
  induction h with
  | one h =>
    obtain ⟨us, hinline, hargument⟩ := inline_of_isArgument h hs (hl _ (by simp))
    refine ⟨us, ?_, .one hargument⟩
    simpa using hinline
  | more h hmore ih =>
    rename_i ts us a as
    obtain ⟨ts', hinline, hargument⟩ :=
      inline_of_isArgument h (hs.part ⟨[], .mark .comma :: us, by simp⟩) (hl a (by simp))
    obtain ⟨us', hinline', harguments⟩ :=
      ih (hs.part ⟨ts ++ [.mark .comma], [], by simp⟩) fun b hb => hl b (by simp [hb])
    refine ⟨_, ?_, .more hargument harguments⟩
    have hne : as.map Argument.text ≠ [] := by
      cases hmore <;> simp
    rw [List.map_cons, String.intercalate_cons_of_ne_nil hne]
    simpa [Mark.spelling] using hinline.separated (m := .comma) hinline' (.inl rfl)

/-- The row of a call. Its arguments are written without parentheses around all of them. -/
theorem inline_of_isCall {name : String} {ts : List Token} {as : List Argument} (h : IsCall ts as) (hs : Sourced ts)
    (hname : Inline name.toList [.name name]) (hl : ∀ a ∈ as, ∀ l ∈ a.value.literals, l.IsPlain) :
    ∃ us, Inline (Stmt.callRow name as).toList (.name name :: us) ∧ IsCall us as := by
  have hbare : ∀ {ts : List Token}, IsArguments ts as → Sourced ts →
      ∃ us, Inline (Stmt.callRow name as).toList (.name name :: us) ∧ IsCall us as := by
    intro ts h hs
    obtain ⟨us, hinline, harguments⟩ := inline_of_isArguments h hs hl
    refine ⟨us, ?_, .bare harguments⟩
    have hrow : Stmt.callRow name as = name ++ " " ++ ", ".intercalate (as.map Argument.text) := by
      cases h <;> rfl
    rw [hrow]
    simpa using hname.spaced hinline
  cases h with
  | none => exact ⟨[], hname, .none⟩
  | enclosedNone => exact ⟨[], hname, .none⟩
  | bare h => exact hbare h hs
  | enclosed h => exact hbare h (hs.part ⟨[.mark .openParen], [.mark .closeParen], rfl⟩)

theorem inline_of_isTarget {ts : List Token} {target : Target} (h : IsTarget ts target) (hs : Sourced ts)
    (hl : ∀ l ∈ target.toExpr.literals, l.IsPlain) : ∃ us, Inline target.text.toList us ∧ IsTarget us target := by
  cases h with
  | named name =>
    have hname : Inline name.toList [.name name] := .name hs (by simp)
    exact ⟨_, hname, .named name⟩
  | element name h =>
    rename_i ts index
    obtain ⟨us, hinline, hexpr⟩ :=
      inline_of_isExpr h (hs.part ⟨[.name name, .mark .openBracket], [.mark .closeBracket], rfl⟩) hl
    refine ⟨_, ?_, .element name (.ofProduct (.ofFactor hexpr))⟩
    have htext : (Target.element name index).text.toList = name.toList ++ '[' :: index.text.toList ++ [']'] := by
      simp [Target.text, Target.toExpr, Expr.text]
    rw [htext]
    exact .indexed (.name hs (by simp)) hinline

/-! ### Blocks and statements -/

/-- No block of a source is empty. -/
theorem body_ne_nil {callable : String → Bool} {ts : List Token} {body : List Stmt}
    (hs : Sourced (.newline :: .indent :: ts ++ [.dedent])) (h : IsStmts callable ts body) : body ≠ [] := by
  rintro rfl
  cases h
  exact hs.blocks ⟨[.newline], [], rfl⟩

theorem Sourced.left {ts us : List Token} (h : Sourced (ts ++ us)) : Sourced ts :=
  h.part (List.prefix_append ts us).isInfix

theorem Sourced.right {ts us : List Token} (h : Sourced (ts ++ us)) : Sourced us :=
  h.part (List.suffix_append ts us).isInfix

/-- The word that opens a link with a condition. -/
def linkWord (first : Bool) : Keyword :=
  if first then .if_ else .elsif

theorem inline_link {first : Bool} {condition : Expr} {ts : List Token} (h : Inline condition.text.toList ts) :
    Inline (Stmt.linkRow first (some condition)).toList (.keyword (linkWord first) :: ts ++ [.keyword .then_]) := by
  have htext : (Stmt.linkRow first (some condition)).toList =
      (linkWord first).spelling.toList ++ ' ' :: (condition.text.toList ++ ' ' :: Keyword.then_.spelling.toList) := by
    cases first <;> simp [Stmt.linkRow, linkWord, Keyword.spelling]
  rw [htext]
  simpa using (Inline.keyword _).spaced (h.spaced (.keyword .then_))

mutual

theorem printed_stmt {callable : String → Bool} {ts : List Token} {s : Stmt} :
    IsStmt callable ts s → Sourced ts → (∀ l ∈ s.literals, l.IsPlain) → ∀ {level : Nat} {rest : List Char}
      {us : List Token}, Lands level rest us → ∃ vs, IsStmt callable vs s ∧
        RowAt level (rowChars (s.rows level) ++ rest) (vs ++ us)
  | @IsStmt.assign _ _ _ target value hname htarget hvalue, hs, hl, level, rest, us, hrest => by
    rw [Stmt.literals] at hl
    obtain ⟨ts', hinline, htarget'⟩ := inline_of_isTarget htarget hs.left.left fun l h => hl l (by simp [h])
    obtain ⟨us', hinline', hvalue'⟩ :=
      inline_of_isComparison hvalue (hs.left.right.part ⟨[.mark .assign], [], by simp⟩) fun l h => hl l (by simp [h])
    have hrow : Inline (target.text ++ " := " ++ value.text).toList (ts' ++ .mark .assign :: us') := by
      simpa [Mark.spelling] using hinline.operator .assign hinline'
    refine ⟨_, .assign hname htarget' hvalue', ?_⟩
    simpa [Stmt.rows] using hrest.row hrow
  | @IsStmt.call _ name _ _ hname hcall, hs, hl, level, rest, us, hrest => by
    rw [Stmt.literals] at hl
    have hrow : Inline name.toList [.name name] := .name hs (by simp)
    obtain ⟨ts', hinline, hcall'⟩ := inline_of_isCall hcall (hs.part ⟨[.name name], [.newline], rfl⟩) hrow
      fun a ha l h => hl l (List.mem_flatMap.mpr ⟨a, ha, h⟩)
    refine ⟨_, .call hname hcall', ?_⟩
    simpa [Stmt.rows] using hrest.row hinline
  | .branch hchain, hs, hl, level, rest, us, hrest => by
    rw [Stmt.literals] at hl
    obtain ⟨vs, hchain', hrow⟩ := printed_chain hchain (hs.part ⟨[.keyword .if_], [], by simp⟩) hl true hrest
    exact ⟨_, .branch hchain', by simpa [Stmt.rows, linkWord] using hrow⟩
  | @IsStmt.count _ counter _ _ _ first last body hfirst hlast hbody, hs, hl, level, rest, us, hrest => by
    rw [Stmt.literals] at hl
    have hname : Inline counter.toList [.name counter] := .name hs (by simp)
    obtain ⟨ts', hinline, hfirst'⟩ := inline_of_isExpr hfirst
      (hs.left.left.part ⟨[.keyword .for_, .name counter, .keyword .from_], [], by simp⟩) fun l h => hl l (by simp [h])
    obtain ⟨us', hinline', hlast'⟩ := inline_of_isExpr hlast
      (hs.left.right.part ⟨[.keyword .to_], [], by simp⟩) fun l h => hl l (by simp [h])
    have hrow : Inline ("for " ++ counter ++ " from " ++ first.text ++ " to " ++ last.text).toList
        (.keyword .for_ :: .name counter :: .keyword .from_ :: ts' ++ .keyword .to_ :: us') := by
      simpa [Keyword.spelling] using (Inline.keyword .for_).spaced (hname.spaced
        ((Inline.keyword .from_).spaced (hinline.spaced ((Inline.keyword .to_).spaced hinline'))))
    obtain ⟨vs, hblock, hrows⟩ := printed_block hbody hs.right (fun l h => hl l (by simp [h])) hrow hrest
    refine ⟨_, .count counter (.ofProduct (.ofFactor hfirst')) (.ofProduct (.ofFactor hlast')) hblock, ?_⟩
    simpa [Stmt.rows] using hrows
  | @IsStmt.loopWhile _ _ _ condition _ h hbody, hs, hl, level, rest, us, hrest => by
    rw [Stmt.literals] at hl
    obtain ⟨ts', hinline, h'⟩ := inline_of_isComparison h (hs.left.part ⟨[.keyword .while_], [], by simp⟩)
      fun l h => hl l (by simp [h])
    have hrow : Inline ("while " ++ condition.text).toList (.keyword .while_ :: ts') := by
      simpa [Keyword.spelling] using (Inline.keyword .while_).spaced hinline
    obtain ⟨vs, hblock, hrows⟩ := printed_block hbody hs.right (fun l h => hl l (by simp [h])) hrow hrest
    exact ⟨_, .loopWhile h' hblock, by simpa [Stmt.rows] using hrows⟩
  | @IsStmt.loopUntil _ _ _ condition _ h hbody, hs, hl, level, rest, us, hrest => by
    rw [Stmt.literals] at hl
    obtain ⟨ts', hinline, h'⟩ :=
      inline_of_isComparison h (hs.left.part ⟨[.keyword .repeat_, .keyword .until_], [], by simp⟩)
        fun l h => hl l (by simp [h])
    have hrow : Inline ("repeat until " ++ condition.text).toList (.keyword .repeat_ :: .keyword .until_ :: ts') := by
      simpa [Keyword.spelling] using (Inline.keyword .repeat_).spaced ((Inline.keyword .until_).spaced hinline)
    obtain ⟨vs, hblock, hrows⟩ := printed_block hbody hs.right (fun l h => hl l (by simp [h])) hrow hrest
    exact ⟨_, .loopUntil h' hblock, by simpa [Stmt.rows] using hrows⟩

theorem printed_chain {callable : String → Bool} {ts : List Token} {links : Chain} :
    IsChain callable ts links → Sourced ts → (∀ l ∈ links.literals, l.IsPlain) → ∀ (first : Bool) {level : Nat}
      {rest : List Char} {us : List Token}, Lands level rest us → ∃ vs, IsChain callable vs links ∧
        RowAt level (rowChars (Stmt.chainRows level first links) ++ rest) (.keyword (linkWord first) :: vs ++ us)
  | .last h hbody, hs, hl, first, level, rest, us, hrest => by
    rw [Chain.literals] at hl
    obtain ⟨ts', hinline, h'⟩ := inline_of_isComparison h hs.left fun l h => hl l (by simp [h])
    obtain ⟨vs, hblock, hrows⟩ := printed_block hbody (hs.right.part ⟨[.keyword .then_], [], by simp⟩)
      (fun l h => hl l (by simp [h])) (inline_link hinline) hrest
    exact ⟨_, .last h' hblock, by simpa [Stmt.chainRows] using hrows⟩
  | .otherwise h hbody hother, hs, hl, first, level, rest, us, hrest => by
    rw [Chain.literals, Chain.literals] at hl
    obtain ⟨ts', hinline, h'⟩ := inline_of_isComparison h hs.left.left fun l h => hl l (by simp [h])
    have helse : Inline (Stmt.linkRow false none).toList [.keyword .else_] := .keyword .else_
    obtain ⟨ws, hother', hrest'⟩ := printed_block hother (hs.right.part ⟨[.keyword .else_], [], by simp⟩)
      (fun l h => hl l (by simp [h])) helse hrest
    obtain ⟨vs, hblock, hrows⟩ := printed_block hbody (hs.left.right.part ⟨[.keyword .then_], [], by simp⟩)
      (fun l h => hl l (by simp [h])) (inline_link hinline) hrest'.lands
    refine ⟨_, .otherwise h' hblock hother', ?_⟩
    simpa [Stmt.chainRows, rowChars_append, rowChars_cons] using hrows
  | .elsif h hbody hnext, hs, hl, first, level, rest, us, hrest => by
    rw [Chain.literals] at hl
    obtain ⟨ts', hinline, h'⟩ := inline_of_isComparison h hs.left.left fun l h => hl l (by simp [h])
    obtain ⟨ws, hnext', hrest'⟩ := printed_chain hnext (hs.right.part ⟨[.keyword .elsif], [], by simp⟩)
      (fun l h => hl l (by simp [h])) false hrest
    obtain ⟨vs, hblock, hrows⟩ := printed_block hbody (hs.left.right.part ⟨[.keyword .then_], [], by simp⟩)
      (fun l h => hl l (by simp [h])) (inline_link hinline) hrest'.lands
    refine ⟨_, .elsif h' hblock hnext', ?_⟩
    simpa [Stmt.chainRows, rowChars_append, rowChars_cons, linkWord] using hrows

/-- A head with its block. -/
theorem printed_block {callable : String → Bool} {ts : List Token} {body : List Stmt} :
    IsBlock callable ts body → Sourced ts → (∀ l ∈ Stmt.literalsAll body, l.IsPlain) → ∀ {head : String}
      {hs : List Token}, Inline head.toList hs → ∀ {level : Nat} {rest : List Char} {us : List Token},
        Lands level rest us → ∃ vs, IsBlock callable vs body ∧
          RowAt level (rowChars (Stmt.row level head :: Stmt.blockRows (level + 1) body) ++ rest) (hs ++ vs ++ us)
  | .mk h, hs, hl, head, ts, hhead, level, rest, us, hrest => by
    have hne := body_ne_nil hs h
    obtain ⟨vs, hstmts, -, hrow⟩ := printed_stmts h (hs.part ⟨[.newline, .indent], [.dedent], rfl⟩) hl hrest.dedent
    refine ⟨_, .mk hstmts, ?_⟩
    simpa using rowAt_row hhead (hrow hne).indent

theorem printed_stmts {callable : String → Bool} {ts : List Token} {ss : List Stmt} :
    IsStmts callable ts ss → Sourced ts → (∀ l ∈ Stmt.literalsAll ss, l.IsPlain) → ∀ {level : Nat}
      {rest : List Char} {us : List Token}, Lands level rest us → ∃ vs, IsStmts callable vs ss ∧
        Lands level (rowChars (Stmt.blockRows level ss) ++ rest) (vs ++ us) ∧
        (ss ≠ [] → RowAt level (rowChars (Stmt.blockRows level ss) ++ rest) (vs ++ us))
  | .nil, hs, hl, level, rest, us, hrest => ⟨[], .nil, hrest, by simp⟩
  | .cons h hmore, hs, hl, level, rest, us, hrest => by
    rw [Stmt.literalsAll] at hl
    obtain ⟨vs', hstmts, hlands, -⟩ := printed_stmts hmore hs.right (fun l h => hl l (by simp [h])) hrest
    obtain ⟨vs, hstmt, hrow⟩ := printed_stmt h hs.left (fun l h => hl l (by simp [h])) hlands
    rw [← List.append_assoc, ← List.append_assoc, ← rowChars_append] at hrow
    exact ⟨_, .cons hstmt hstmts, hrow.lands, fun _ => hrow⟩

end

end Offside
