import Offside.Parse.Program
import Offside.Proofs.MarkedEnd

/-!
# The places of syntax errors

A list of lexemes that is no program is refused at one of its lexemes, or at its end. An error is reported where the
reader stands, at a lexeme already taken, at a declared name, at the start of a function, or where an earlier reading of
the same line stopped; each of these is a lexeme of the list unless all of them are taken.
-/

namespace Offside

theorem append_ne_end {s behind : String} (first : Char) (text : String) (h : s.toList.head? = some first)
    (hfirst : first ≠ 'e') : s ++ text ++ behind ≠ "end of input" := by
  intro happend
  obtain ⟨rest, hs⟩ := List.head?_eq_some_iff.mp h
  have hlist := congrArg String.toList happend
  rw [String.toList_append, String.toList_append, hs] at hlist
  exact hfirst (List.cons.inj hlist).1

/-- The end of the input is described like no token. -/
theorem Token.description_ne (t : Token) : t.description ≠ "end of input" := by
  cases t with
  | name s => exact append_ne_end 'i' s (by decide) (by decide)
  | keyword word =>
    dsimp only [description]
    exact append_ne_end '`' _ (by decide) (by decide)
  | mark sign =>
    dsimp only [description]
    exact append_ne_end '`' _ (by decide) (by decide)
  | unclosed what =>
    dsimp only [description]
    exact append_ne_end '`' _ (by decide) (by decide)
  | _ =>
    dsimp only [description]
    decide

namespace Parse

variable {ls : List Lexeme} {mark : Lexeme} {c d : Cursor}

theorem Marked.placeOf (h : Marked ls mark c d) (first : Lexeme) : placeOf first d = placeOf first c := by
  rw [Parse.placeOf, Parse.placeOf, h.last]

/-! ### Statements -/

section

variable (h : Marked ls mark c d)
include h

theorem assignedValue_alike : ReadAlike ls mark (assignedValue c) (assignedValue d) := by
  unfold assignedValue
  apply Agree.bind (h.expectMark _ _)
  intro assign assign' hassign
  apply Agree.bind (comparison_alike hassign.next)
  intro value value' hvalue
  apply Agree.bind hvalue.next.expectLineEnd
  intro lineEnd lineEnd' hlineEnd
  exact .ok ⟨hvalue.value, hlineEnd.next, trivial⟩

theorem assignment_alike (name : String) : ReadAlike ls mark (assignment name c) (assignment name d) := by
  unfold assignment target
  rcases h.eat? (.mark .openBracket) rfl with ⟨bracket, bracket', hc, hd, hbracket⟩ | ⟨hc, hd⟩
  · rw [hc, hd]
    dsimp only
    simp only [bind_assoc, pure_bind]
    apply Agree.bind (sum_alike hbracket.next)
    intro index index' hindex
    apply Agree.bind (hindex.next.expectMark _ _)
    intro close close' hclose
    apply Agree.bind (assignedValue_alike hclose.next)
    intro value value' hvalue
    exact .ok ⟨by simp only [Reading.andThen, hindex.value, hvalue.value], hvalue.next, trivial⟩
  · rw [hc, hd]
    apply Agree.bind (assignedValue_alike h)
    intro value value' hvalue
    exact .ok ⟨congrArg (Prod.mk (Target.named name)) hvalue.value, hvalue.next, trivial⟩

theorem countHead_alike : ReadAlike ls mark (countHead c) (countHead d) := by
  unfold countHead
  apply Agree.bind (h.expectName _)
  intro counter counter' hcounter
  apply Agree.bind (hcounter.next.expectWord _ _)
  intro from_ from_' hfrom
  apply Agree.bind (sum_alike hfrom.next)
  intro first first' hfirst
  apply Agree.bind (hfirst.next.expectWord _ _)
  intro to_ to_' hto
  apply Agree.bind (sum_alike hto.next)
  intro last last' hlast
  exact .ok ⟨by simp only [Reading.andThen, hcounter.value, hfirst.value, hlast.value], hlast.next, trivial⟩

theorem branchHead_alike : ReadAlike ls mark (branchHead c) (branchHead d) := by
  unfold branchHead
  apply Agree.bind (comparison_alike h)
  intro condition condition' hcondition
  apply Agree.bind (hcondition.next.expectWord _ _)
  intro then_ then_' hthen
  exact .ok ⟨hcondition.value, hthen.next, trivial⟩

theorem untilHead_alike : ReadAlike ls mark (untilHead c) (untilHead d) := by
  unfold untilHead
  apply Agree.bind (h.expectWord _ _)
  intro until_ until_' huntil
  apply Agree.bind (comparison_alike huntil.next)
  intro condition condition' hcondition
  exact .ok ⟨hcondition.value, hcondition.next, trivial⟩

theorem openBlock_alike : ReadAlike ls mark (openBlock c) (openBlock d) := by
  unfold openBlock
  apply Agree.bind h.expectLineEnd
  intro lineEnd lineEnd' hlineEnd
  apply Agree.bind (hlineEnd.next.expect .indent rfl _)
  intro indent indent' hindent
  exact .ok ⟨rfl, hindent.next, trivial⟩

end

/-- The readers of statements do alike at cursors with few enough lexemes ahead. -/
structure StmtAlike (ls : List Lexeme) (mark : Lexeme) (defined : List String) (n : Nat) : Prop where
  statement : ∀ {c d}, Marked ls mark c d → 2 * c.ahead.length < n →
    ReadAlike ls mark (statement defined c) (statement defined d)
  chain : ∀ {c d}, Marked ls mark c d → 2 * c.ahead.length < n →
    ReadAlike ls mark (chain defined c) (chain defined d)
  block : ∀ {c d}, Marked ls mark c d → 2 * c.ahead.length < n →
    ReadAlike ls mark (block defined c) (block defined d)
  statements : ∀ {c d} ending, Marked ls mark c d → 2 * c.ahead.length + 1 < n →
    ReadAlike ls mark (statements defined ending c) (statements defined ending d)

/-- In front of the mark there is no statement. -/
theorem statement_unclosed {defined : List String} {first : Reading Lexeme c} {what : Unclosed}
    (hfirst : c.next? = some first) (htoken : first.value.token = .unclosed what) :
    statement defined c = c.fail (.expected .statement) := by
  rw [statement, hfirst]
  dsimp only
  rw [htoken]

section

variable {defined : List String} {n : Nat} (ih : StmtAlike ls mark defined n) (h : Marked ls mark c d)
include ih h

theorem statement_alike_step (hn : 2 * c.ahead.length < n + 1) :
    ReadAlike ls mark (statement defined c) (statement defined d) := by
  rcases h.next? with ⟨first, first', hc, hd, hfirst⟩ | ⟨hc, -, first', hd, hmark⟩
  · have hshorter := first.shorter
    rw [statement, statement, hc, hd]
    dsimp only
    rw [hfirst.value]
    cases first.value.token with
    | keyword word =>
      cases word with
      | if_ =>
        apply Agree.bind (ih.chain hfirst.next (by omega))
        intro links links' hlinks
        exact .ok ⟨by simp only [Reading.andThen, hlinks.next.placeOf, hlinks.value], hlinks.next, trivial⟩
      | for_ =>
        apply Agree.bind (countHead_alike hfirst.next)
        intro head head' hhead
        have hshorter' := head.shorter
        apply Agree.bind (ih.block hhead.next (by omega))
        intro body body' hbody
        exact .ok ⟨by simp only [Reading.andThen, hbody.next.placeOf, hhead.value, hbody.value], hbody.next, trivial⟩
      | while_ =>
        apply Agree.bind (comparison_alike hfirst.next)
        intro condition condition' hcondition
        have hshorter' := condition.shorter
        apply Agree.bind (ih.block hcondition.next (by omega))
        intro body body' hbody
        exact .ok ⟨by simp only [Reading.andThen, hbody.next.placeOf, hcondition.value, hbody.value], hbody.next,
          trivial⟩
      | repeat_ =>
        apply Agree.bind (untilHead_alike hfirst.next)
        intro condition condition' hcondition
        have hshorter' := condition.shorter
        apply Agree.bind (ih.block hcondition.next (by omega))
        intro body body' hbody
        exact .ok ⟨by simp only [Reading.andThen, hbody.next.placeOf, hcondition.value, hbody.value], hbody.next,
          trivial⟩
      | _ => exact h.fail _
    | name name =>
      dsimp only
      by_cases hcallable : isCallable defined name = true
      · rw [if_pos hcallable, if_pos hcallable]
        apply Agree.bind (callArguments_alike hfirst.next)
        intro args args' hargs
        exact .ok ⟨by simp only [Reading.andThen, hargs.next.placeOf, hargs.value], hargs.next, trivial⟩
      · rw [if_neg hcallable, if_neg hcallable]
        apply Agree.bind (assignment_alike hfirst.next name)
        intro parts parts' hparts
        exact .ok ⟨by simp only [Reading.andThen, hparts.next.placeOf, hparts.value], hparts.next, trivial⟩
    | _ => exact h.fail _
  · obtain ⟨unclosed, htoken⟩ := h.unread
    rw [statement_unclosed hd (hmark ▸ htoken), statement, hc]
    exact h.fail _

theorem chain_alike_step (hn : 2 * c.ahead.length < n + 1) :
    ReadAlike ls mark (chain defined c) (chain defined d) := by
  rw [chain, chain]
  apply Agree.bind (branchHead_alike h)
  intro head head' hhead
  have hshorter := head.shorter
  apply Agree.bind (ih.block hhead.next (by omega))
  intro body body' hbody
  have hshorter' := body.shorter
  rcases hbody.next.eat? (.keyword .elsif) rfl with ⟨elsif, elsif', hc, hd, helsif⟩ | ⟨hc, hd⟩
  · have hshorter'' := elsif.shorter
    rw [hc, hd]
    apply Agree.bind (ih.chain helsif.next (by omega))
    intro next next' hnext
    exact .ok ⟨by simp only [Reading.andThen, hhead.value, hbody.value, hnext.value], hnext.next, trivial⟩
  · rw [hc, hd]
    dsimp only
    rcases hbody.next.eat? (.keyword .else_) rfl with ⟨else_, else_', hc, hd, helse⟩ | ⟨hc, hd⟩
    · have hshorter'' := else_.shorter
      rw [hc, hd]
      apply Agree.bind (ih.block helse.next (by omega))
      intro last last' hlast
      exact .ok ⟨by simp only [Reading.andThen, hhead.value, hbody.value, hlast.value], hlast.next, trivial⟩
    · rw [hc, hd]
      exact .ok ⟨by simp only [Reading.andThen, hhead.value, hbody.value], hbody.next, trivial⟩

theorem block_alike_step (hn : 2 * c.ahead.length < n + 1) :
    ReadAlike ls mark (block defined c) (block defined d) := by
  rw [block, block]
  apply Agree.bind (openBlock_alike h)
  intro opening opening' hopening
  have hshorter := opening.shorter
  apply Agree.bind (ih.statements _ hopening.next (by omega))
  intro body body' hbody
  exact .ok ⟨hbody.value, hbody.next, trivial⟩

theorem statements_alike_step (ending : Expected) (hn : 2 * c.ahead.length + 1 < n + 1) :
    ReadAlike ls mark (statements defined ending c) (statements defined ending d) := by
  rw [statements, statements, h.isEmpty]
  rcases h.eat? .dedent rfl with ⟨dedent, dedent', hc, hd, hdedent⟩ | ⟨hc, hd⟩
  · rw [hc, hd]
    exact .ok ⟨rfl, hdedent.next, trivial⟩
  rw [hc, hd]
  dsimp only
  rw [if_neg Bool.false_ne_true]
  rcases h.next? with ⟨first, -, hc, -, -⟩ | ⟨-, hnil, first', hd, hmark⟩
  · rw [Cursor.isEmpty_of_next? hc, if_neg Bool.false_ne_true]
    apply Agree.bind (ih.statement h (by omega))
    intro first first' hfirst
    have hshorter := first.shorter
    apply Agree.bind (ih.statements ending hfirst.next (by omega))
    intro rest rest' hrest
    exact .ok ⟨by simp only [Reading.andThen, hfirst.value, hrest.value], hrest.next, trivial⟩
  · -- the end of a block is asked for at the end, and a statement at the mark
    obtain ⟨unclosed, htoken⟩ := h.unread
    rw [hnil, List.isEmpty_nil, if_pos rfl, statement_unclosed hd (hmark ▸ htoken)]
    exact h.fail_end hnil _ _

end

theorem stmt_alike (ls : List Lexeme) (mark : Lexeme) (defined : List String) (n : Nat) :
    StmtAlike ls mark defined n := by
  induction n with
  | zero =>
    constructor
    all_goals
      intros
      omega
  | succ n ih =>
    exact ⟨statement_alike_step ih, chain_alike_step ih, block_alike_step ih,
      fun ending h hn => statements_alike_step ih h ending hn⟩

theorem statements_alike (h : Marked ls mark c d) (defined : List String) (ending : Expected) :
    ReadAlike ls mark (statements defined ending c) (statements defined ending d) :=
  (stmt_alike ls mark defined _).statements ending h (Nat.lt_succ_self _)

/-! ### Declarations -/

/-- Each declaration stands at a lexeme of the list that is its name. -/
def Declared (ls : List Lexeme) (ds : List Declaration) : Prop :=
  ∀ d ∈ ds, ∃ l ∈ ls, l.token = .name d.name ∧ l.location = d.place

theorem declared_nil : Declared ls [] := by
  simp [Declared]

theorem declared_append {ds es : List Declaration} (hds : Declared ls ds) (hes : Declared ls es) :
    Declared ls (ds ++ es) :=
  List.forall_mem_append.mpr ⟨hds, hes⟩

theorem declared_singleton {n : String × Lexeme} (hn : Named ls n) {d : Declaration} (hname : d.name = n.1)
    (hplace : d.place = n.2.location) : Declared ls [d] := by
  intro e he
  rw [List.mem_singleton.mp he, hname, hplace]
  exact ⟨n.2, hn.1, hn.2, rfl⟩

/-- Two attempts at the same declarations. -/
abbrev DeclareAlike (ls : List Lexeme) (mark : Lexeme) {c d : Cursor} (x : Attempt (List Declaration) c)
    (y : Attempt (List Declaration) d) : Prop :=
  Agree ls mark (Alike ls mark (Declared ls)) x y

theorem names_alike (h : Marked ls mark c d) (what : Expected) :
    Agree ls mark (Alike ls mark fun ns => ∀ n ∈ ns, Named ls n) (names what c) (names what d) := by
  induction hlength : c.ahead.length using Nat.strongRecOn generalizing c d with
  | ind n ih =>
    rw [names, names]
    apply Agree.bind (h.expectName _)
    intro first first' hfirst
    rcases hfirst.next.eat? (.mark .comma) rfl with ⟨comma, comma', hc, hd, hcomma⟩ | ⟨hc, hd⟩
    · have hshorter := Nat.lt_trans comma.shorter first.shorter
      rw [hc, hd]
      apply Agree.bind (ih _ (by omega) hcomma.next rfl)
      intro rest rest' hrest
      exact .ok ⟨by simp only [Reading.andThen, hfirst.value, hrest.value], hrest.next,
        List.forall_mem_cons.mpr ⟨hfirst.holds, hrest.holds⟩⟩
    · rw [hc, hd]
      exact .ok ⟨congrArg (fun n => [n]) hfirst.value, hfirst.next, List.forall_mem_singleton.mpr hfirst.holds⟩

theorem typedParameters_alike (h : Marked ls mark c d) (mutable : Bool) :
    DeclareAlike ls mark (typedParameters mutable c) (typedParameters mutable d) := by
  unfold typedParameters
  apply Agree.bind (names_alike h _)
  intro group group' hgroup
  apply Agree.bind (hgroup.next.expectMark _ _)
  intro colon colon' hcolon
  apply Agree.bind (dataType_alike hcolon.next)
  intro type type' htype
  refine .ok ⟨by simp only [Reading.andThen, hgroup.value, htype.value], htype.next, ?_⟩
  exact List.forall_mem_map.mpr fun n hn => ⟨n.2, (hgroup.holds n hn).1, (hgroup.holds n hn).2, rfl⟩

theorem parameterGroup_alike (h : Marked ls mark c d) :
    DeclareAlike ls mark (parameterGroup c) (parameterGroup d) := by
  unfold parameterGroup
  rcases h.eat? (.keyword .var) rfl with ⟨var, var', hc, hd, hvar⟩ | ⟨hc, hd⟩
  · rw [hc, hd]
    apply Agree.bind (typedParameters_alike hvar.next true)
    intro group group' hgroup
    exact .ok ⟨hgroup.value, hgroup.next, hgroup.holds⟩
  · rw [hc, hd]
    exact typedParameters_alike h false

theorem groupSeparator?_alike (h : Marked ls mark c d) :
    (∃ r s, groupSeparator? c = some r ∧ groupSeparator? d = some s ∧ Alike ls mark (· ∈ ls) r s) ∨
      (groupSeparator? c = none ∧ groupSeparator? d = none) := by
  unfold groupSeparator?
  rcases h.eat? (.mark .semicolon) rfl with ⟨r, s, hc, hd, hrs⟩ | ⟨hc, hd⟩
  · rw [hc, hd]
    exact .inl ⟨r, s, rfl, rfl, hrs⟩
  · rw [hc, hd]
    exact h.eat? (.mark .comma) rfl

theorem parameters_alike (h : Marked ls mark c d) : DeclareAlike ls mark (parameters c) (parameters d) := by
  induction hlength : c.ahead.length using Nat.strongRecOn generalizing c d with
  | ind n ih =>
    rw [parameters, parameters]
    apply Agree.bind (parameterGroup_alike h)
    intro group group' hgroup
    rcases groupSeparator?_alike hgroup.next with ⟨separator, separator', hc, hd, hseparator⟩ | ⟨hc, hd⟩
    · have hshorter := Nat.lt_trans separator.shorter group.shorter
      rw [hc, hd]
      apply Agree.bind (ih _ (by omega) hseparator.next rfl)
      intro rest rest' hrest
      exact .ok ⟨by simp only [Reading.andThen, hgroup.value, hrest.value], hrest.next,
        declared_append hgroup.holds hrest.holds⟩
    · rw [hc, hd]
      exact .ok hgroup

theorem parameterList_alike (h : Marked ls mark c d) :
    DeclareAlike ls mark (parameterList c) (parameterList d) := by
  unfold parameterList
  apply Agree.bind (h.expectMark _ _)
  intro opening opening' hopening
  rcases hopening.next.eat? (.mark .closeParen) rfl with ⟨close, close', hc, hd, hclose⟩ | ⟨hc, hd⟩
  · rw [hc, hd]
    exact .ok ⟨rfl, hclose.next, declared_nil⟩
  · rw [hc, hd]
    apply Agree.bind (parameters_alike hopening.next)
    intro all all' hall
    apply Agree.bind (hall.next.expectMark _ _)
    intro close close' hclose
    exact .ok ⟨hall.value, hclose.next, hall.holds⟩

theorem constants_alike (h : Marked ls mark c d) : DeclareAlike ls mark (constants c) (constants d) := by
  induction hlength : c.ahead.length using Nat.strongRecOn generalizing c d with
  | ind n ih =>
    rw [constants, constants]
    apply Agree.bind (h.expectName _)
    intro name name' hname
    apply Agree.bind (hname.next.expectMark _ _)
    intro equal equal' hequal
    apply Agree.bind (literal_alike hequal.next)
    intro value value' hvalue
    have hdeclared : Declared ls [.constant name.value.1 value.value name.value.2.location] :=
      declared_singleton hname.holds rfl rfl
    have hshorter := Nat.lt_trans value.shorter (Nat.lt_trans equal.shorter name.shorter)
    simp only [Reading.andThen]
    rcases hvalue.next.eat? (.mark .comma) rfl with ⟨comma, comma', hc, hd, hcomma⟩ | ⟨hc, hd⟩
    · have hshorter' := comma.shorter
      rw [hc, hd]
      apply Agree.bind (ih _ (by omega) hcomma.next rfl)
      intro rest rest' hrest
      exact .ok ⟨by simp only [hname.value, hvalue.value, hrest.value], hrest.next,
        declared_append hdeclared hrest.holds⟩
    · rw [hc, hd]
      exact .ok ⟨by simp only [Reading.map, hname.value, hvalue.value], hvalue.next, hdeclared⟩

theorem constantLine_alike (h : Marked ls mark c d) : DeclareAlike ls mark (constantLine c) (constantLine d) := by
  unfold constantLine
  rcases h.eat? (.keyword .const) rfl with ⟨const, const', hc, hd, hconst⟩ | ⟨hc, hd⟩
  · rw [hc, hd]
    apply Agree.bind (constants_alike hconst.next)
    intro all all' hall
    apply Agree.bind hall.next.expectLineEnd
    intro lineEnd lineEnd' hlineEnd
    exact .ok ⟨hall.value, hlineEnd.next, hall.holds⟩
  · rw [hc, hd]
    apply Agree.bind (constants_alike h)
    intro all all' hall
    apply Agree.bind hall.next.expectLineEnd
    intro lineEnd lineEnd' hlineEnd
    exact .ok ⟨hall.value, hlineEnd.next, hall.holds⟩

/-- An error in a range is reported at the name of the variable. -/
theorem typedVariables_agree (type : DataType) (range : Option Range) {ns : List (String × Lexeme)}
    (hns : ∀ n ∈ ns, Named ls n) :
    Agree ls mark (fun ds es => es = ds ∧ Declared ls ds) (typedVariables type range ns)
      (typedVariables type range ns) := by
  induction ns with
  | nil => exact .ok ⟨rfl, declared_nil⟩
  | cons n ns ih =>
    obtain ⟨name, l⟩ := n
    obtain ⟨hn, hrest⟩ := List.forall_mem_cons.mp hns
    rw [typedVariables]
    cases hvariable : Declaration.ofType name type range l.location with
    | error e => exact .atLexeme hn.1 _
    | ok v =>
      obtain ⟨-, -, hv⟩ := bind_eq_ok.mp hvariable
      cases hv
      apply Agree.bind (ih hrest)
      intro ds es hds
      exact .ok ⟨congrArg (List.cons _) hds.1, declared_append (declared_singleton hn rfl rfl) hds.2⟩

theorem rangeAndLineEnd_alike (h : Marked ls mark c d) :
    ReadAlike ls mark (rangeAndLineEnd c) (rangeAndLineEnd d) := by
  unfold rangeAndLineEnd
  rcases h.eat? (.keyword .from_) rfl with ⟨from_, from_', hc, hd, hfrom⟩ | ⟨hc, hd⟩
  · rw [hc, hd]
    apply Agree.bind (limits_alike hfrom.next)
    intro range range' hrange
    apply Agree.bind hrange.next.expectLineEnd
    intro lineEnd lineEnd' hlineEnd
    exact .ok ⟨congrArg some hrange.value, hlineEnd.next, trivial⟩
  · rw [hc, hd]
    apply Agree.bind h.expectLineEnd
    intro lineEnd lineEnd' hlineEnd
    exact .ok ⟨rfl, hlineEnd.next, trivial⟩

theorem variableLine_alike (h : Marked ls mark c d) : DeclareAlike ls mark (variableLine c) (variableLine d) := by
  unfold variableLine
  apply Agree.bind (h.expectName _)
  intro first first' hfirst
  rcases hfirst.next.eat? (.mark .equal) rfl with ⟨equal, equal', hc, hd, hequal⟩ | ⟨hc, hd⟩
  · rw [hc, hd]
    apply Agree.bind (literal_alike hequal.next)
    intro value value' hvalue
    apply Agree.bind hvalue.next.expectLineEnd
    intro lineEnd lineEnd' hlineEnd
    exact .ok ⟨by simp only [Reading.andThen, hfirst.value, hvalue.value], hlineEnd.next,
      declared_singleton hfirst.holds rfl rfl⟩
  · rw [hc, hd]
    apply Agree.bind (names_alike h _)
    intro all all' hall
    apply Agree.bind (hall.next.expectMark _ _)
    intro colon colon' hcolon
    apply Agree.bind (dataType_alike hcolon.next)
    intro type type' htype
    apply Agree.bind (rangeAndLineEnd_alike htype.next)
    intro range range' hrange
    rw [htype.value, hrange.value, hall.value]
    apply Agree.bind (typedVariables_agree _ _ hall.holds)
    intro ds es hds
    exact .ok ⟨hds.1, hrange.next, hds.2⟩

theorem Section.line_alike (h : Marked ls mark c d) (kind : Section) :
    DeclareAlike ls mark (kind.line c) (kind.line d) := by
  cases kind with
  | constants => exact constantLine_alike h
  | variables_ => exact variableLine_alike h

/-- In front of the mark there is no declaration. -/
theorem Section.line_unclosed {first : Reading Lexeme c} {what : Unclosed} (hfirst : c.next? = some first)
    (htoken : first.value.token = .unclosed what) (kind : Section) : ∃ cause, kind.line c = c.fail cause := by
  have hname : ∀ expected, c.expectName expected = c.fail (.expected expected) := by
    intro expected
    rw [Cursor.expectName, hfirst]
    dsimp only
    rw [htoken]
  cases kind with
  | constants =>
    have hconst : c.eat? (.keyword .const) = none := by simp [Cursor.eat?, hfirst, htoken]
    refine ⟨.expected .constantName, ?_⟩
    rw [line, constantLine, hconst]
    dsimp only
    rw [Parse.constants, hname]
    rfl
  | variables_ =>
    refine ⟨.expected .variableName, ?_⟩
    rw [line, variableLine, hname]
    rfl

theorem Section.lines_alike (h : Marked ls mark c d) (kind : Section) :
    DeclareAlike ls mark (kind.lines c) (kind.lines d) := by
  induction hlength : c.ahead.length using Nat.strongRecOn generalizing c d with
  | ind n ih =>
    rw [lines, lines, h.isEmpty]
    rcases h.eat? .dedent rfl with ⟨dedent, dedent', hc, hd, hdedent⟩ | ⟨hc, hd⟩
    · rw [hc, hd]
      exact .ok ⟨rfl, hdedent.next, declared_nil⟩
    rw [hc, hd]
    dsimp only
    rw [if_neg Bool.false_ne_true]
    rcases h.next? with ⟨first, -, hc, -, -⟩ | ⟨-, hnil, first', hd, hmark⟩
    · rw [Cursor.isEmpty_of_next? hc, if_neg Bool.false_ne_true]
      apply Agree.bind (line_alike h kind)
      intro first first' hfirst
      have hshorter := first.shorter
      apply Agree.bind (ih _ (by omega) hfirst.next rfl)
      intro rest rest' hrest
      exact .ok ⟨by simp only [Reading.andThen, hfirst.value, hrest.value], hrest.next,
        declared_append hfirst.holds hrest.holds⟩
    · obtain ⟨unclosed, htoken⟩ := h.unread
      obtain ⟨cause, hline⟩ := line_unclosed hd (hmark ▸ htoken) kind
      rw [hnil, List.isEmpty_nil, if_pos rfl, hline]
      exact h.fail_end hnil _ _

theorem Section.read_alike (h : Marked ls mark c d) (kind : Section) :
    DeclareAlike ls mark (kind.read c) (kind.read d) := by
  unfold Section.read
  rcases h.eat? .newline rfl with ⟨lineEnd, lineEnd', hc, hd, hlineEnd⟩ | ⟨hc, hd⟩
  · rw [hc, hd]
    apply Agree.bind (hlineEnd.next.expect .indent rfl _)
    intro indent indent' hindent
    apply Agree.bind (lines_alike hindent.next kind)
    intro all all' hall
    exact .ok ⟨hall.value, hall.next, hall.holds⟩
  · rw [hc, hd]
    exact line_alike h kind

theorem section?_alike (h : Marked ls mark c d) :
    (∃ r s, section? c = some r ∧ section? d = some s ∧ Alike ls mark (fun _ => True) r s) ∨
      (section? c = none ∧ section? d = none) := by
  unfold section?
  rcases h.eat? (.keyword .constants) rfl with ⟨r, s, hc, hd, hrs⟩ | ⟨hc, hd⟩
  · rw [hc, hd]
    exact .inl ⟨_, _, rfl, rfl, rfl, hrs.next, trivial⟩
  · rw [hc, hd]
    rcases h.eat? (.keyword .variables_) rfl with ⟨r, s, hc, hd, hrs⟩ | ⟨hc, hd⟩
    · rw [hc, hd]
      exact .inl ⟨_, _, rfl, rfl, rfl, hrs.next, trivial⟩
    · rw [hc, hd]
      exact .inr ⟨rfl, rfl⟩

/-! ### Functions -/

/-- A name that is declared twice is reported where it stands for the second time. -/
theorem reserve_agree {taken : List String} {ds : List Declaration} (hds : Declared ls ds) :
    Agree ls mark Eq (reserve taken ds) (reserve taken ds) := by
  induction ds generalizing taken with
  | nil => exact .ok rfl
  | cons v ds ih =>
    obtain ⟨⟨l, hl, htoken, hplace⟩, hds⟩ := List.forall_mem_cons.mp hds
    rw [reserve]
    by_cases htaken : taken.contains v.name = true
    · rw [if_pos htaken, ← htoken, ← hplace]
      exact .atLexeme hl _
    · rw [if_neg htaken]
      exact ih hds

theorem functionBody_alike (h : Marked ls mark c d) (defined taken : List String) :
    ReadAlike ls mark (functionBody defined taken c) (functionBody defined taken d) := by
  induction hlength : c.ahead.length using Nat.strongRecOn generalizing c d taken with
  | ind n ih =>
    rw [functionBody, functionBody]
    rcases section?_alike h with ⟨word, word', hc, hd, hword⟩ | ⟨hc, hd⟩
    · rw [hc, hd]
      dsimp only
      rw [hword.value]
      apply Agree.bind (Section.read_alike hword.next _)
      intro declared declared' hdeclared
      have hshorter := Nat.lt_trans declared.shorter word.shorter
      rw [hdeclared.value]
      apply Agree.bind (reserve_agree hdeclared.holds)
      intro taken taken' htaken
      cases htaken
      apply Agree.bind (ih _ (by omega) hdeclared.next taken rfl)
      intro rest rest' hrest
      exact .ok ⟨by simp only [Reading.andThen, hrest.value], hrest.next, trivial⟩
    · rw [hc, hd]
      apply Agree.bind (statements_alike h _ _)
      intro body body' hbody
      exact .ok ⟨congrArg (Prod.mk []) hbody.value, hbody.next, trivial⟩

theorem function_alike (h : Marked ls mark c d) (defined : List String) :
    ReadAlike ls mark (function defined c) (function defined d) := by
  unfold function
  apply Agree.bind (h.expectWord _ _)
  intro define define' hdefine
  apply Agree.bind (hdefine.next.expectName _)
  intro name name' hname
  apply Agree.bind (parameterList_alike hname.next)
  intro declared declared' hdeclared
  apply Agree.bind hdeclared.next.expectLineEnd
  intro lineEnd lineEnd' hlineEnd
  apply Agree.bind (hlineEnd.next.expect .indent rfl _)
  intro indent indent' hindent
  rw [hdeclared.value]
  apply Agree.bind (reserve_agree hdeclared.holds)
  intro taken taken' htaken
  cases htaken
  apply Agree.bind (functionBody_alike hindent.next _ _)
  intro body body' hbody
  exact .ok ⟨by simp only [Reading.andThen, hdefine.value, hname.value, hbody.value, hbody.next.last], hbody.next,
    trivial⟩

/-- A list that is refused stays refused with a mark behind it. -/
theorem functions_agree (h : Marked ls mark c d) (defined : List String) {program : Program} {e : SyntaxError}
    (hrun : functions defined program c = .error e) :
    Agree ls mark (fun (_ _ : Program) => False) (.error e) (functions defined program d) := by
  induction hlength : c.ahead.length using Nat.strongRecOn generalizing c d program with
  | ind n ih =>
    have hfunction := function_alike h defined
    rw [functions] at hrun
    rw [functions, h.isEmpty, if_neg Bool.false_ne_true]
    split at hrun
    · cases hrun
    generalize function defined c = x at hfunction hrun
    generalize function defined d = y at hfunction ⊢
    cases hfunction with
    | atLexeme hl cause =>
      cases hrun
      exact .atLexeme hl cause
    | atEnd cause cause' =>
      cases hrun
      exact .atEnd cause cause'
    | @ok f f' hf =>
      rw [ok_bind] at hrun ⊢
      rw [hf.value]
      cases hdefine : program.define f.value with
      | error error =>
        simp only [hdefine] at hrun ⊢
        rw [← hrun]
        exact h.fail _
      | ok next =>
        simp only [hdefine] at hrun ⊢
        have hshorter := f.shorter
        exact ih _ (by omega) hf.next hrun rfl

theorem definedNames_append_mark {what : Unclosed} (hmark : mark.token = .unclosed what) (ls : List Lexeme) :
    definedNames (ls ++ [mark]) = definedNames ls := by
  induction ls with
  | nil => rfl
  | cons a ls ih =>
    cases ls with
    | nil => simp [definedNames, hmark]
    | cons b ls =>
      simp only [List.cons_append, definedNames] at ih ⊢
      rw [ih]

section

variable {α β : Type} {R : α → β → Prop} {e : SyntaxError} {y : Except SyntaxError β}

theorem Agree.at_lexeme (h : Agree ls mark R (.error e) y) (hend : e.token ≠ "end of input") :
    (∃ l ∈ ls, ∃ cause, e = .atLexeme l cause) ∧ y = .error e := by
  cases h with
  | atLexeme hl cause => exact ⟨⟨_, hl, cause, rfl⟩, rfl⟩
  | atEnd cause cause' => exact absurd rfl hend

theorem Agree.at_end (h : Agree ls mark R (.error e) y) (hend : e.token = "end of input") :
    e.location = (Cursor.ofLexemes ls).finish ∧ ∃ cause, y = .error (.atLexeme mark cause) := by
  cases h with
  | @atLexeme l hl cause => exact absurd hend l.token.description_ne
  | atEnd cause cause' => exact ⟨rfl, cause', rfl⟩

end

end Parse

open Parse

/-- A list of lexemes that is refused is refused at one of its lexemes or at its end. At the end, all lexemes are taken:
if one that nothing reads is put behind the list, the error is there. An error inside the list stays where it is. -/
theorem Program.ofLexemes_error_place {ls : List Lexeme} {e : SyntaxError} (h : Program.ofLexemes ls = .error e) :
    (∃ l ∈ ls, e.token = l.token.description ∧ e.location.span = l.span ∧ e.location.line = l.line ∧
      ∀ mark what, mark.token = .unclosed what → Program.ofLexemes (ls ++ [mark]) = .error e) ∨
    (e.token = "end of input" ∧
      e.location = (ls.getLast?.map fun l => ⟨.point l.span.stop, l.line⟩).getD ⟨⟨0, 0⟩, 1⟩ ∧
      ∀ mark what, mark.token = .unclosed what →
        ∃ cause, Program.ofLexemes (ls ++ [mark]) = .error (.atLexeme mark cause)) := by
  have hagree : ∀ mark what, mark.token = .unclosed what →
      Agree ls mark (fun (_ _ : Program) => False) (.error e) (Program.ofLexemes (ls ++ [mark])) := by
    intro mark what hmark
    have hmarked : Marked ls mark (.ofLexemes ls) (.ofLexemes (ls ++ [mark])) :=
      ⟨⟨what, hmark⟩, rfl, rfl, fun _ => id, rfl⟩
    rw [Program.ofLexemes, definedNames_append_mark hmark]
    exact functions_agree hmarked _ h
  have hsome := hagree (.synthetic (.unclosed .string) .start) .string rfl
  by_cases hend : e.token = "end of input"
  · refine .inr ⟨hend, (hsome.at_end hend).1.trans ?_, fun mark what hmark => ((hagree mark what hmark).at_end hend).2⟩
    unfold Cursor.ofLexemes
    cases ls.getLast? <;> rfl
  · obtain ⟨l, hl, cause, rfl⟩ := (hsome.at_lexeme hend).1
    exact .inl ⟨l, hl, rfl, rfl, rfl, fun mark what hmark => ((hagree mark what hmark).at_lexeme hend).2⟩

/-- A call cut off inside its parentheses, of which both readings come to the end. -/
theorem Program.ofLexemes_error_place_cut :
    ∃ ls e, (lexemes "define f()\n\tWrite (a").map (List.take 9) = .ok ls ∧ Program.ofLexemes ls = .error e ∧
      e.text = "Syntax error on line 2 at end of input: expected `)` to close the argument list" ∧
      e.location.span = ⟨20, 20⟩ ∧
      ∀ mark what, mark.token = .unclosed what →
        ∃ cause, Program.ofLexemes (ls ++ [mark]) = .error (.atLexeme mark cause) := by
  obtain ⟨ls, hls⟩ := exists_eq_ok
    (show ((lexemes "define f()\n\tWrite (a").map (List.take 9)).isOk = true by decide +kernel)
  have hview : ((lexemes "define f()\n\tWrite (a").map (List.take 9)).map
      (fun ls => (Program.ofLexemes ls).map fun _ => ()) =
        .ok (.error ⟨.expected .closeArguments, "end of input", ⟨⟨20, 20⟩, 2⟩⟩) := by decide +kernel
  rw [hls] at hview
  cases hrun : Program.ofLexemes ls with
  | ok program => simp [Except.map, hrun] at hview
  | error e =>
    obtain rfl : e = ⟨.expected .closeArguments, "end of input", ⟨⟨20, 20⟩, 2⟩⟩ := by
      simpa [Except.map, hrun] using hview
    rcases Program.ofLexemes_error_place hrun with ⟨l, -, htoken, -⟩ | ⟨-, -, hmark⟩
    · exact absurd htoken.symm l.token.description_ne
    · exact ⟨ls, _, hls, hrun, by decide +kernel, rfl, hmark⟩

end Offside
