import Offside.Parse.Call
import Offside.Proofs.CursorTokens

/-!
# Lists with a marked end

Whether reading came to the end of a list shows when a mark is put there, a lexeme that no reader takes. A reader does
the same in front of the mark as in front of the end, with one difference: the error that it reports at the end is
reported at the mark. `Agree` says this of two attempts, and that all other errors are at lexemes of the list.
-/

namespace Offside

/-- Whether a token is one that the scanner gives up at. -/
def Token.isUnclosed : Token → Bool
  | unclosed _ => true
  | _ => false

namespace Parse

/-- Two cursors at the same place, in a list of lexemes and in the list with a mark behind it. -/
structure Marked (ls : List Lexeme) (mark : Lexeme) (c d : Cursor) : Prop where
  unread : ∃ what, mark.token = .unclosed what
  ahead : d.ahead = c.ahead ++ [mark]
  last : d.last = c.last
  within : ∀ l ∈ c.ahead, l ∈ ls
  finish : c.finish = (Cursor.ofLexemes ls).finish

/-- Two attempts in a list and in the list with a mark behind it. Both succeed, with related values, or both fail: at
the same lexeme for the same cause, or at the end and at the mark. -/
inductive Agree (ls : List Lexeme) (mark : Lexeme) {α β : Type} (R : α → β → Prop) :
    Except SyntaxError α → Except SyntaxError β → Prop where
  | ok {a : α} {b : β} (h : R a b) : Agree ls mark R (.ok a) (.ok b)
  | atLexeme {l : Lexeme} (hl : l ∈ ls) (cause : SyntaxCause) :
      Agree ls mark R (.error (.atLexeme l cause)) (.error (.atLexeme l cause))
  | atEnd (cause cause' : SyntaxCause) :
      Agree ls mark R (.error ⟨cause, "end of input", (Cursor.ofLexemes ls).finish⟩) (.error (.atLexeme mark cause'))

/-- Two readings of the same value, which has a property, that lead to the same place. -/
structure Alike (ls : List Lexeme) (mark : Lexeme) {α : Type} {c d : Cursor} (P : α → Prop) (r : Reading α c)
    (s : Reading α d) : Prop where
  value : s.value = r.value
  next : Marked ls mark r.next s.next
  holds : P r.value

/-- Two attempts at the same value. -/
abbrev ReadAlike (ls : List Lexeme) (mark : Lexeme) {α : Type} {c d : Cursor} (x : Attempt α c) (y : Attempt α d) :
    Prop :=
  Agree ls mark (Alike ls mark fun _ => True) x y

/-- A name with its lexeme, one of the list. -/
def Named (ls : List Lexeme) (n : String × Lexeme) : Prop :=
  n.2 ∈ ls ∧ n.2.token = .name n.1

variable {ls : List Lexeme} {mark : Lexeme} {α β γ δ : Type} {c d : Cursor}

theorem Agree.bind {R : α → β → Prop} {S : γ → δ → Prop} {x : Except SyntaxError α} {y : Except SyntaxError β}
    {f : α → Except SyntaxError γ} {g : β → Except SyntaxError δ} (h : Agree ls mark R x y)
    (hnext : ∀ a b, R a b → Agree ls mark S (f a) (g b)) : Agree ls mark S (x >>= f) (y >>= g) := by
  cases h with
  | ok h => exact hnext _ _ h
  | atLexeme hl cause => exact .atLexeme hl cause
  | atEnd cause cause' => exact .atEnd cause cause'

/-! ### Cursors -/

theorem Cursor.next?_of_nil (h : c.ahead = []) : c.next? = none := by
  obtain ⟨ahead, last, finish⟩ := c
  cases h
  rfl

theorem Cursor.next?_of_cons {l : Lexeme} {rest : List Lexeme} (h : c.ahead = l :: rest) :
    ∃ passes, c.next? = some ⟨l, ⟨rest, l.span, c.finish⟩, passes⟩ := by
  obtain ⟨ahead, last, finish⟩ := c
  cases h
  exact ⟨_, rfl⟩

theorem Cursor.token?_of_next? {r : Reading Lexeme c} (h : c.next? = some r) : c.token? = some r.value.token := by
  rw [token?, ahead_of_next? h]
  rfl

theorem Cursor.isEmpty_of_next? {r : Reading Lexeme c} (h : c.next? = some r) : c.ahead.isEmpty = false := by
  rw [ahead_of_next? h]
  rfl

namespace Marked

theorem isEmpty (h : Marked ls mark c d) : d.ahead.isEmpty = false := by
  simp [h.ahead]

/-- Only at the end of the list is the mark next. -/
theorem next? (h : Marked ls mark c d) :
    (∃ r s, c.next? = some r ∧ d.next? = some s ∧ Alike ls mark (· ∈ ls) r s) ∨
      (c.next? = none ∧ c.ahead = [] ∧ ∃ s, d.next? = some s ∧ s.value = mark) := by
  have hahead := h.ahead
  have hwithin := h.within
  cases hc : c.ahead with
  | nil =>
    rw [hc, List.nil_append] at hahead
    obtain ⟨passes, hd⟩ := Cursor.next?_of_cons hahead
    exact .inr ⟨Cursor.next?_of_nil hc, rfl, _, hd, rfl⟩
  | cons l rest =>
    rw [hc] at hahead hwithin
    obtain ⟨passes, hc⟩ := Cursor.next?_of_cons hc
    obtain ⟨passes', hd⟩ := Cursor.next?_of_cons hahead
    obtain ⟨hl, hrest⟩ := List.forall_mem_cons.mp hwithin
    exact .inl ⟨_, _, hc, hd, rfl, ⟨h.unread, rfl, rfl, hrest, h.finish⟩, hl⟩

theorem eat? (h : Marked ls mark c d) (t : Token) (ht : t.isUnclosed = false) :
    (∃ r s, c.eat? t = some r ∧ d.eat? t = some s ∧ Alike ls mark (· ∈ ls) r s) ∨
      (c.eat? t = none ∧ d.eat? t = none) := by
  unfold Cursor.eat?
  rcases h.next? with ⟨r, s, hc, hd, hrs⟩ | ⟨hc, -, s, hd, hs⟩
  · rw [hc, hd]
    dsimp only
    rw [hrs.value]
    by_cases htoken : r.value.token = t
    · rw [if_pos htoken, if_pos htoken]
      exact .inl ⟨r, s, rfl, rfl, hrs⟩
    · rw [if_neg htoken, if_neg htoken]
      exact .inr ⟨rfl, rfl⟩
  · obtain ⟨what, hmark⟩ := h.unread
    have hne : Token.unclosed what ≠ t := by
      intro heq
      rw [← heq] at ht
      cases ht
    rw [hc, hd]
    dsimp only
    rw [hs, hmark, if_neg hne]
    exact .inr ⟨rfl, rfl⟩

theorem operator? (h : Marked ls mark c d) (pick : Token → Option α) (hpick : ∀ what, pick (.unclosed what) = none) :
    (∃ r s, operator? pick c = some r ∧ operator? pick d = some s ∧ Alike ls mark (fun _ => True) r s) ∨
      (Parse.operator? pick c = none ∧ Parse.operator? pick d = none) := by
  unfold Parse.operator?
  rcases h.next? with ⟨r, s, hc, hd, hrs⟩ | ⟨hc, -, s, hd, hs⟩
  · rw [hc, hd]
    dsimp only
    rw [hrs.value]
    cases pick r.value.token with
    | none => exact .inr ⟨rfl, rfl⟩
    | some op => exact .inl ⟨_, _, rfl, rfl, rfl, hrs.next, trivial⟩
  · obtain ⟨what, hmark⟩ := h.unread
    rw [hc, hd]
    dsimp only
    rw [hs, hmark, hpick]
    exact .inr ⟨rfl, rfl⟩

section

variable {R : α → β → Prop}

theorem fail (h : Marked ls mark c d) (cause : SyntaxCause) : Agree ls mark R (c.fail cause) (d.fail cause) := by
  unfold Cursor.fail Cursor.fault
  rw [h.ahead]
  cases hc : c.ahead with
  | nil =>
    rw [h.finish]
    exact .atEnd cause cause
  | cons l rest => exact .atLexeme (h.within l (by simp [hc])) cause

/-- At the end, the causes may differ. -/
theorem fail_end (h : Marked ls mark c d) (hc : c.ahead = []) (cause cause' : SyntaxCause) :
    Agree ls mark R (c.fail cause) (d.fail cause') := by
  unfold Cursor.fail Cursor.fault
  rw [h.ahead, hc, h.finish]
  exact .atEnd cause cause'

end

theorem expect (h : Marked ls mark c d) (t : Token) (ht : t.isUnclosed = false) (what : Expected) :
    Agree ls mark (Alike ls mark (· ∈ ls)) (c.expect t what) (d.expect t what) := by
  unfold Cursor.expect
  rcases h.eat? t ht with ⟨r, s, hc, hd, hrs⟩ | ⟨hc, hd⟩
  · rw [hc, hd]
    exact .ok hrs
  · rw [hc, hd]
    exact h.fail _

theorem expectMark (h : Marked ls mark c d) (m : Mark) (what : Expected) :
    Agree ls mark (Alike ls mark (· ∈ ls)) (c.expectMark m what) (d.expectMark m what) :=
  h.expect (.mark m) rfl what

theorem expectWord (h : Marked ls mark c d) (word : Keyword) (what : Expected) :
    Agree ls mark (Alike ls mark (· ∈ ls)) (c.expectWord word what) (d.expectWord word what) :=
  h.expect (.keyword word) rfl what

theorem expectLineEnd (h : Marked ls mark c d) :
    Agree ls mark (Alike ls mark (· ∈ ls)) c.expectLineEnd d.expectLineEnd :=
  h.expect .newline rfl .lineEnd

theorem expectName (h : Marked ls mark c d) (what : Expected) :
    Agree ls mark (Alike ls mark (Named ls)) (c.expectName what) (d.expectName what) := by
  unfold Cursor.expectName
  rcases h.next? with ⟨r, s, hc, hd, hrs⟩ | ⟨hc, hnil, s, hd, hs⟩
  · rw [hc, hd]
    dsimp only
    rw [hrs.value]
    cases htoken : r.value.token with
    | name name => exact .ok ⟨congrArg (Prod.mk name) hrs.value, hrs.next, hrs.holds, htoken⟩
    | _ => exact h.fail _
  · obtain ⟨unclosed, hmark⟩ := h.unread
    rw [hc, hd]
    dsimp only
    rw [hs, hmark]
    exact h.fail _

end Marked

/-! ### Literals and types -/

section

variable (h : Marked ls mark c d)
include h

theorem plainLiteral_alike (what : Expected) : ReadAlike ls mark (plainLiteral what c) (plainLiteral what d) := by
  unfold plainLiteral
  rcases h.next? with ⟨r, s, hc, hd, hrs⟩ | ⟨hc, -, s, hd, hs⟩
  · rw [hc, hd, Cursor.token?_of_next? hc, Cursor.token?_of_next? hd]
    dsimp only
    rw [hrs.value]
    cases literalOf? r.value.token with
    | some value => exact .ok ⟨rfl, hrs.next, trivial⟩
    | none => exact h.fail _
  · obtain ⟨unclosed, hmark⟩ := h.unread
    rw [hc, hd, Cursor.token?_of_next? hd]
    dsimp only
    rw [hs, hmark]
    exact h.fail _

theorem negativeLiteral_alike : ReadAlike ls mark (negativeLiteral c) (negativeLiteral d) := by
  unfold negativeLiteral
  rcases h.eat? leastMagnitude rfl with ⟨r, s, hc, hd, hrs⟩ | ⟨hc, hd⟩
  · rw [hc, hd]
    exact .ok ⟨rfl, hrs.next, trivial⟩
  · rw [hc, hd]
    apply Agree.bind (plainLiteral_alike h _)
    intro r s hrs
    rw [hrs.value]
    cases r.value.negate? with
    | some value => exact .ok ⟨rfl, hrs.next, trivial⟩
    | none => exact h.fail _

theorem literal_alike : ReadAlike ls mark (literal c) (literal d) := by
  unfold literal
  rcases h.eat? (.mark .minus) rfl with ⟨minus, minus', hc, hd, hminus⟩ | ⟨hc, hd⟩
  · rw [hc, hd]
    apply Agree.bind (negativeLiteral_alike hminus.next)
    intro r s hrs
    exact .ok ⟨hrs.value, hrs.next, trivial⟩
  · rw [hc, hd]
    exact plainLiteral_alike h _

theorem scalarType_alike : ReadAlike ls mark (scalarType c) (scalarType d) := by
  unfold scalarType
  rcases h.next? with ⟨r, s, hc, hd, hrs⟩ | ⟨hc, -, s, hd, hs⟩
  · rw [hc, hd]
    dsimp only
    rw [hrs.value]
    cases scalarType? r.value.token with
    | some type => exact .ok ⟨rfl, hrs.next, trivial⟩
    | none => exact h.fail _
  · obtain ⟨unclosed, hmark⟩ := h.unread
    rw [hc, hd]
    dsimp only
    rw [hs, hmark]
    exact h.fail _

theorem dataType_alike : ReadAlike ls mark (dataType c) (dataType d) := by
  unfold dataType
  rcases h.eat? (.keyword .array) rfl with ⟨array, array', hc, hd, harray⟩ | ⟨hc, hd⟩
  · rw [hc, hd]
    apply Agree.bind (harray.next.expectWord _ _)
    intro of_ of_' hof
    rcases hof.next.eat? (.keyword .array) rfl with ⟨nested, nested', hc, hd, -⟩ | ⟨hc, hd⟩
    · rw [hc, hd]
      exact hof.next.fail _
    · rw [hc, hd]
      apply Agree.bind (scalarType_alike hof.next)
      intro element element' helement
      exact .ok ⟨congrArg DataType.array helement.value, helement.next, trivial⟩
  · rw [hc, hd]
    exact scalarType_alike h

theorem limits_alike : ReadAlike ls mark (limits c) (limits d) := by
  unfold limits
  apply Agree.bind (literal_alike h)
  intro low low' hlow
  apply Agree.bind (hlow.next.expectWord _ _)
  intro to_ to_' hto
  apply Agree.bind (literal_alike hto.next)
  intro high high' hhigh
  exact .ok ⟨by simp only [Reading.andThen, hlow.value, hhigh.value], hhigh.next, trivial⟩

end

/-! ### Expressions -/

/-- The readers of expressions do alike at cursors with few enough lexemes ahead. -/
structure ExprAlike (ls : List Lexeme) (mark : Lexeme) (n : Nat) : Prop where
  factor : ∀ {c d}, Marked ls mark c d → 3 * c.ahead.length < n → ReadAlike ls mark (factor c) (factor d)
  productRest : ∀ {start start'} {left : Reading Expr start} {left' : Reading Expr start'},
    Alike ls mark (fun _ => True) left left' → 3 * left.next.ahead.length < n →
      ReadAlike ls mark (productRest left) (productRest left')
  product : ∀ {c d}, Marked ls mark c d → 3 * c.ahead.length + 1 < n → ReadAlike ls mark (product c) (product d)
  sumRest : ∀ {start start'} {left : Reading Expr start} {left' : Reading Expr start'},
    Alike ls mark (fun _ => True) left left' → 3 * left.next.ahead.length < n →
      ReadAlike ls mark (sumRest left) (sumRest left')
  sum : ∀ {c d}, Marked ls mark c d → 3 * c.ahead.length + 2 < n → ReadAlike ls mark (sum c) (sum d)

section

variable {n : Nat} (ih : ExprAlike ls mark n)
include ih

theorem factor_alike_step (h : Marked ls mark c d) (hn : 3 * c.ahead.length < n + 1) :
    ReadAlike ls mark (factor c) (factor d) := by
  have hliteral : ReadAlike ls mark
      (do
        let value ← plainLiteral .expression c
        return value.map Expr.literal)
      (do
        let value ← plainLiteral .expression d
        return value.map Expr.literal) := by
    apply Agree.bind (plainLiteral_alike h _)
    intro value value' hvalue
    exact .ok ⟨congrArg Expr.literal hvalue.value, hvalue.next, trivial⟩
  rw [factor, factor]
  rcases h.next? with ⟨first, first', hc, hd, hfirst⟩ | ⟨hc, -, first', hd, hmark⟩
  · have hshorter := first.shorter
    rw [hc, hd]
    dsimp only
    rw [hfirst.value]
    cases first.value.token with
    | mark sign =>
      cases sign with
      | minus =>
        dsimp only
        rcases hfirst.next.eat? leastMagnitude rfl with ⟨least, least', hc, hd, hleast⟩ | ⟨hc, hd⟩
        · rw [hc, hd]
          exact .ok ⟨rfl, hleast.next, trivial⟩
        · rw [hc, hd]
          apply Agree.bind (ih.factor hfirst.next (by omega))
          intro operand operand' hoperand
          exact .ok ⟨congrArg Expr.negate hoperand.value, hoperand.next, trivial⟩
      | openParen =>
        apply Agree.bind (ih.sum hfirst.next (by omega))
        intro inner inner' hinner
        apply Agree.bind (hinner.next.expectMark _ _)
        intro close close' hclose
        exact .ok ⟨hinner.value, hclose.next, trivial⟩
      | _ => exact hliteral
    | name name =>
      dsimp only
      rcases hfirst.next.eat? (.mark .openBracket) rfl with ⟨bracket, bracket', hc, hd, hbracket⟩ | ⟨hc, hd⟩
      · have hshorter' := bracket.shorter
        rw [hc, hd]
        apply Agree.bind (ih.sum hbracket.next (by omega))
        intro index index' hindex
        apply Agree.bind (hindex.next.expectMark _ _)
        intro close close' hclose
        exact .ok ⟨congrArg (Expr.element name) hindex.value, hclose.next, trivial⟩
      · rw [hc, hd]
        exact .ok ⟨rfl, hfirst.next, trivial⟩
    | _ => exact hliteral
  · -- the mark is taken for a literal, which it is not
    obtain ⟨unclosed, htoken⟩ := h.unread
    rw [plainLiteral, hc] at hliteral
    rw [hc, hd]
    dsimp only
    rw [hmark, htoken]
    exact hliteral

theorem productRest_alike_step {start start' : Cursor} {left : Reading Expr start} {left' : Reading Expr start'}
    (h : Alike ls mark (fun _ => True) left left') (hn : 3 * left.next.ahead.length < n + 1) :
    ReadAlike ls mark (productRest left) (productRest left') := by
  rw [productRest, productRest]
  rcases h.next.operator? multiplicativeOf? (fun _ => rfl) with ⟨op, op', hc, hd, hop⟩ | ⟨hc, hd⟩
  · have hshorter := op.shorter
    rw [hc, hd]
    apply Agree.bind (ih.factor hop.next (by omega))
    intro right right' hright
    have hshorter' := right.shorter
    refine ih.productRest ⟨?_, hright.next, trivial⟩ (by simp only [Reading.andThen]; omega)
    simp only [Reading.andThen, h.value, hop.value, hright.value]
  · rw [hc, hd]
    exact .ok h

theorem sumRest_alike_step {start start' : Cursor} {left : Reading Expr start} {left' : Reading Expr start'}
    (h : Alike ls mark (fun _ => True) left left') (hn : 3 * left.next.ahead.length < n + 1) :
    ReadAlike ls mark (sumRest left) (sumRest left') := by
  rw [sumRest, sumRest]
  rcases h.next.operator? additiveOf? (fun _ => rfl) with ⟨op, op', hc, hd, hop⟩ | ⟨hc, hd⟩
  · have hshorter := op.shorter
    rw [hc, hd]
    apply Agree.bind (ih.product hop.next (by omega))
    intro right right' hright
    have hshorter' := right.shorter
    refine ih.sumRest ⟨?_, hright.next, trivial⟩ (by simp only [Reading.andThen]; omega)
    simp only [Reading.andThen, h.value, hop.value, hright.value]
  · rw [hc, hd]
    exact .ok h

end

/-- Each call is made in front of fewer lexemes or one level down. -/
theorem expr_alike (ls : List Lexeme) (mark : Lexeme) (n : Nat) : ExprAlike ls mark n := by
  induction n with
  | zero =>
    constructor
    all_goals
      intros
      omega
  | succ n ih =>
    constructor
    · exact factor_alike_step ih
    · exact productRest_alike_step ih
    · intro c d h hn
      rw [product, product]
      apply Agree.bind (ih.factor h (by omega))
      intro first first' hfirst
      have hshorter := first.shorter
      exact ih.productRest hfirst (by omega)
    · exact sumRest_alike_step ih
    · intro c d h hn
      rw [sum, sum]
      apply Agree.bind (ih.product h (by omega))
      intro first first' hfirst
      have hshorter := first.shorter
      exact ih.sumRest hfirst (by omega)

section

variable (h : Marked ls mark c d)
include h

theorem sum_alike : ReadAlike ls mark (sum c) (sum d) :=
  (expr_alike ls mark _).sum h (Nat.lt_succ_self _)

theorem comparison_alike : ReadAlike ls mark (comparison c) (comparison d) := by
  unfold comparison
  apply Agree.bind (sum_alike h)
  intro left left' hleft
  rcases hleft.next.operator? comparisonOf? (fun _ => rfl) with ⟨op, op', hc, hd, hop⟩ | ⟨hc, hd⟩
  · rw [hc, hd]
    apply Agree.bind (sum_alike hop.next)
    intro right right' hright
    exact .ok ⟨by simp only [Reading.andThen, hleft.value, hop.value, hright.value], hright.next, trivial⟩
  · rw [hc, hd]
    exact .ok hleft

end

/-- In front of the mark there is no expression. -/
theorem comparison_unclosed {first : Reading Lexeme c} {what : Unclosed} (hfirst : c.next? = some first)
    (htoken : first.value.token = .unclosed what) : comparison c = c.fail (.expected .expression) := by
  have hfactor : factor c = c.fail (.expected .expression) := by
    rw [factor, hfirst]
    dsimp only
    rw [htoken, plainLiteral, hfirst, Cursor.token?_of_next? hfirst]
    dsimp only
    rw [htoken]
    rfl
  rw [comparison, sum, product, hfactor]
  rfl

/-! ### Arguments -/

section

variable (h : Marked ls mark c d)
include h

theorem argument_alike : ReadAlike ls mark (argument c) (argument d) := by
  unfold argument
  rcases h.next? with ⟨first, first', hc, hd, hfirst⟩ | ⟨hc, hnil, first', hd, hmark⟩
  · rw [hc, hd]
    dsimp only
    rw [hfirst.value]
    by_cases hvar : first.value.token = .keyword .var
    · rw [if_pos hvar, if_pos hvar]
      apply Agree.bind (comparison_alike hfirst.next)
      intro value value' hvalue
      rw [hvalue.value]
      cases value.value.target? with
      | some target => exact .ok ⟨rfl, hvalue.next, trivial⟩
      | none => exact .atLexeme hfirst.holds _
    · rw [if_neg hvar, if_neg hvar]
      apply Agree.bind (comparison_alike h)
      intro value value' hvalue
      exact .ok ⟨congrArg (Argument.mk · false) hvalue.value, hvalue.next, trivial⟩
  · obtain ⟨unclosed, htoken⟩ := h.unread
    have htoken : first'.value.token = .unclosed unclosed := by rw [hmark, htoken]
    rw [hc, hd]
    dsimp only
    rw [htoken, if_neg (by simp), comparison_unclosed hd htoken]
    exact h.fail_end hnil _ _

theorem arguments_alike : ReadAlike ls mark (arguments c) (arguments d) := by
  induction hlength : c.ahead.length using Nat.strongRecOn generalizing c d with
  | ind n ih =>
    rw [arguments, arguments]
    apply Agree.bind (argument_alike h)
    intro first first' hfirst
    rcases hfirst.next.eat? (.mark .comma) rfl with ⟨comma, comma', hc, hd, hcomma⟩ | ⟨hc, hd⟩
    · have hshorter := Nat.lt_trans comma.shorter first.shorter
      rw [hc, hd]
      apply Agree.bind (ih _ (by omega) hcomma.next rfl)
      intro rest rest' hrest
      exact .ok ⟨by simp only [Reading.andThen, hfirst.value, hrest.value], hrest.next, trivial⟩
    · rw [hc, hd]
      exact .ok ⟨congrArg (fun a => [a]) hfirst.value, hfirst.next, trivial⟩

theorem bareArguments_alike : ReadAlike ls mark (bareArguments c) (bareArguments d) := by
  unfold bareArguments
  rcases h.eat? .newline rfl with ⟨lineEnd, lineEnd', hc, hd, hlineEnd⟩ | ⟨hc, hd⟩
  · rw [hc, hd]
    exact .ok ⟨rfl, hlineEnd.next, trivial⟩
  · rw [hc, hd]
    apply Agree.bind (arguments_alike h)
    intro args args' hargs
    apply Agree.bind hargs.next.expectLineEnd
    intro lineEnd lineEnd' hlineEnd
    exact .ok ⟨hargs.value, hlineEnd.next, trivial⟩

theorem enclosedArguments_alike : ReadAlike ls mark (enclosedArguments c) (enclosedArguments d) := by
  unfold enclosedArguments
  rcases h.eat? (.mark .closeParen) rfl with ⟨close, close', hc, hd, hclose⟩ | ⟨hc, hd⟩
  · rw [hc, hd]
    exact .ok ⟨rfl, hclose.next, trivial⟩
  · rw [hc, hd]
    apply Agree.bind (arguments_alike h)
    intro args args' hargs
    apply Agree.bind (hargs.next.expectMark _ _)
    intro close close' hclose
    exact .ok ⟨hargs.value, hclose.next, trivial⟩

/-- Both readings are tried or given up together, so the error that is reported comes from the same one. -/
theorem callArguments_alike : ReadAlike ls mark (callArguments c) (callArguments d) := by
  have hbare := bareArguments_alike h
  unfold callArguments
  rcases h.eat? (.mark .openParen) rfl with ⟨opening, opening', hc, hd, hopening⟩ | ⟨hc, hd⟩
  · have henclosed := enclosedArguments_alike hopening.next
    rw [hc, hd]
    dsimp only
    generalize enclosedArguments opening.next = x at henclosed ⊢
    generalize enclosedArguments opening'.next = y at henclosed ⊢
    generalize bareArguments c = bare at hbare ⊢
    generalize bareArguments d = bare' at hbare ⊢
    cases henclosed with
    | @ok args args' hargs =>
      dsimp only
      rcases hargs.next.eat? .newline rfl with ⟨lineEnd, lineEnd', hc, hd, hlineEnd⟩ | ⟨hc, hd⟩
      · rw [hc, hd]
        exact .ok ⟨hargs.value, hlineEnd.next, trivial⟩
      · rw [hc, hd]
        exact hbare
    | atLexeme hl cause =>
      dsimp only
      cases hbare with
      | ok hargs => exact .ok hargs
      | atLexeme _ _ => exact .atLexeme hl cause
      | atEnd _ _ => exact .atLexeme hl cause
    | atEnd cause cause' =>
      dsimp only
      cases hbare with
      | ok hargs => exact .ok hargs
      | atLexeme _ _ => exact .atEnd cause cause'
      | atEnd _ _ => exact .atEnd cause cause'
  · rw [hc, hd]
    exact hbare

end

end Parse

end Offside
