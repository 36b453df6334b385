import Offside.Proofs.CallReadings
import Offside.Scope.Eval

/-!
# Literals behind a sign

A declaration and an expression read the same text of a number in two ways. The literal of a declaration takes the sign
in while it is read; in an expression the sign stays an operation, which runs each time, and only the least integer is
put together at once, since its magnitude is no integer. The two ways agree: where there is a literal, there is a factor
of the same lexemes, and it has the value of the literal in every scope. On a number with or without a sign, neither
reader takes what the other refuses.
-/

namespace Offside

/-- Whether a token is an integer or a real, of whatever size. -/
def Token.isNumber : Token → Bool
  | integer _ | real _ => true
  | _ => false

/-- An expression has the value of a literal in every scope. -/
def Expr.StandsFor (e : Expr) (l : Literal) : Prop :=
  ∀ scope, e.eval scope = .ok (.ofLiteral l)

namespace Expr

theorem standsFor_literal (l : Literal) : (literal l).StandsFor l :=
  fun _ => rfl

/-- The sign that is taken in by a literal and the one that is carried out on its value. -/
theorem StandsFor.negate {e : Expr} {l m : Literal} (h : e.StandsFor l) (hm : l.negate? = some m) :
    (negate e).StandsFor m := by
  intro scope
  rw [eval, h scope, ok_bind]
  cases l with
  | integer n | real x =>
    cases hm
    rfl
  | _ => cases hm

end Expr

namespace Parse

open Grammar

variable {c : Cursor}

/-! ### From literals to factors -/

/-- The tokens of a literal are those of a factor, whatever is behind them. -/
theorem factor_of_isLiteral {ts rest : List Token} {l : Literal} (h : IsLiteral ts l) (hc : c.tokens = ts ++ rest) :
    Gives (factor c) (·.StandsFor l) rest := by
  cases h with
  | plain hl =>
    obtain ⟨r, hr, hvalue, hnext⟩ := factor_literal hc hl
    exact ⟨r, hr, hvalue ▸ Expr.standsFor_literal l, hnext⟩
  | least =>
    obtain ⟨r, hr, hvalue, hnext⟩ := factor_least hc
    exact ⟨r, hr, hvalue ▸ Expr.standsFor_literal _, hnext⟩
  | negated hl hm =>
    rename_i t operand
    have hhead : (t :: rest).head? ≠ some leastMagnitude :=
      fun hleast => hl.ne_magnitudeLimit (Option.some.inj hleast)
    obtain ⟨r, hr, hvalue, hnext⟩ := factor_negate hc hhead fun hd => factor_literal hd hl
    exact ⟨r, hr, hvalue ▸ (Expr.standsFor_literal operand).negate hm, hnext⟩

theorem factor_of_literal {r : Reading Literal c} (h : literal c = .ok r) :
    ∃ s, factor c = .ok s ∧ s.next = r.next ∧ s.value.StandsFor r.value := by
  obtain ⟨ts, hts, hl⟩ := literal_sound h
  obtain ⟨s, hs, hvalue, hnext⟩ := factor_of_isLiteral hl hts
  exact ⟨s, hs, s.passes.eq_of_tokens r.passes hnext, hvalue⟩

/-! ### From factors to literals -/

section

variable {t : Token} {ts : List Token} {e : Expr}

theorem negate?_of_isNumber {l : Literal} (ht : t.isNumber = true) (hl : IsLiteralToken t l) :
    ∃ m, l.negate? = some m := by
  cases hl with
  | integer | real => exact ⟨_, rfl⟩
  | _ => cases ht

/-- A factor that starts with a number is this number. -/
theorem isExpr_number (ht : t.isNumber = true) (h : IsExpr .factor (t :: ts) e) : ∃ l, IsLiteralToken t l := by
  cases h with
  | literal hl => exact ⟨_, hl⟩
  | _ => cases ht

/-- A factor that starts with a sign and a number is a literal of the two. -/
theorem isExpr_signedNumber {rest more : List Token} (ht : t.isNumber = true)
    (h : IsExpr .factor (.mark .minus :: ts) e) (hts : ts ++ more = t :: rest) :
    ∃ l, IsLiteral [.mark .minus, t] l := by
  cases h with
  | literal hl => cases hl
  | least =>
    obtain ⟨rfl, -⟩ := List.cons.inj hts
    exact ⟨_, .least⟩
  | negate h =>
    obtain ⟨u, us, rfl, -⟩ := head_of_isExpr h
    obtain ⟨rfl, -⟩ := List.cons.inj hts
    obtain ⟨l, hl⟩ := isExpr_number ht h
    obtain ⟨m, hm⟩ := negate?_of_isNumber ht hl
    exact ⟨m, .negated hl hm⟩

/-- What a factor takes starts with the number, so that a literal can take the number alone. -/
theorem literal_of_factor {s : Reading Expr c} (h : factor c = .ok s) (ht : t.isNumber = true)
    (hc : c.tokens = t :: ts ∨ c.tokens = .mark .minus :: t :: ts) : ∃ r, literal c = .ok r := by
  obtain ⟨us, hus, hexpr⟩ := (expr_sound _ c (Nat.lt_succ_self _)).1 s h
  -- The factor has a first token, which is the first in front of the cursor.
  obtain ⟨u, us, rfl, -⟩ := head_of_isExpr hexpr
  rcases hc with hc | hc
  · obtain ⟨rfl, -⟩ := List.cons.inj (hus.symm.trans hc)
    obtain ⟨l, hl⟩ := isExpr_number ht hexpr
    obtain ⟨r, hr, -⟩ := literal_complete (.plain hl) hc
    exact ⟨r, hr⟩
  · obtain ⟨rfl, hrest⟩ := List.cons.inj (hus.symm.trans hc)
    obtain ⟨l, hl⟩ := isExpr_signedNumber ht hexpr hrest
    obtain ⟨r, hr, -⟩ := literal_complete hl hc
    exact ⟨r, hr⟩

end

/-- Where a declaration reads a literal, an expression reads a factor: it takes the same lexemes and has the value of
the literal, whatever the scope. In front of a number, with or without a sign, one of the two fails if and only if the
other does. -/
theorem literal_agrees (c : Cursor) :
    (∀ r, literal c = .ok r →
      ∃ s, factor c = .ok s ∧ s.next = r.next ∧ ∀ scope, s.value.eval scope = .ok (.ofLiteral r.value)) ∧
    ∀ (t : Token) (ts : List Token), t.isNumber = true → c.tokens = t :: ts ∨ c.tokens = .mark .minus :: t :: ts →
      ((∃ e, literal c = .error e) ↔ ∃ e, factor c = .error e) := by
  refine ⟨fun r h => factor_of_literal h, fun t ts ht hc => ⟨?_, ?_⟩⟩
  · rintro ⟨e, he⟩
    cases hfactor : factor c with
    | error e' => exact ⟨e', rfl⟩
    | ok s =>
      obtain ⟨r, hr⟩ := literal_of_factor hfactor ht hc
      cases he.symm.trans hr
  · rintro ⟨e, he⟩
    cases hliteral : literal c with
    | error e' => exact ⟨e', rfl⟩
    | ok r =>
      obtain ⟨s, hs, -⟩ := factor_of_literal hliteral
      cases he.symm.trans hs

/-- The least integer in front of a bracket, and its magnitude without the sign. -/
theorem literal_agrees_least :
    (∃ r s, literal (.ofLexemes (bare [.mark .minus, .integer 2147483648, .mark .openBracket])) = .ok r ∧
      factor (.ofLexemes (bare [.mark .minus, .integer 2147483648, .mark .openBracket])) = .ok s ∧ s.next = r.next ∧
      ∀ scope, s.value.eval scope = .ok (.integer Int32.minValue)) ∧
    ∃ e, factor (.ofLexemes (bare [.integer 2147483648])) = .error e := by
  have htokens : (Cursor.ofLexemes (bare [.mark .minus, .integer 2147483648, .mark .openBracket])).tokens =
      [.mark .minus, leastMagnitude] ++ [.mark .openBracket] := map_token_bare _
  obtain ⟨r, hr, hvalue, -⟩ := literal_complete .least htokens
  obtain ⟨s, hs, hnext, heval⟩ := (literal_agrees _).1 r hr
  rw [hvalue] at heval
  refine ⟨⟨r, s, hr, hs, hnext, heval⟩, ?_⟩
  exact ((literal_agrees _).2 (.integer 2147483648) [] rfl (.inl rfl)).mp ⟨_, rfl⟩

end Parse

end Offside
