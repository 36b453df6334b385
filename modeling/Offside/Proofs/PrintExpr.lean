import Offside.Proofs.Grammar
import Offside.Proofs.InlineText
import Offside.Proofs.SourceTokens
import Offside.Proofs.TokenText

/-!
# The text of expressions

The text of a literal, a type or an expression reads as tokens from which the grammar derives the same tree. An
expression is written with all its parentheses, so its text is a factor whatever stood in the source. Names and
literals are those of a source: a name has its spelling, and a number inside an expression has no sign.
-/

namespace Offside

open Grammar Parse

/-! ### Words -/

/-- A token that starts with a letter or a digit is taken for no part of a mark in front of it. -/
theorem Inline.ofAlphanum {t : Token} {text : List Char} (hs : Spells t text)
    (hstart : ∀ c ∈ text.head?, c.isAlphanum = true) : Inline text [t] := by
  refine .token hs fun c hc => ?_
  have halphanum := hstart c hc
  constructor <;> rintro rfl <;> revert halphanum <;> decide

theorem Inline.keyword (k : Keyword) : Inline k.spelling.toList [.keyword k] := by
  refine .ofAlphanum (spells_keyword k) ?_
  cases k <;> exact fun d hd => by cases hd; decide

theorem text_of_spells_name {name : String} {text : List Char} (h : Spells (.name name) text) :
    text = name.toList ∧ ∃ c cs, text = c :: cs ∧ c.isAlpha = true := by
  generalize ht : Token.name name = t at h
  cases h with
  | word c cs head tail =>
    rw [Scan.wordToken] at ht
    split at ht
    · cases ht
    · cases ht
      exact ⟨by simp, c, cs, rfl, head⟩
  | _ => cases ht

theorem Inline.name {name : String} {ts : List Token} (h : Sourced ts) (hname : .name name ∈ ts) :
    Inline name.toList [.name name] := by
  obtain ⟨text, hspells⟩ := h.spelled _ hname rfl
  obtain ⟨rfl, c, cs, hcs, hhead⟩ := text_of_spells_name hspells
  refine .ofAlphanum hspells fun d hd => ?_
  rw [hcs] at hd
  cases hd
  simp [Char.isAlphanum, hhead]

/-! ### Literals -/

/-- A literal that can be written in a source: nothing in it would have to be escaped, and a real is finite. -/
def Literal.IsPlain : Literal → Prop
  | .string s => '"' ∉ s.toList ∧ '\\' ∉ s.toList
  | .character c => c ≠ '\'' ∧ c ≠ '\\'
  | .real x => x.isFinite = true
  | _ => True

instance : DecidablePred Literal.IsPlain
  | .string s => inferInstanceAs (Decidable ('"' ∉ s.toList ∧ '\\' ∉ s.toList))
  | .character c => inferInstanceAs (Decidable (c ≠ '\'' ∧ c ≠ '\\'))
  | .real x => inferInstanceAs (Decidable (x.isFinite = true))
  | .integer _ | .boolean _ => .isTrue trivial

/-- Whether the text of a literal starts with a minus sign. -/
def Literal.isSigned : Literal → Bool
  | .integer n => n.toInt < 0
  | .real x => Decimal.isNegative x
  | _ => false

theorem isSigned_of_spells {t : Token} {text : List Char} {l : Literal} (hs : Spells t text)
    (h : IsLiteralToken t l) : l.isSigned = false := by
  cases h with
  | integer hn =>
    rename_i n
    have hint : (Int32.ofNat n).toInt = n := Int32.toInt_ofNat_of_lt hn
    simp [Literal.isSigned, hint]
  | real x =>
    generalize ht : Token.real x = t at hs
    cases hs with
    | real whole fraction =>
      cases ht
      exact Decimal.isNegative_nearest _ _
    | word c cs =>
      rw [Scan.wordToken] at ht
      split at ht <;> cases ht
    | _ => cases ht
  | _ => rfl

theorem Inline.integer {n : Nat} (h : n ≤ magnitudeLimit) : Inline (toString n).toList [.integer n] := by
  refine .ofAlphanum (spells_integer h) fun d hd => ?_
  rw [Decimal.toList_toString] at hd
  simp [Char.isAlphanum, Decimal.isDigit_toDigits (List.mem_of_mem_head? hd)]

theorem Inline.real {whole fraction : List Char} (hw : Decimal.IsDigits whole) (hf : Decimal.IsDigits fraction) :
    Inline (whole ++ '.' :: fraction) [.real (Decimal.ofParts whole fraction)] := by
  refine .ofAlphanum (.real whole fraction hw.1 hw.2 hf.1 hf.2) fun d hd => ?_
  obtain ⟨c, cs, rfl⟩ := List.exists_cons_of_ne_nil hw.1
  cases hd
  simp [Char.isAlphanum, hw.2]

theorem Inline.string {s : String} (h : '"' ∉ s.toList ∧ '\\' ∉ s.toList) :
    Inline ('"' :: s.toList ++ ['"']) [.string s] := by
  have hbody : ∀ {cs : List Char}, '"' ∉ cs → '\\' ∉ cs → Scan.stringBody cs = (cs, []) ∧ Scan.unescape cs = cs := by
    intro cs hquote hslash
    induction cs with
    | nil => exact ⟨rfl, rfl⟩
    | cons c cs ih =>
      simp only [List.mem_cons, not_or] at hquote hslash
      obtain ⟨hb, hu⟩ := ih hquote.2 hslash.2
      have hq : c ≠ '"' := Ne.symm hquote.1
      have hs : c ≠ '\\' := Ne.symm hslash.1
      constructor
      · simp [Scan.stringBody, hb, hq, hs]
      · simp [Scan.unescape, hu, hs]
  obtain ⟨hclosed, hunescape⟩ := hbody h.1 h.2
  have hspells := Spells.string s.toList hclosed
  rw [hunescape, String.ofList_toList] at hspells
  refine .token hspells ?_
  rintro c ⟨⟩
  decide

theorem Inline.character {c : Char} (h : c ≠ '\'' ∧ c ≠ '\\') : Inline ['\'', c, '\''] [.character c] := by
  refine .token (.character c h.1 h.2) ?_
  rintro d ⟨⟩
  decide

theorem Inline.minus {text : List Char} {ts : List Token} (h : Inline text ts) :
    Inline ('-' :: text) (.mark .minus :: ts) :=
  h.behind (m := .minus) (by rintro c ⟨⟩; decide)

theorem text_integer_nonneg {n : Int32} (h : 0 ≤ n.toInt) :
    (Literal.integer n).text = toString n.toInt.toNat ∧ n.toInt.toNat < magnitudeLimit ∧
      Int32.ofNat n.toInt.toNat = n := by
  have hlt := n.toInt_lt
  have hcast : (n.toInt.toNat : Int) = n.toInt := Int.toNat_of_nonneg h
  refine ⟨?_, by simp only [magnitudeLimit]; omega, ?_⟩
  · rw [Literal.text, ← hcast]
    rfl
  · rw [← Int32.ofInt_eq_ofNat, hcast, Int32.ofInt_toInt]

theorem text_integer_neg {n : Int32} (h : n.toInt < 0) :
    (Literal.integer n).text = "-" ++ toString (-n.toInt).toNat ∧ -Int32.ofNat (-n.toInt).toNat = n := by
  obtain ⟨k, hk⟩ : ∃ k : Nat, n.toInt = Int.negSucc k := ⟨(-n.toInt).toNat - 1, by omega⟩
  have hcast : (-n.toInt).toNat = k + 1 := by omega
  constructor
  · rw [Literal.text, hcast, hk]
    rfl
  · rw [Int32.neg_ofNat, Int.toNat_of_nonneg (by omega), Int.neg_neg, Int32.ofInt_toInt]

/-- The three forms in which a literal is written. -/
theorem Literal.IsPlain.inline {l : Literal} (h : l.IsPlain) :
    (∃ t, Inline l.text.toList [t] ∧ IsLiteralToken t l) ∨
    (l = .integer Int32.minValue ∧ Inline l.text.toList [.mark .minus, .integer magnitudeLimit]) ∨
    (l.isSigned = true ∧ ∃ t k, Inline l.text.toList [.mark .minus, t] ∧ IsLiteralToken t k ∧
      k.negate? = some l) := by
  cases l with
  | integer n =>
    rcases Int.lt_or_le n.toInt 0 with hneg | hpos
    · obtain ⟨htext, hn⟩ := text_integer_neg hneg
      have hle := n.le_toInt
      have hinline : Inline (Literal.integer n).text.toList [.mark .minus, .integer (-n.toInt).toNat] := by
        rw [htext, String.toList_append]
        exact .minus (.integer (by simp only [magnitudeLimit]; omega))
      by_cases hleast : (-n.toInt).toNat = magnitudeLimit
      · refine .inr (.inl ⟨?_, ?_⟩)
        · rw [← hn, hleast]
          rfl
        · rw [hleast] at hinline
          exact hinline
      · have hsigned : (Literal.integer n).isSigned = true := decide_eq_true hneg
        refine .inr (.inr ⟨hsigned, _, .integer (.ofNat (-n.toInt).toNat), hinline, ?_, ?_⟩)
        · exact .integer (by simp only [magnitudeLimit] at hleast ⊢; omega)
        · rw [Literal.negate?, hn]
    · obtain ⟨htext, hlt, hn⟩ := text_integer_nonneg hpos
      refine .inl ⟨.integer n.toInt.toNat, ?_, ?_⟩
      · rw [htext]
        exact .integer (Nat.le_of_lt hlt)
      · have htoken := IsLiteralToken.integer hlt
        rwa [hn] at htoken
  | real x =>
    obtain ⟨whole, fraction, hw, hf, htext, -⟩ := Decimal.spell_spec h
    have hread := Decimal.readReal?_spell h
    rw [← String.ofList_toList (s := Decimal.spell x), htext, Decimal.readReal?_point hw hf, Option.some.injEq] at hread
    have hinline := Inline.real hw hf
    rw [Literal.text, htext, Decimal.signChars]
    cases hneg : Decimal.isNegative x with
    | true =>
      rw [hneg] at hread
      refine .inr (.inr ⟨hneg, _, _, hinline.minus, .real _, ?_⟩)
      exact congrArg (fun y => some (Literal.real y)) hread
    | false =>
      rw [hneg] at hread
      refine .inl ⟨_, hinline, ?_⟩
      rw [← hread]
      exact .real _
  | string s =>
    refine .inl ⟨.string s, ?_, .string s⟩
    have htext : (Literal.string s).text.toList = '"' :: s.toList ++ ['"'] := by simp [Literal.text]
    rw [htext]
    exact .string h
  | character c =>
    refine .inl ⟨.character c, ?_, .character c⟩
    have htext : (Literal.character c).text.toList = ['\'', c, '\''] := by simp [Literal.text]
    rw [htext]
    exact .character h
  | boolean b =>
    cases b with
    | true => exact .inl ⟨_, .keyword .true_, .true_⟩
    | false => exact .inl ⟨_, .keyword .false_, .false_⟩

theorem Literal.IsPlain.isLiteral {l : Literal} (h : l.IsPlain) :
    ∃ ts, Inline l.text.toList ts ∧ IsLiteral ts l := by
  rcases h.inline with ⟨t, hinline, ht⟩ | ⟨rfl, hinline⟩ | ⟨-, t, k, hinline, ht, hk⟩
  · exact ⟨_, hinline, .plain ht⟩
  · exact ⟨_, hinline, .least⟩
  · exact ⟨_, hinline, .negated ht hk⟩

/-! ### Types -/

theorem inline_type {ts : List Token} {type : DataType} (h : IsType ts type) :
    ∃ us, Inline type.text.toList us ∧ IsType us type := by
  have hscalar : ∀ {t : Token} {type : DataType}, IsScalar t type →
      ∃ u, Inline type.text.toList [u] ∧ IsScalar u type := by
    intro t type ht
    cases ht with
    | integer => exact ⟨_, .keyword .integer, .integer⟩
    | real => exact ⟨_, .keyword .real, .real⟩
    | string => exact ⟨_, .keyword .string, .string⟩
    | character => exact ⟨_, .keyword .character, .character⟩
    | boolean => exact ⟨_, .keyword .boolean, .boolean⟩
  cases h with
  | scalar ht =>
    obtain ⟨u, hinline, hu⟩ := hscalar ht
    exact ⟨_, hinline, .scalar hu⟩
  | array ht =>
    rename_i type
    obtain ⟨u, hinline, hu⟩ := hscalar ht
    have htext : (DataType.array type).text.toList =
        "array".toList ++ ' ' :: ("of".toList ++ ' ' :: type.text.toList) := by
      simp [DataType.text]
    refine ⟨_, ?_, .array hu⟩
    rw [htext]
    exact (Inline.keyword .array).spaced ((Inline.keyword .of_).spaced hinline)

/-! ### Expressions -/

/-- The literals inside an expression. -/
def Expr.literals : Expr → List Literal
  | .literal l => [l]
  | .named _ => []
  | .element _ index => index.literals
  | .negate operand => operand.literals
  | .arithmetic _ left right => left.literals ++ right.literals
  | .compare _ left right => left.literals ++ right.literals

/-- The mark of an arithmetic operation. -/
def Arithmetic.mark : Arithmetic → Mark
  | .add => .plus
  | .subtract => .minus
  | .multiply => .star
  | .divide => .slash
  | .modulo => .percent

def Comparison.mark : Comparison → Mark
  | .equal => .equal
  | .notEqual => .notEqual
  | .less => .less
  | .lessEqual => .lessEqual
  | .greater => .greater
  | .greaterEqual => .greaterEqual

theorem Inline.enclosed {text : List Char} {ts : List Token} (h : Inline text ts) :
    Inline ('(' :: text ++ [')']) (.mark .openParen :: ts ++ [.mark .closeParen]) := by
  have hopen := h.behind (m := .openParen) (by rintro c ⟨⟩; decide)
  have hclose : Inline [')'] [.mark .closeParen] := .token (.mark .closeParen) (by rintro c ⟨⟩; decide)
  exact hopen.append hclose (by rintro c ⟨⟩; rfl)

theorem Inline.indexed {name text : List Char} {t : Token} {ts : List Token} (hname : Inline name [t])
    (h : Inline text ts) :
    Inline (name ++ '[' :: text ++ [']']) (t :: .mark .openBracket :: ts ++ [.mark .closeBracket]) := by
  have hopen := h.behind (m := .openBracket) (by rintro c ⟨⟩; decide)
  have hclose : Inline [']'] [.mark .closeBracket] := .token (.mark .closeBracket) (by rintro c ⟨⟩; decide)
  exact (hname.append hopen (by rintro c ⟨⟩; rfl)).append hclose (by rintro c ⟨⟩; rfl)

/-- The text of an operation, in parentheses. -/
theorem Inline.arithmetic {op : Arithmetic} {left right : Expr} {ts us : List Token} (hl : Inline left.text.toList ts)
    (hr : Inline right.text.toList us) : Inline (Expr.arithmetic op left right).text.toList
      (.mark .openParen :: (ts ++ .mark op.mark :: us) ++ [.mark .closeParen]) := by
  have htext : (Expr.arithmetic op left right).text.toList =
      '(' :: (left.text.toList ++ ' ' :: (op.mark.spelling.toList ++ ' ' :: right.text.toList)) ++ [')'] := by
    cases op <;> simp [Expr.text, Arithmetic.text, Arithmetic.mark, Mark.spelling]
  rw [htext]
  exact (hl.operator op.mark hr).enclosed

theorem inline_of_isExpr {level : Level} {ts : List Token} {e : Expr} (h : IsExpr level ts e) (hs : Sourced ts)
    (hl : ∀ l ∈ e.literals, l.IsPlain) : ∃ us, Inline e.text.toList us ∧ IsExpr .factor us e := by
  induction h with
  | literal ht =>
    rename_i t l
    obtain ⟨text, hspells⟩ : ∃ text, Spells t text := by
      refine hs.spelled t (by simp) ?_
      cases ht <;> rfl
    have hsigned := isSigned_of_spells hspells ht
    rcases (hl l (by simp [Expr.literals])).inline with ⟨u, hinline, hu⟩ | ⟨rfl, -⟩ | ⟨hminus, -⟩
    · exact ⟨_, hinline, .literal hu⟩
    · cases hsigned
    · cases hsigned.symm.trans hminus
  | least =>
    have htext : (Expr.literal (.integer Int32.minValue)).text.toList = '-' :: (toString magnitudeLimit).toList := by
      decide +kernel
    refine ⟨_, ?_, .least⟩
    rw [htext]
    exact .minus (.integer (Nat.le_refl _))
  | named name =>
    have hname : Inline name.toList [.name name] := .name hs (by simp)
    exact ⟨_, hname, .named name⟩
  | element name h ih =>
    rename_i ts index
    obtain ⟨us, hinline, hexpr⟩ := ih (hs.part ⟨[.name name, .mark .openBracket], [.mark .closeBracket], rfl⟩) hl
    refine ⟨_, ?_, .element name (.ofProduct (.ofFactor hexpr))⟩
    have htext : (Expr.element name index).text.toList = name.toList ++ '[' :: index.text.toList ++ [']'] := by
      simp [Expr.text]
    rw [htext]
    exact .indexed (.name hs (by simp)) hinline
  | negate h ih =>
    rename_i ts e
    obtain ⟨us, hinline, hexpr⟩ := ih (hs.part ⟨[.mark .minus], [], by simp⟩) hl
    refine ⟨_, ?_, .negate hexpr⟩
    have htext : (Expr.negate e).text.toList = '-' :: e.text.toList := by simp [Expr.text]
    rw [htext]
    exact hinline.minus
  | enclosed h ih => exact ih (hs.part ⟨[.mark .openParen], [.mark .closeParen], rfl⟩) hl
  | ofFactor h ih => exact ih hs hl
  | ofProduct h ih => exact ih hs hl
  | times hleft ht hright ihl ihr =>
    rename_i ts us l r t op
    simp only [Expr.literals, List.mem_append] at hl
    obtain ⟨ts', hinline, hexpr⟩ := ihl (hs.part ⟨[], t :: us, by simp⟩) fun l h => hl l (.inl h)
    obtain ⟨us', hinline', hexpr'⟩ := ihr (hs.part ⟨ts ++ [t], [], by simp⟩) fun l h => hl l (.inr h)
    refine ⟨_, .arithmetic hinline hinline', .enclosed (.ofProduct (.times (.ofFactor hexpr) ?_ hexpr'))⟩
    cases ht <;> constructor
  | plus hleft ht hright ihl ihr =>
    rename_i ts us l r t op
    simp only [Expr.literals, List.mem_append] at hl
    obtain ⟨ts', hinline, hexpr⟩ := ihl (hs.part ⟨[], t :: us, by simp⟩) fun l h => hl l (.inl h)
    obtain ⟨us', hinline', hexpr'⟩ := ihr (hs.part ⟨ts ++ [t], [], by simp⟩) fun l h => hl l (.inr h)
    refine ⟨_, .arithmetic hinline hinline', .enclosed (.plus (.ofProduct (.ofFactor hexpr)) ?_ (.ofFactor hexpr'))⟩
    cases ht <;> constructor

theorem inline_of_isComparison {ts : List Token} {e : Expr} (h : IsComparison ts e) (hs : Sourced ts)
    (hl : ∀ l ∈ e.literals, l.IsPlain) : ∃ us, Inline e.text.toList us ∧ IsComparison us e := by
  cases h with
  | ofSum h =>
    obtain ⟨us, hinline, hexpr⟩ := inline_of_isExpr h hs hl
    exact ⟨us, hinline, .ofSum (.ofProduct (.ofFactor hexpr))⟩
  | compare hleft ht hright =>
    rename_i ts us l r t op
    simp only [Expr.literals, List.mem_append] at hl
    obtain ⟨ts', hinline, hexpr⟩ := inline_of_isExpr hleft (hs.part ⟨[], t :: us, by simp⟩) fun l h => hl l (.inl h)
    obtain ⟨us', hinline', hexpr'⟩ :=
      inline_of_isExpr hright (hs.part ⟨ts ++ [t], [], by simp⟩) fun l h => hl l (.inr h)
    have htext : (Expr.compare op l r).text.toList =
        l.text.toList ++ ' ' :: (op.mark.spelling.toList ++ ' ' :: r.text.toList) := by
      cases op <;> simp [Expr.text, Comparison.text, Comparison.mark, Mark.spelling]
    refine ⟨ts' ++ .mark op.mark :: us', ?_, .compare (.ofProduct (.ofFactor hexpr)) ?_ (.ofProduct (.ofFactor hexpr'))⟩
    · rw [htext]
      exact hinline.operator op.mark hinline'
    · cases ht <;> constructor

end Offside
