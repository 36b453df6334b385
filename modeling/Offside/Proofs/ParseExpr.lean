import Offside.Proofs.CursorTokens
import Offside.Proofs.Grammar

/-!
# Reading literals, types and expressions

The readers of literals, types, ranges and expressions take exactly what the grammar derives. Soundness: what a
reader returns is derived by the tokens it took. Completeness: tokens that derive a tree are read as this tree, with
the cursor behind them, in front of anything that cannot continue them.
-/

namespace Offside.Parse

open Grammar

variable {c : Cursor}

theorem tokens_of_plainLiteral {what : Expected} {r : Reading Literal c} (h : plainLiteral what c = .ok r) :
    ∃ t, c.tokens = t :: r.next.tokens ∧ IsLiteralToken t r.value := by
  unfold plainLiteral at h
  split at h
  · cases h
  · rename_i s hnext
    split at h
    · rename_i value hvalue
      cases h
      exact ⟨s.value.token, Cursor.tokens_of_next? hnext, literalOf?_eq_some.mp hvalue⟩
    · cases h

theorem gives_plainLiteral {what : Expected} {t : Token} {ts : List Token} {l : Literal}
    (h : c.tokens = t :: ts) (hl : IsLiteralToken t l) : Gives (plainLiteral what c) (· = l) ts := by
  obtain ⟨s, hs, ht, hts⟩ := Cursor.next?_of_tokens h
  refine ⟨s.map fun _ => l, ?_, rfl, hts⟩
  rw [plainLiteral, hs]
  simp only [ht, literalOf?_eq_some.mpr hl]

theorem literal_sound {r : Reading Literal c} (h : literal c = .ok r) :
    ∃ ts, c.tokens = ts ++ r.next.tokens ∧ IsLiteral ts r.value := by
  unfold literal at h
  split at h
  · rename_i minus hminus
    obtain ⟨s, hs, h⟩ := bind_eq_ok.mp h
    cases h
    have hc := Cursor.tokens_of_eat? hminus
    unfold negativeLiteral at hs
    split at hs
    · rename_i magnitude hmagnitude
      cases hs
      rw [Cursor.tokens_of_eat? hmagnitude] at hc
      exact ⟨_, hc, .least⟩
    · obtain ⟨u, hu, hs⟩ := bind_eq_ok.mp hs
      obtain ⟨t, ht, hl⟩ := tokens_of_plainLiteral hu
      rw [ht] at hc
      split at hs
      · rename_i value hvalue
        cases hs
        exact ⟨_, hc, .negated hl hvalue⟩
      · cases hs
  · obtain ⟨t, ht, hl⟩ := tokens_of_plainLiteral h
    exact ⟨[t], ht, .plain hl⟩

theorem literal_complete {ts rest : List Token} {l : Literal} (h : IsLiteral ts l) (hc : c.tokens = ts ++ rest) :
    Gives (literal c) (· = l) rest := by
  cases h with
  | plain hl =>
    have hminus : c.eat? (.mark .minus) = none := by
      rw [Cursor.eat?_eq_none_iff, hc]
      rintro ⟨⟩
      cases hl
    rw [literal, hminus]
    exact gives_plainLiteral hc hl
  | least =>
    have hc : c.tokens = .mark .minus :: leastMagnitude :: rest := hc
    obtain ⟨minus, hminus, hnext⟩ := Cursor.eat?_of_tokens hc
    obtain ⟨magnitude, hmagnitude, hrest⟩ := Cursor.eat?_of_tokens hnext
    rw [literal, hminus]
    refine Gives.bind (P := (· = Literal.integer Int32.minValue)) ?_ fun r hr htokens => gives_pure hr htokens
    rw [negativeLiteral, hmagnitude]
    exact gives_pure rfl hrest
  | negated hl hm =>
    rename_i t value
    have hc : c.tokens = .mark .minus :: t :: rest := hc
    obtain ⟨minus, hminus, hnext⟩ := Cursor.eat?_of_tokens hc
    have hmagnitude : minus.next.eat? leastMagnitude = none := by
      rw [Cursor.eat?_eq_none_iff, hnext]
      exact fun hhead => hl.ne_magnitudeLimit (Option.some.inj hhead)
    rw [literal, hminus]
    refine Gives.bind (P := (· = l)) ?_ fun r hr htokens => gives_pure hr htokens
    rw [negativeLiteral, hmagnitude]
    refine (gives_plainLiteral hnext hl).bind fun r hr htokens => ?_
    simp only [hr, hm]
    exact gives_pure rfl htokens

/-! ### Types and ranges -/

theorem tokens_of_scalarType {r : Reading DataType c} (h : scalarType c = .ok r) :
    ∃ t, c.tokens = t :: r.next.tokens ∧ IsScalar t r.value := by
  unfold scalarType at h
  split at h
  · cases h
  · rename_i s hnext
    split at h
    · rename_i type htype
      cases h
      exact ⟨s.value.token, Cursor.tokens_of_next? hnext, scalarType?_eq_some.mp htype⟩
    · cases h

theorem gives_scalarType {t : Token} {ts : List Token} {type : DataType} (h : c.tokens = t :: ts)
    (ht : IsScalar t type) : Gives (scalarType c) (· = type) ts := by
  obtain ⟨s, hs, hs', hts⟩ := Cursor.next?_of_tokens h
  refine ⟨s.map fun _ => type, ?_, rfl, hts⟩
  rw [scalarType, hs]
  simp only [hs', scalarType?_eq_some.mpr ht]

theorem dataType_sound {r : Reading DataType c} (h : dataType c = .ok r) :
    ∃ ts, c.tokens = ts ++ r.next.tokens ∧ IsType ts r.value := by
  unfold dataType at h
  split at h
  · obtain ⟨t, ht, htype⟩ := tokens_of_scalarType h
    exact ⟨[t], ht, .scalar htype⟩
  · rename_i array harray
    obtain ⟨of_, hof, h⟩ := bind_eq_ok.mp h
    split at h
    · cases h
    · obtain ⟨element, helement, h⟩ := bind_eq_ok.mp h
      cases h
      obtain ⟨t, ht, htype⟩ := tokens_of_scalarType helement
      have hc := Cursor.tokens_of_eat? harray
      rw [Cursor.tokens_of_expect hof, ht] at hc
      exact ⟨_, hc, .array htype⟩

theorem dataType_complete {ts rest : List Token} {type : DataType} (h : IsType ts type)
    (hc : c.tokens = ts ++ rest) : Gives (dataType c) (· = type) rest := by
  cases h with
  | scalar ht =>
    have harray : c.eat? (.keyword .array) = none := by
      rw [Cursor.eat?_eq_none_iff, hc]
      rintro ⟨⟩
      cases ht
    rw [dataType, harray]
    exact gives_scalarType hc ht
  | array ht =>
    rename_i t element
    have hc : c.tokens = .keyword .array :: .keyword .of_ :: t :: rest := hc
    obtain ⟨array, harray, hof⟩ := Cursor.eat?_of_tokens hc
    rw [dataType, harray]
    refine (Cursor.gives_expect hof).bind fun of_ _ hnext => ?_
    have hnested : of_.next.eat? (.keyword .array) = none := by
      rw [Cursor.eat?_eq_none_iff, hnext]
      rintro ⟨⟩
      cases ht
    rw [hnested]
    refine (gives_scalarType hnext ht).bind fun r hr htokens => ?_
    exact gives_pure (by rw [hr]; rfl) htokens

theorem limits_sound {r : Reading Range c} (h : limits c = .ok r) :
    ∃ ts us, c.tokens = ts ++ .keyword .to_ :: us ++ r.next.tokens ∧ IsLiteral ts r.value.low ∧
      IsLiteral us r.value.high := by
  unfold limits at h
  obtain ⟨low, hlow, h⟩ := bind_eq_ok.mp h
  obtain ⟨to_, hto, h⟩ := bind_eq_ok.mp h
  obtain ⟨high, hhigh, h⟩ := bind_eq_ok.mp h
  cases h
  obtain ⟨ts, hts, hl⟩ := literal_sound hlow
  obtain ⟨us, hus, hr⟩ := literal_sound hhigh
  refine ⟨ts, us, ?_, hl, hr⟩
  rw [hts, Cursor.tokens_of_expect hto, hus]
  simp [Reading.andThen]

theorem limits_complete {ts us rest : List Token} {low high : Literal} (hlow : IsLiteral ts low)
    (hhigh : IsLiteral us high) (hc : c.tokens = ts ++ .keyword .to_ :: us ++ rest) :
    Gives (limits c) (· = ⟨low, high⟩) rest := by
  rw [List.append_assoc] at hc
  refine (literal_complete hlow hc).bind fun l hl hnext => ?_
  refine (Cursor.gives_expect hnext).bind fun to_ _ hnext => ?_
  refine (literal_complete hhigh hnext).bind fun r hr hnext => ?_
  exact gives_pure (by rw [hl, hr]; rfl) hnext

/-! ### Operators -/

section

variable {α : Type} {pick : Token → Option α}

theorem tokens_of_operator? {r : Reading α c} (h : operator? pick c = some r) :
    ∃ t, c.tokens = t :: r.next.tokens ∧ pick t = some r.value := by
  unfold operator? at h
  split at h
  · cases h
  · rename_i s hnext
    split at h
    · rename_i op hop
      cases h
      exact ⟨s.value.token, Cursor.tokens_of_next? hnext, hop⟩
    · cases h

theorem operator?_of_tokens {t : Token} {ts : List Token} {op : α} (h : c.tokens = t :: ts)
    (ht : pick t = some op) : ∃ r, operator? pick c = some r ∧ r.value = op ∧ r.next.tokens = ts := by
  obtain ⟨s, hs, hs', hts⟩ := Cursor.next?_of_tokens h
  refine ⟨s.map fun _ => op, ?_, rfl, hts⟩
  rw [operator?, hs]
  simp only [hs', ht]

theorem operator?_eq_none (h : ∀ t ∈ c.tokens.head?, pick t = none) : operator? pick c = none := by
  cases hop : operator? pick c with
  | none => rfl
  | some r =>
    obtain ⟨t, ht, hpick⟩ := tokens_of_operator? hop
    rw [ht] at h
    cases (h t rfl).symm.trans hpick

end

/-! ### Soundness of expressions -/

/-- What a reader of expressions has to satisfy at a cursor. -/
def Sound (level : Level) (read : (c : Cursor) → Attempt Expr c) (c : Cursor) : Prop :=
  ∀ r, read c = .ok r → ∃ ts, c.tokens = ts ++ r.next.tokens ∧ IsExpr level ts r.value

/-- The shorter inputs that a factor is made of. -/
theorem factor_sound_step (hfactor : ∀ d : Cursor, d.ahead.length < c.ahead.length → Sound .factor factor d)
    (hsum : ∀ d : Cursor, d.ahead.length < c.ahead.length → Sound .sum sum d) : Sound .factor factor c := by
  intro r h
  rw [factor] at h
  split at h
  · cases h
  · rename_i first hfirst
    have hc := Cursor.tokens_of_next? hfirst
    have hshorter := first.shorter
    split at h
    · rename_i htoken
      rw [htoken] at hc
      split at h
      · rename_i magnitude hmagnitude
        cases h
        rw [Cursor.tokens_of_eat? hmagnitude] at hc
        exact ⟨_, hc, .least⟩
      · obtain ⟨operand, hoperand, h⟩ := bind_eq_ok.mp h
        cases h
        obtain ⟨ts, hts, hexpr⟩ := hfactor _ hshorter _ hoperand
        rw [hts] at hc
        exact ⟨_, hc, .negate hexpr⟩
    · rename_i htoken
      rw [htoken] at hc
      obtain ⟨inner, hinner, h⟩ := bind_eq_ok.mp h
      obtain ⟨close, hclose, h⟩ := bind_eq_ok.mp h
      cases h
      obtain ⟨ts, hts, hexpr⟩ := hsum _ hshorter _ hinner
      refine ⟨_, ?_, .enclosed hexpr⟩
      rw [hc, hts, Cursor.tokens_of_expect hclose]
      simp [Reading.andThen]
    · rename_i name htoken
      rw [htoken] at hc
      split at h
      · cases h
        exact ⟨_, hc, .named name⟩
      · rename_i bracket hbracket
        obtain ⟨index, hindex, h⟩ := bind_eq_ok.mp h
        obtain ⟨close, hclose, h⟩ := bind_eq_ok.mp h
        cases h
        obtain ⟨ts, hts, hexpr⟩ := hsum _ (Nat.lt_trans bracket.shorter hshorter) _ hindex
        refine ⟨_, ?_, .element name hexpr⟩
        rw [hc, Cursor.tokens_of_eat? hbracket, hts, Cursor.tokens_of_expect hclose]
        simp [Reading.andThen]
    · obtain ⟨value, hvalue, h⟩ := bind_eq_ok.mp h
      cases h
      obtain ⟨t, ht, hl⟩ := tokens_of_plainLiteral hvalue
      exact ⟨[t], ht, .literal hl⟩

/-- The factors behind some that are already read, by induction on what is still ahead. -/
theorem productRest_sound {start : Cursor} (left : Reading Expr start)
    (hfactor : ∀ d : Cursor, d.ahead.length < left.next.ahead.length → Sound .factor factor d) {ts : List Token}
    (hts : start.tokens = ts ++ left.next.tokens) (hleft : IsExpr .product ts left.value) {r : Reading Expr start}
    (h : productRest left = .ok r) : ∃ us, start.tokens = us ++ r.next.tokens ∧ IsExpr .product us r.value := by
  rw [productRest] at h
  split at h
  · cases h
    exact ⟨ts, hts, hleft⟩
  · rename_i op hop
    obtain ⟨right, hright, h⟩ := bind_eq_ok.mp h
    obtain ⟨t, ht, hpick⟩ := tokens_of_operator? hop
    obtain ⟨us, hus, hexpr⟩ := hfactor _ op.shorter _ hright
    have hshorter := Nat.lt_trans right.shorter op.shorter
    have hread : start.tokens = (ts ++ t :: us) ++ right.next.tokens := by
      rw [hts, ht, hus]
      simp
    exact productRest_sound (left.andThen (op.andThen right ()) (.arithmetic op.value left.value right.value))
      (fun d hd => hfactor d (Nat.lt_trans hd hshorter)) hread (.times hleft (multiplicativeOf?_eq_some.mp hpick) hexpr) h
termination_by left.next.ahead.length
decreasing_by exact hshorter

theorem product_sound_step (h : ∀ d : Cursor, d.ahead.length ≤ c.ahead.length → Sound .factor factor d) :
    Sound .product product c := by
  intro r hr
  rw [product] at hr
  obtain ⟨first, hfirst, hr⟩ := bind_eq_ok.mp hr
  obtain ⟨ts, hts, hexpr⟩ := h c (Nat.le_refl _) _ hfirst
  refine productRest_sound first (fun d hd => h d ?_) hts (.ofFactor hexpr) hr
  exact Nat.le_of_lt (Nat.lt_trans hd first.shorter)

theorem sumRest_sound {start : Cursor} (left : Reading Expr start)
    (hproduct : ∀ d : Cursor, d.ahead.length < left.next.ahead.length → Sound .product product d)
    {ts : List Token} (hts : start.tokens = ts ++ left.next.tokens) (hleft : IsExpr .sum ts left.value)
    {r : Reading Expr start} (h : sumRest left = .ok r) :
    ∃ us, start.tokens = us ++ r.next.tokens ∧ IsExpr .sum us r.value := by
  rw [sumRest] at h
  split at h
  · cases h
    exact ⟨ts, hts, hleft⟩
  · rename_i op hop
    obtain ⟨right, hright, h⟩ := bind_eq_ok.mp h
    obtain ⟨t, ht, hpick⟩ := tokens_of_operator? hop
    obtain ⟨us, hus, hexpr⟩ := hproduct _ op.shorter _ hright
    have hshorter := Nat.lt_trans right.shorter op.shorter
    have hread : start.tokens = (ts ++ t :: us) ++ right.next.tokens := by
      rw [hts, ht, hus]
      simp
    exact sumRest_sound (left.andThen (op.andThen right ()) (.arithmetic op.value left.value right.value))
      (fun d hd => hproduct d (Nat.lt_trans hd hshorter)) hread (.plus hleft (additiveOf?_eq_some.mp hpick) hexpr) h
termination_by left.next.ahead.length
decreasing_by exact hshorter

theorem sum_sound_step (h : ∀ d : Cursor, d.ahead.length ≤ c.ahead.length → Sound .product product d) :
    Sound .sum sum c := by
  intro r hr
  rw [sum] at hr
  obtain ⟨first, hfirst, hr⟩ := bind_eq_ok.mp hr
  obtain ⟨ts, hts, hexpr⟩ := h c (Nat.le_refl _) _ hfirst
  refine sumRest_sound first (fun d hd => h d ?_) hts (.ofProduct hexpr) hr
  exact Nat.le_of_lt (Nat.lt_trans hd first.shorter)

/-- By induction on the number of lexemes ahead; at each number factors come first, then products, then sums. -/
theorem expr_sound (n : Nat) : ∀ c : Cursor, c.ahead.length < n →
    Sound .factor factor c ∧ Sound .product product c ∧ Sound .sum sum c := by
  induction n with
  | zero => exact fun c hc => absurd hc (Nat.not_lt_zero _)
  | succ n ih =>
    have hfactor : ∀ c : Cursor, c.ahead.length < n + 1 → Sound .factor factor c := fun c hc =>
      factor_sound_step (fun d hd => (ih d (by omega)).1) fun d hd => (ih d (by omega)).2.2
    have hproduct : ∀ c : Cursor, c.ahead.length < n + 1 → Sound .product product c := fun c hc =>
      product_sound_step fun d hd => hfactor d (by omega)
    have hsum : ∀ c : Cursor, c.ahead.length < n + 1 → Sound .sum sum c := fun c hc =>
      sum_sound_step fun d hd => hproduct d (by omega)
    exact fun c hc => ⟨hfactor c hc, hproduct c hc, hsum c hc⟩

theorem sum_sound {r : Reading Expr c} (h : sum c = .ok r) :
    ∃ ts, c.tokens = ts ++ r.next.tokens ∧ IsExpr .sum ts r.value :=
  (expr_sound _ c (Nat.lt_succ_self _)).2.2 r h

theorem comparison_sound {r : Reading Expr c} (h : comparison c = .ok r) :
    ∃ ts, c.tokens = ts ++ r.next.tokens ∧ IsComparison ts r.value := by
  unfold comparison at h
  obtain ⟨left, hleft, h⟩ := bind_eq_ok.mp h
  obtain ⟨ts, hts, hl⟩ := sum_sound hleft
  split at h
  · cases h
    exact ⟨ts, hts, .ofSum hl⟩
  · rename_i op hop
    obtain ⟨right, hright, h⟩ := bind_eq_ok.mp h
    cases h
    obtain ⟨t, ht, hpick⟩ := tokens_of_operator? hop
    obtain ⟨us, hus, hr⟩ := sum_sound hright
    refine ⟨_, ?_, .compare hl (comparisonOf?_eq_some.mp hpick) hr⟩
    rw [hts, ht, hus]
    simp [Reading.andThen]

/-! ### Completeness of expressions -/

/-- Whether a token behind an expression leaves open only what its level leaves open. -/
def stops : Level → Token → Bool
  | .factor, t | .product, t => t ≠ .mark .openBracket
  | .sum, t => t ≠ .mark .openBracket && (multiplicativeOf? t).isNone

/-- A reader has come through the tokens of an expression. Products and sums may go on from there. -/
def Reaches : Level → (c : Cursor) → Expr → List Token → Prop
  | .factor, c, e, rest => Gives (factor c) (· = e) rest
  | .product, c, e, rest => ∃ r, product c = productRest r ∧ r.value = e ∧ r.next.tokens = rest
  | .sum, c, e, rest => ∃ r, sum c = sumRest r ∧ r.value = e ∧ r.next.tokens = rest

theorem productRest_stop {start : Cursor} {r : Reading Expr start}
    (h : ∀ t ∈ r.next.tokens.head?, multiplicativeOf? t = none) : productRest r = .ok r := by
  rw [productRest, operator?_eq_none h]

theorem sumRest_stop {start : Cursor} {r : Reading Expr start}
    (h : ∀ t ∈ r.next.tokens.head?, additiveOf? t = none) : sumRest r = .ok r := by
  rw [sumRest, operator?_eq_none h]

theorem stops_of_additive {t : Token} {op : Arithmetic} (h : IsAdditive t op) : stops .sum t = true := by
  cases h <;> rfl

theorem stops_of_multiplicative {t : Token} {op : Arithmetic} (h : IsMultiplicative t op) :
    stops .product t = true := by
  cases h <;> rfl

theorem stops_sum_iff {t : Token} : stops .sum t = true ↔ stops .product t = true ∧ multiplicativeOf? t = none := by
  simp only [stops, Bool.and_eq_true, Option.isNone_iff_eq_none]

/-- Whether a token behind a sum is no part of it. -/
def endsSum (t : Token) : Bool :=
  stops .sum t && (additiveOf? t).isNone

/-- Whether a token behind a comparison is no part of it. -/
def endsComparison (t : Token) : Bool :=
  endsSum t && (comparisonOf? t).isNone

theorem product_of_reaches {e : Expr} {rest : List Token} (h : Reaches .product c e rest)
    (hrest : ∀ t ∈ rest.head?, multiplicativeOf? t = none) : Gives (product c) (· = e) rest := by
  obtain ⟨r, hr, hvalue, htokens⟩ := h
  rw [hr, productRest_stop]
  · exact ⟨r, rfl, hvalue, htokens⟩
  · rw [htokens]
    exact hrest

theorem sum_of_reaches {e : Expr} {rest : List Token} (h : Reaches .sum c e rest)
    (hrest : ∀ t ∈ rest.head?, endsSum t = true) : Gives (sum c) (· = e) rest := by
  obtain ⟨r, hr, hvalue, htokens⟩ := h
  rw [hr, sumRest_stop]
  · exact ⟨r, rfl, hvalue, htokens⟩
  · intro t ht
    rw [htokens] at ht
    have hends := hrest t ht
    simp only [endsSum, Bool.and_eq_true, Option.isNone_iff_eq_none] at hends
    exact hends.2

theorem factor_name {name : String} {rest : List Token} (hc : c.tokens = .name name :: rest)
    (hrest : ∀ t ∈ rest.head?, t ≠ .mark .openBracket) : Gives (factor c) (· = .named name) rest := by
  obtain ⟨first, hfirst, htoken, hnext⟩ := Cursor.next?_of_tokens hc
  have hbracket : first.next.eat? (.mark .openBracket) = none := by
    rw [Cursor.eat?_eq_none_iff, hnext]
    exact fun h => hrest _ h rfl
  rw [factor, hfirst]
  simp only [htoken, hbracket]
  exact gives_pure rfl hnext

theorem factor_literal {t : Token} {rest : List Token} {l : Literal} (hc : c.tokens = t :: rest)
    (hl : IsLiteralToken t l) : Gives (factor c) (· = .literal l) rest := by
  obtain ⟨first, hfirst, rfl, hnext⟩ := Cursor.next?_of_tokens hc
  rw [factor, hfirst]
  simp only
  split
  · rename_i htoken
    rw [htoken] at hl
    cases hl
  · rename_i htoken
    rw [htoken] at hl
    cases hl
  · rename_i name htoken
    rw [htoken] at hl
    cases hl
  · exact (gives_plainLiteral hc hl).bind fun r hr htokens => gives_pure (congrArg Expr.literal hr) htokens

theorem factor_least {rest : List Token} (hc : c.tokens = .mark .minus :: leastMagnitude :: rest) :
    Gives (factor c) (· = .literal (.integer Int32.minValue)) rest := by
  obtain ⟨first, hfirst, htoken, hnext⟩ := Cursor.next?_of_tokens hc
  obtain ⟨magnitude, hmagnitude, hrest⟩ := Cursor.eat?_of_tokens hnext
  rw [factor, hfirst]
  simp only [htoken, hmagnitude]
  exact gives_pure rfl hrest

theorem factor_negate {ts rest : List Token} {e : Expr} (hc : c.tokens = .mark .minus :: ts)
    (hhead : ts.head? ≠ some leastMagnitude)
    (hoperand : ∀ {d : Cursor}, d.tokens = ts → Gives (factor d) (· = e) rest) :
    Gives (factor c) (· = .negate e) rest := by
  obtain ⟨first, hfirst, htoken, hnext⟩ := Cursor.next?_of_tokens hc
  have hmagnitude : first.next.eat? leastMagnitude = none := by
    rw [Cursor.eat?_eq_none_iff, hnext]
    exact hhead
  rw [factor, hfirst]
  simp only [htoken, hmagnitude]
  exact (hoperand hnext).bind fun r hr hrest => gives_pure (congrArg Expr.negate hr) hrest

theorem factor_element {name : String} {ts rest : List Token} {index : Expr}
    (hc : c.tokens = .name name :: .mark .openBracket :: ts)
    (hindex : ∀ {d : Cursor}, d.tokens = ts → Gives (sum d) (· = index) (.mark .closeBracket :: rest)) :
    Gives (factor c) (· = .element name index) rest := by
  obtain ⟨first, hfirst, htoken, hnext⟩ := Cursor.next?_of_tokens hc
  obtain ⟨bracket, hbracket, hnext⟩ := Cursor.eat?_of_tokens hnext
  rw [factor, hfirst]
  simp only [htoken, hbracket]
  refine (hindex hnext).bind fun r hr hnext => ?_
  refine (Cursor.gives_expect hnext).bind fun close _ hnext => ?_
  exact gives_pure (by rw [hr]; rfl) hnext

theorem factor_enclosed {ts rest : List Token} {e : Expr} (hc : c.tokens = .mark .openParen :: ts)
    (hinner : ∀ {d : Cursor}, d.tokens = ts → Gives (sum d) (· = e) (.mark .closeParen :: rest)) :
    Gives (factor c) (· = e) rest := by
  obtain ⟨first, hfirst, htoken, hnext⟩ := Cursor.next?_of_tokens hc
  rw [factor, hfirst]
  simp only [htoken]
  refine (hinner hnext).bind fun r hr hnext => ?_
  refine (Cursor.gives_expect hnext).bind fun close _ hnext => ?_
  exact gives_pure hr hnext

theorem reaches_product {e : Expr} {rest : List Token} (h : Gives (factor c) (· = e) rest) :
    Reaches .product c e rest := by
  obtain ⟨r, hr, hvalue, htokens⟩ := h
  refine ⟨r, ?_, hvalue, htokens⟩
  rw [product, hr]
  rfl

theorem reaches_times {t : Token} {us rest : List Token} {l r : Expr} {op : Arithmetic}
    (hleft : Reaches .product c l (t :: us)) (ht : IsMultiplicative t op)
    (hright : ∀ {d : Cursor}, d.tokens = us → Gives (factor d) (· = r) rest) :
    Reaches .product c (.arithmetic op l r) rest := by
  obtain ⟨left, hleft, rfl, htokens⟩ := hleft
  obtain ⟨o, ho, rfl, hnext⟩ := operator?_of_tokens htokens (multiplicativeOf?_eq_some.mpr ht)
  obtain ⟨right, hread, rfl, hrest⟩ := hright hnext
  refine ⟨left.andThen (o.andThen right ()) (.arithmetic o.value left.value right.value), ?_, rfl, hrest⟩
  rw [hleft, productRest, ho]
  simp only
  rw [hread]
  rfl

theorem reaches_sum {e : Expr} {rest : List Token} (h : Gives (product c) (· = e) rest) : Reaches .sum c e rest := by
  obtain ⟨r, hr, hvalue, htokens⟩ := h
  refine ⟨r, ?_, hvalue, htokens⟩
  rw [sum, hr]
  rfl

theorem reaches_plus {t : Token} {us rest : List Token} {l r : Expr} {op : Arithmetic}
    (hleft : Reaches .sum c l (t :: us)) (ht : IsAdditive t op)
    (hright : ∀ {d : Cursor}, d.tokens = us → Gives (product d) (· = r) rest) :
    Reaches .sum c (.arithmetic op l r) rest := by
  obtain ⟨left, hleft, rfl, htokens⟩ := hleft
  obtain ⟨o, ho, rfl, hnext⟩ := operator?_of_tokens htokens (additiveOf?_eq_some.mpr ht)
  obtain ⟨right, hread, rfl, hrest⟩ := hright hnext
  refine ⟨left.andThen (o.andThen right ()) (.arithmetic o.value left.value right.value), ?_, rfl, hrest⟩
  rw [hleft, sumRest, ho]
  simp only
  rw [hread]
  rfl

/-- A factor starts neither with the magnitude of the least integer nor with what only stands inside or behind
one. -/
theorem head_of_isExpr {level : Level} {ts : List Token} {e : Expr} (h : IsExpr level ts e) :
    ∃ t us, ts = t :: us ∧ t ≠ leastMagnitude ∧ t ≠ .keyword .var ∧ t ≠ .mark .closeParen ∧ t ≠ .newline := by
  induction h with
  | literal hl =>
    refine ⟨_, _, rfl, hl.ne_magnitudeLimit, ?_, ?_, ?_⟩ <;> rintro rfl <;> cases hl
  | least => exact ⟨_, _, rfl, nofun, nofun, nofun, nofun⟩
  | named name => exact ⟨_, _, rfl, nofun, nofun, nofun, nofun⟩
  | element name h ih => exact ⟨_, _, rfl, nofun, nofun, nofun, nofun⟩
  | negate h ih => exact ⟨_, _, rfl, nofun, nofun, nofun, nofun⟩
  | enclosed h ih => exact ⟨_, _, rfl, nofun, nofun, nofun, nofun⟩
  | ofFactor h ih => exact ih
  | ofProduct h ih => exact ih
  | times hl ht hr ihl ihr =>
    obtain ⟨t, us, rfl, h⟩ := ihl
    exact ⟨t, _, rfl, h⟩
  | plus hl ht hr ihl ihr =>
    obtain ⟨t, us, rfl, h⟩ := ihl
    exact ⟨t, _, rfl, h⟩

/-- Tokens that derive an expression take its reader to their end. -/
theorem reaches_of_isExpr {level : Level} {ts : List Token} {e : Expr} (h : IsExpr level ts e) :
    ∀ {c : Cursor} {rest : List Token}, c.tokens = ts ++ rest → (∀ t ∈ rest.head?, stops level t = true) →
      Reaches level c e rest := by
  induction h with
  | literal hl =>
    intro c rest hc _
    exact factor_literal hc hl
  | least =>
    intro c rest hc _
    exact factor_least hc
  | named name =>
    intro c rest hc hstop
    refine factor_name hc fun t ht hbracket => ?_
    have := hstop t ht
    rw [hbracket] at this
    cases this
  | element name h ih =>
    rename_i ts index
    intro c rest hc _
    have hc : c.tokens = .name name :: .mark .openBracket :: (ts ++ .mark .closeBracket :: rest) := by
      simpa using hc
    refine factor_element hc fun hnext => ?_
    exact sum_of_reaches (ih hnext (by rintro t ⟨⟩; rfl)) (by rintro t ⟨⟩; rfl)
  | negate h ih =>
    rename_i ts e
    intro c rest hc hstop
    refine factor_negate hc ?_ fun hnext => ih hnext hstop
    obtain ⟨t, us, rfl, ht, -⟩ := head_of_isExpr h
    exact fun hhead => ht (Option.some.inj hhead)
  | enclosed h ih =>
    rename_i ts e
    intro c rest hc _
    have hc : c.tokens = .mark .openParen :: (ts ++ .mark .closeParen :: rest) := by simpa using hc
    refine factor_enclosed hc fun hnext => ?_
    exact sum_of_reaches (ih hnext (by rintro t ⟨⟩; rfl)) (by rintro t ⟨⟩; rfl)
  | ofFactor h ih =>
    intro c rest hc hstop
    exact reaches_product (ih hc hstop)
  | times hl ht hr ihl ihr =>
    rename_i ts us l r t op
    intro c rest hc hstop
    have hc : c.tokens = ts ++ t :: (us ++ rest) := by simpa using hc
    have hleft : Reaches .product c l (t :: (us ++ rest)) :=
      ihl hc (by rintro u ⟨⟩; exact stops_of_multiplicative ht)
    exact reaches_times hleft ht fun hnext => ihr hnext hstop
  | ofProduct h ih =>
    intro c rest hc hstop
    refine reaches_sum (product_of_reaches (ih hc fun t ht => ?_) fun t ht => ?_)
    · exact (stops_sum_iff.mp (hstop t ht)).1
    · exact (stops_sum_iff.mp (hstop t ht)).2
  | plus hl ht hr ihl ihr =>
    rename_i ts us l r t op
    intro c rest hc hstop
    have hc : c.tokens = ts ++ t :: (us ++ rest) := by simpa using hc
    have hleft : Reaches .sum c l (t :: (us ++ rest)) := ihl hc (by rintro u ⟨⟩; exact stops_of_additive ht)
    refine reaches_plus hleft ht fun hnext => product_of_reaches (ihr hnext fun u hu => ?_) fun u hu => ?_
    · exact (stops_sum_iff.mp (hstop u hu)).1
    · exact (stops_sum_iff.mp (hstop u hu)).2

theorem sum_complete {ts rest : List Token} {e : Expr} (h : IsExpr .sum ts e) (hc : c.tokens = ts ++ rest)
    (hrest : ∀ t ∈ rest.head?, endsSum t = true) : Gives (sum c) (· = e) rest := by
  refine sum_of_reaches (reaches_of_isExpr h hc fun t ht => ?_) hrest
  have hends := hrest t ht
  simp only [endsSum, Bool.and_eq_true] at hends
  exact hends.1

theorem endsSum_of_comparison {t : Token} {op : Comparison} (h : IsComparator t op) : endsSum t = true := by
  cases h <;> rfl

theorem comparison_complete {ts rest : List Token} {e : Expr} (h : IsComparison ts e) (hc : c.tokens = ts ++ rest)
    (hrest : ∀ t ∈ rest.head?, endsComparison t = true) : Gives (comparison c) (· = e) rest := by
  have hrest' : ∀ t ∈ rest.head?, endsSum t = true ∧ comparisonOf? t = none := fun t ht => by
    have hends := hrest t ht
    simpa only [endsComparison, Bool.and_eq_true, Option.isNone_iff_eq_none] using hends
  cases h with
  | ofSum hsum =>
    refine (sum_complete hsum hc fun t ht => (hrest' t ht).1).bind fun r hr hnext => ?_
    rw [operator?_eq_none fun t ht => (hrest' t (hnext ▸ ht)).2]
    exact gives_pure hr hnext
  | compare hl ht hr =>
    rename_i ts us l r t op
    have hc : c.tokens = ts ++ t :: (us ++ rest) := by simpa using hc
    refine (sum_complete hl hc (by rintro u ⟨⟩; exact endsSum_of_comparison ht)).bind fun left hleft hnext => ?_
    obtain ⟨o, ho, hop, hnext⟩ := operator?_of_tokens hnext (comparisonOf?_eq_some.mpr ht)
    rw [ho]
    refine (sum_complete hr hnext fun t ht => (hrest' t ht).1).bind fun right hright hnext => ?_
    exact gives_pure (by rw [hleft, hop, hright]; rfl) hnext

/-! ### The reader and the grammar -/

/-- Lexemes that stand for given tokens, at no place. -/
def bare (ts : List Token) : List Lexeme :=
  ts.map fun t => ⟨t, "", .blank⟩

@[simp] theorem map_token_bare (ts : List Token) : (bare ts).map Lexeme.token = ts := by
  rw [bare, List.map_map]
  exact List.map_id ts

/-- The reader takes the lexemes of a comparison, all of them and no more. -/
theorem comparison_takes {ls rest : List Lexeme} {e : Expr} (hc : c.ahead = ls ++ rest)
    (h : IsComparison (ls.map Lexeme.token) e) (hrest : ∀ l ∈ rest.head?, endsComparison l.token = true) :
    ∃ r, comparison c = .ok r ∧ r.value = e ∧ r.next.ahead = rest := by
  have htokens : c.tokens = ls.map Lexeme.token ++ rest.map Lexeme.token := by
    rw [Cursor.tokens, hc, List.map_append]
  have hends : ∀ t ∈ (rest.map Lexeme.token).head?, endsComparison t = true := by
    cases rest with
    | nil => simp
    | cons l more => simpa using hrest l rfl
  obtain ⟨r, hr, hvalue, hnext⟩ := comparison_complete h htokens hends
  exact ⟨r, hr, hvalue, r.passes.ahead_eq hc hnext⟩

/-- A comparison is read in one way only, so its tokens stand for one tree. -/
theorem isComparison_unique {ts : List Token} {e e' : Expr} (h : IsComparison ts e) (h' : IsComparison ts e') :
    e = e' := by
  rw [← map_token_bare ts] at h h'
  have hc : (Cursor.ofLexemes (bare ts)).ahead = bare ts ++ [] := (List.append_nil _).symm
  obtain ⟨r, hr, hvalue, -⟩ := comparison_takes hc h nofun
  obtain ⟨r', hr', hvalue', -⟩ := comparison_takes hc h' nofun
  rw [hr, Except.ok.injEq] at hr'
  rw [← hvalue, ← hvalue', hr']

/-- The reader of comparisons and the grammar agree. Tokens of a comparison in front of anything that cannot go on
with it are read as its tree, up to there; whatever is read is a comparison by the tokens that were taken; and tokens
stand for at most one tree. -/
theorem comparison_grammar :
    (∀ (c : Cursor) (ls rest : List Lexeme) (e : Expr), c.ahead = ls ++ rest →
      IsComparison (ls.map Lexeme.token) e →
      (∀ l ∈ rest.head?, l.token ≠ .mark .openBracket ∧ (∀ op, ¬ IsMultiplicative l.token op) ∧
        (∀ op, ¬ IsAdditive l.token op) ∧ ∀ op, ¬ IsComparator l.token op) →
      ∃ r, comparison c = .ok r ∧ r.value = e ∧ r.next.ahead = rest) ∧
    (∀ (c : Cursor) (r : Reading Expr c), comparison c = .ok r →
      ∃ ls, c.ahead = ls ++ r.next.ahead ∧ IsComparison (ls.map Lexeme.token) r.value) ∧
    (∀ (ts : List Token) (e e' : Expr), IsComparison ts e → IsComparison ts e' → e = e') := by
  refine ⟨fun c ls rest e hc h hrest => ?_, fun c r h => ?_, fun ts e e' h h' => isComparison_unique h h'⟩
  · refine comparison_takes hc h fun l hl => ?_
    obtain ⟨hbracket, hmultiplicative, hadditive, hcomparison⟩ := hrest l hl
    have hmultiplicative : multiplicativeOf? l.token = none :=
      Option.eq_none_iff_forall_ne_some.mpr fun op hop => hmultiplicative op (multiplicativeOf?_eq_some.mp hop)
    have hadditive : additiveOf? l.token = none :=
      Option.eq_none_iff_forall_ne_some.mpr fun op hop => hadditive op (additiveOf?_eq_some.mp hop)
    have hcomparison : comparisonOf? l.token = none :=
      Option.eq_none_iff_forall_ne_some.mpr fun op hop => hcomparison op (comparisonOf?_eq_some.mp hop)
    simp [endsComparison, endsSum, stops, hbracket, hmultiplicative, hadditive, hcomparison]
  · obtain ⟨ts, hts, hcomparison⟩ := comparison_sound h
    obtain ⟨ls, hls, rfl⟩ := r.passes.lexemes hts
    exact ⟨ls, hls, hcomparison⟩

/-- The least integer, an element and a comparison, in front of the word that ends a condition. -/
theorem comparison_grammar_least :
    ∃ r, comparison (.ofLexemes (bare [.mark .minus, .integer 2147483648, .mark .minus, .name "a", .mark .openBracket,
        .integer 1, .mark .closeBracket, .mark .less, .integer 3] ++ bare [.keyword .then_])) = .ok r ∧
      r.value = .compare .less
        (.arithmetic .subtract (.literal (.integer Int32.minValue)) (.element "a" (.literal (.integer 1))))
        (.literal (.integer 3)) ∧
      r.next.ahead = bare [.keyword .then_] := by
  have hleast : IsExpr .sum [.mark .minus, .integer magnitudeLimit] (.literal (.integer Int32.minValue)) :=
    .ofProduct (.ofFactor .least)
  have helement : IsExpr .product (.name "a" :: .mark .openBracket :: [.integer 1] ++ [.mark .closeBracket])
      (.element "a" (.literal (.integer 1))) :=
    .ofFactor (.element "a" (.ofProduct (.ofFactor (.literal (.integer (by decide))))))
  have hthree : IsExpr .sum [.integer 3] (.literal (.integer 3)) :=
    .ofProduct (.ofFactor (.literal (.integer (by decide))))
  refine comparison_grammar.1 _ _ _ _ rfl ?_ (by rintro l ⟨⟩; exact ⟨nofun, nofun, nofun, nofun⟩)
  rw [map_token_bare]
  exact .compare (.plus hleast .minus helement) .less hthree

end Offside.Parse
