import Offside.Parse.Program
import Offside.Proofs.ParseExpr

/-!
# Reading declarations

The readers of parameters and of the sections of a function take what the grammar derives, and read what it
derives. A block of declarations ends at its dedent, so the reader takes a block without any line too; the grammar
has none, and no block of a source is empty.
-/

namespace Offside.Parse

open Grammar

variable {c : Cursor}

theorem names_sound {what : Expected} {c : Cursor} {r : Reading (List (String × Lexeme)) c}
    (h : names what c = .ok r) : ∃ ts, c.tokens = ts ++ r.next.tokens ∧ IsNames ts (r.value.map Prod.fst) := by
  rw [names] at h
  obtain ⟨first, hfirst, h⟩ := bind_eq_ok.mp h
  have hc := Cursor.tokens_of_expectName hfirst
  split at h
  · cases h
    exact ⟨_, hc, .one _⟩
  · rename_i comma hcomma
    obtain ⟨rest, hrest, h⟩ := bind_eq_ok.mp h
    cases h
    have hshorter := Nat.lt_trans comma.shorter first.shorter
    obtain ⟨ts, hts, hnames⟩ := names_sound hrest
    refine ⟨_, ?_, .more first.value.1 hnames⟩
    rw [hc, Cursor.tokens_of_eat? hcomma, hts]
    rfl
termination_by c.ahead.length
decreasing_by exact hshorter

theorem names_complete {what : Expected} {ts : List Token} {all : List String} (h : IsNames ts all) :
    ∀ {c : Cursor} {rest : List Token}, c.tokens = ts ++ rest → rest.head? ≠ some (.mark .comma) →
      Gives (names what c) (fun ns => ns.map Prod.fst = all) rest := by
  induction h with
  | one name =>
    intro c rest hc hrest
    rw [names]
    refine (Cursor.gives_expectName hc).bind fun first hfirst hnext => ?_
    have hcomma : first.next.eat? (.mark .comma) = none := by
      rw [Cursor.eat?_eq_none_iff, hnext]
      exact hrest
    rw [hcomma]
    exact gives_pure (by rw [← hfirst]; rfl) hnext
  | more name h ih =>
    intro c rest hc hrest
    rw [names]
    refine (Cursor.gives_expectName hc).bind fun first hfirst hnext => ?_
    obtain ⟨comma, hcomma, hnext⟩ := Cursor.eat?_of_tokens hnext
    rw [hcomma]
    refine (ih hnext hrest).bind fun more hmore hnext => ?_
    exact gives_pure (by rw [← hfirst, ← hmore]; rfl) hnext

/-! ### Parameters -/

theorem typedParameters_sound {mutable : Bool} {r : Reading (List Declaration) c}
    (h : typedParameters mutable c = .ok r) : ∃ ts us all type, c.tokens = ts ++ .mark .colon :: us ++ r.next.tokens ∧
      IsNames ts all ∧ IsType us type ∧
      r.value.map Declaration.unplaced = all.map fun name => .parameter name type mutable .blank := by
  obtain ⟨group, hgroup, h⟩ := bind_eq_ok.mp h
  obtain ⟨colon, hcolon, h⟩ := bind_eq_ok.mp h
  obtain ⟨type, htype, h⟩ := bind_eq_ok.mp h
  cases h
  obtain ⟨ts, hts, hnames⟩ := names_sound hgroup
  obtain ⟨us, hus, hdata⟩ := dataType_sound htype
  refine ⟨ts, us, _, _, ?_, hnames, hdata, ?_⟩
  · rw [hts, Cursor.tokens_of_expect hcolon, hus]
    simp [Reading.andThen]
  · simp only [Reading.andThen, List.map_map]
    rfl

theorem typedParameters_complete {mutable : Bool} {ts us rest : List Token} {all : List String} {type : DataType}
    (hnames : IsNames ts all) (htype : IsType us type) (hc : c.tokens = ts ++ .mark .colon :: (us ++ rest)) :
    Gives (typedParameters mutable c)
      (fun ds => ds.map Declaration.unplaced = all.map fun name => .parameter name type mutable .blank) rest := by
  refine (names_complete hnames hc nofun).bind fun group hgroup hnext => ?_
  refine (Cursor.gives_expect hnext).bind fun colon _ hnext => ?_
  refine (dataType_complete htype hnext).bind fun t ht hnext => ?_
  refine gives_pure ?_ hnext
  simp only [Reading.andThen, List.map_map, ht, ← hgroup]
  rfl

theorem parameterGroup_sound {r : Reading (List Declaration) c} (h : parameterGroup c = .ok r) :
    ∃ ts, c.tokens = ts ++ r.next.tokens ∧ IsGroup ts (r.value.map Declaration.unplaced) := by
  unfold parameterGroup at h
  split at h
  · rename_i var hvar
    obtain ⟨group, hgroup, h⟩ := bind_eq_ok.mp h
    cases h
    obtain ⟨ts, us, all, type, hts, hnames, htype, hvalue⟩ := typedParameters_sound hgroup
    refine ⟨varTokens true ++ ts ++ .mark .colon :: us, ?_, ?_⟩
    · rw [Cursor.tokens_of_eat? hvar, hts]
      simp [varTokens, Reading.andThen]
    · rw [Reading.andThen, hvalue]
      exact .mk true hnames htype
  · obtain ⟨ts, us, all, type, hts, hnames, htype, hvalue⟩ := typedParameters_sound h
    rw [hvalue]
    exact ⟨_, hts, .mk false hnames htype⟩

theorem head_of_isNames {ts : List Token} {all : List String} (h : IsNames ts all) :
    ∃ name us, ts = .name name :: us := by
  cases h <;> exact ⟨_, _, rfl⟩

theorem parameterGroup_complete {ts rest : List Token} {ds : List Declaration} (h : IsGroup ts ds)
    (hc : c.tokens = ts ++ rest) :
    Gives (parameterGroup c) (fun es => es.map Declaration.unplaced = ds) rest := by
  cases h with
  | mk mutable hnames htype =>
    rename_i ts us all type
    cases mutable with
    | true =>
      have hc : c.tokens = .keyword .var :: (ts ++ .mark .colon :: (us ++ rest)) := by simpa [varTokens] using hc
      obtain ⟨var, hvar, hnext⟩ := Cursor.eat?_of_tokens hc
      rw [parameterGroup, hvar]
      exact (typedParameters_complete hnames htype hnext).bind fun group hgroup hnext => gives_pure hgroup hnext
    | false =>
      have hc : c.tokens = ts ++ .mark .colon :: (us ++ rest) := by simpa [varTokens] using hc
      have hvar : c.eat? (.keyword .var) = none := by
        obtain ⟨name, vs, rfl⟩ := head_of_isNames hnames
        rw [Cursor.eat?_eq_none_iff, hc]
        nofun
      rw [parameterGroup, hvar]
      exact typedParameters_complete hnames htype hc

theorem tokens_of_groupSeparator? {r : Reading Lexeme c} (h : groupSeparator? c = some r) :
    ∃ t, (t = .mark .semicolon ∨ t = .mark .comma) ∧ c.tokens = t :: r.next.tokens := by
  unfold groupSeparator? at h
  split at h
  · rename_i semicolon hsemicolon
    cases h
    exact ⟨_, .inl rfl, Cursor.tokens_of_eat? hsemicolon⟩
  · exact ⟨_, .inr rfl, Cursor.tokens_of_eat? h⟩

theorem groupSeparator?_of_tokens {t : Token} {ts : List Token} (ht : t = .mark .semicolon ∨ t = .mark .comma)
    (hc : c.tokens = t :: ts) : ∃ r, groupSeparator? c = some r ∧ r.next.tokens = ts := by
  obtain ⟨r, hr, hnext⟩ := Cursor.eat?_of_tokens hc
  refine ⟨r, ?_, hnext⟩
  rcases ht with rfl | rfl
  · rw [groupSeparator?, hr]
  · have hsemicolon : c.eat? (.mark .semicolon) = none := by
      rw [Cursor.eat?_eq_none_iff, hc]
      nofun
    rw [groupSeparator?, hsemicolon]
    exact hr

theorem parameters_sound {c : Cursor} {r : Reading (List Declaration) c} (h : parameters c = .ok r) :
    ∃ ts, c.tokens = ts ++ r.next.tokens ∧ IsParameters ts (r.value.map Declaration.unplaced) := by
  rw [parameters] at h
  obtain ⟨group, hgroup, h⟩ := bind_eq_ok.mp h
  obtain ⟨ts, hts, hisGroup⟩ := parameterGroup_sound hgroup
  split at h
  · cases h
    exact ⟨ts, hts, .one hisGroup⟩
  · rename_i separator hseparator
    obtain ⟨rest, hrest, h⟩ := bind_eq_ok.mp h
    cases h
    have hshorter := Nat.lt_trans separator.shorter group.shorter
    obtain ⟨us, hus, hparameters⟩ := parameters_sound hrest
    obtain ⟨t, ht, hseparates⟩ := tokens_of_groupSeparator? hseparator
    refine ⟨ts ++ t :: us, ?_, ?_⟩
    · rw [hts, hseparates, hus]
      simp [Reading.andThen]
    · simp only [Reading.andThen, List.map_append]
      exact .more hisGroup ht hparameters
termination_by c.ahead.length
decreasing_by exact hshorter

theorem parameters_complete {ts : List Token} {ds : List Declaration} (h : IsParameters ts ds) :
    ∀ {c : Cursor} {rest : List Token}, c.tokens = ts ++ .mark .closeParen :: rest →
      Gives (parameters c) (fun es => es.map Declaration.unplaced = ds) (.mark .closeParen :: rest) := by
  induction h with
  | one h =>
    intro c rest hc
    rw [parameters]
    refine (parameterGroup_complete h hc).bind fun group hgroup hnext => ?_
    cases hseparator : groupSeparator? group.next with
    | none => exact gives_pure hgroup hnext
    | some separator =>
      obtain ⟨t, ht, hc⟩ := tokens_of_groupSeparator? hseparator
      rw [hnext, List.cons.injEq] at hc
      rcases ht with rfl | rfl <;> cases hc.1
  | more h ht hs ih =>
    rename_i ts us ds es t
    intro c rest hc
    have hc : c.tokens = ts ++ t :: (us ++ .mark .closeParen :: rest) := by simpa using hc
    rw [parameters]
    refine (parameterGroup_complete h hc).bind fun group hgroup hnext => ?_
    obtain ⟨separator, hseparator, hnext⟩ := groupSeparator?_of_tokens ht hnext
    rw [hseparator]
    refine (ih hnext).bind fun more hmore hnext => gives_pure ?_ hnext
    rw [← hgroup, ← hmore, ← List.map_append]
    rfl

theorem parameterList_sound {r : Reading (List Declaration) c} (h : parameterList c = .ok r) :
    ∃ ts, c.tokens = ts ++ r.next.tokens ∧ IsParameterList ts (r.value.map Declaration.unplaced) := by
  obtain ⟨opening, hopening, h⟩ := bind_eq_ok.mp h
  have hc := Cursor.tokens_of_expect hopening
  split at h
  · rename_i close hclose
    cases h
    refine ⟨_, ?_, .none⟩
    rw [hc, Cursor.tokens_of_eat? hclose]
    rfl
  · obtain ⟨all, hall, h⟩ := bind_eq_ok.mp h
    obtain ⟨close, hclose, h⟩ := bind_eq_ok.mp h
    cases h
    obtain ⟨ts, hts, hparameters⟩ := parameters_sound hall
    refine ⟨_, ?_, .some hparameters⟩
    rw [hc, hts, Cursor.tokens_of_expect hclose]
    simp [Reading.andThen]

theorem head_of_isParameters {ts : List Token} {ds : List Declaration} (h : IsParameters ts ds) :
    ∃ t us, ts = t :: us ∧ t ≠ .mark .closeParen := by
  have head_of_isGroup : ∀ {ts : List Token} {ds : List Declaration}, IsGroup ts ds →
      ∃ t us, ts = t :: us ∧ t ≠ .mark .closeParen := by
    intro ts ds h
    cases h with
    | mk mutable hnames =>
      obtain ⟨name, us, rfl⟩ := head_of_isNames hnames
      cases mutable <;> exact ⟨_, _, rfl, nofun⟩
  cases h with
  | one h => exact head_of_isGroup h
  | more h =>
    obtain ⟨t, us, rfl, ht⟩ := head_of_isGroup h
    exact ⟨t, _, rfl, ht⟩

theorem parameterList_complete {ts rest : List Token} {ds : List Declaration} (h : IsParameterList ts ds)
    (hc : c.tokens = ts ++ rest) :
    Gives (parameterList c) (fun es => es.map Declaration.unplaced = ds) rest := by
  cases h with
  | none =>
    refine (Cursor.gives_expect hc).bind fun opening _ hnext => ?_
    obtain ⟨close, hclose, hnext⟩ := Cursor.eat?_of_tokens hnext
    rw [hclose]
    exact gives_pure rfl hnext
  | some h =>
    rename_i ts
    have hc : c.tokens = .mark .openParen :: (ts ++ .mark .closeParen :: rest) := by simpa using hc
    refine (Cursor.gives_expect hc).bind fun opening _ hnext => ?_
    have hclose : opening.next.eat? (.mark .closeParen) = none := by
      obtain ⟨t, us, rfl, ht⟩ := head_of_isParameters h
      rw [Cursor.eat?_eq_none_iff, hnext]
      exact fun hhead => ht (Option.some.inj hhead)
    rw [hclose]
    refine (parameters_complete h hnext).bind fun all hall hnext => ?_
    exact (Cursor.gives_expect hnext).bind fun close _ hnext => gives_pure hall hnext

/-! ### Lines of a section -/

theorem constants_sound {c : Cursor} {r : Reading (List Declaration) c} (h : constants c = .ok r) :
    ∃ ts, c.tokens = ts ++ r.next.tokens ∧ IsConstants ts (r.value.map Declaration.unplaced) := by
  rw [constants] at h
  obtain ⟨name, hname, h⟩ := bind_eq_ok.mp h
  obtain ⟨equal, hequal, h⟩ := bind_eq_ok.mp h
  obtain ⟨value, hvalue, h⟩ := bind_eq_ok.mp h
  obtain ⟨ts, hts, hliteral⟩ := literal_sound hvalue
  have hc : c.tokens = .name name.value.1 :: .mark .equal :: ts ++ value.next.tokens := by
    rw [Cursor.tokens_of_expectName hname, Cursor.tokens_of_expect hequal, hts]
    rfl
  dsimp only at h
  split at h
  · cases h
    exact ⟨_, hc, .one _ hliteral⟩
  · rename_i comma hcomma
    obtain ⟨rest, hrest, h⟩ := bind_eq_ok.mp h
    cases h
    have hshorter := Nat.lt_trans comma.shorter
      (Nat.lt_trans value.shorter (Nat.lt_trans equal.shorter name.shorter))
    obtain ⟨us, hus, hconstants⟩ := constants_sound hrest
    have hcomma : value.next.tokens = .mark .comma :: comma.next.tokens := Cursor.tokens_of_eat? hcomma
    refine ⟨_, ?_, .more name.value.1 hliteral hconstants⟩
    rw [hc, hcomma, hus]
    simp [Reading.andThen]
termination_by c.ahead.length
decreasing_by exact hshorter

theorem constants_complete {ts : List Token} {ds : List Declaration} (h : IsConstants ts ds) :
    ∀ {c : Cursor} {rest : List Token}, c.tokens = ts ++ rest → rest.head? ≠ some (.mark .comma) →
      Gives (constants c) (fun es => es.map Declaration.unplaced = ds) rest := by
  induction h with
  | one name h =>
    intro c rest hc hrest
    rw [constants]
    refine (Cursor.gives_expectName hc).bind fun n hn hnext => ?_
    refine (Cursor.gives_expect hnext).bind fun equal _ hnext => ?_
    refine (literal_complete h hnext).bind fun value hvalue hnext => ?_
    have hcomma : value.next.eat? (.mark .comma) = none := by
      rw [Cursor.eat?_eq_none_iff, hnext]
      exact hrest
    simp only [Reading.andThen, hcomma]
    exact gives_pure (by rw [← hn, ← hvalue]; rfl) hnext
  | more name h hs ih =>
    rename_i ts us value ds
    intro c rest hc hrest
    have hc : c.tokens = .name name :: .mark .equal :: (ts ++ .mark .comma :: (us ++ rest)) := by simpa using hc
    rw [constants]
    refine (Cursor.gives_expectName hc).bind fun n hn hnext => ?_
    refine (Cursor.gives_expect hnext).bind fun equal _ hnext => ?_
    refine (literal_complete h hnext).bind fun value hvalue hnext => ?_
    obtain ⟨comma, hcomma, hnext⟩ := Cursor.eat?_of_tokens hnext
    simp only [Reading.andThen, hcomma]
    refine (ih hnext hrest).bind fun more hmore hnext => ?_
    exact gives_pure (by rw [← hn, ← hvalue, ← hmore]; rfl) hnext

theorem constantLine_sound {r : Reading (List Declaration) c} (h : constantLine c = .ok r) :
    ∃ ts, c.tokens = ts ++ r.next.tokens ∧ IsLine .constants ts (r.value.map Declaration.unplaced) := by
  unfold constantLine at h
  split at h
  · rename_i const hconst
    obtain ⟨all, hall, h⟩ := bind_eq_ok.mp h
    obtain ⟨lineEnd, hlineEnd, h⟩ := bind_eq_ok.mp h
    cases h
    obtain ⟨ts, hts, hconstants⟩ := constants_sound hall
    refine ⟨_, ?_, .const hconstants⟩
    rw [Cursor.tokens_of_eat? hconst, hts, Cursor.tokens_of_expect hlineEnd]
    simp [Reading.andThen]
  · obtain ⟨all, hall, h⟩ := bind_eq_ok.mp h
    obtain ⟨lineEnd, hlineEnd, h⟩ := bind_eq_ok.mp h
    cases h
    obtain ⟨ts, hts, hconstants⟩ := constants_sound hall
    refine ⟨_, ?_, .constants hconstants⟩
    rw [hts, Cursor.tokens_of_expect hlineEnd]
    simp [Reading.andThen]

theorem typedVariables_eq_ok {type : DataType} {range : Option Range} {all : List (String × Lexeme)}
    {ds : List Declaration} : typedVariables type range all = .ok ds ↔
      (∀ name ∈ all.map Prod.fst, Range.check name type range = .ok ()) ∧
        ds = all.map fun n => ⟨n.1, type, true, none, range, n.2.location⟩ := by
  induction all generalizing ds with
  | nil => simp [typedVariables, eq_comm]
  | cons first rest ih =>
    obtain ⟨name, l⟩ := first
    rw [typedVariables, Declaration.ofType]
    cases hcheck : Range.check name type range with
    | error e =>
      constructor
      · exact nofun
      · rintro ⟨hall, -⟩
        cases hcheck.symm.trans (hall name (by simp))
    | ok _ =>
      simp only [List.map_cons, List.mem_cons, forall_eq_or_imp, hcheck, true_and]
      constructor
      · intro h
        obtain ⟨es, hes, h⟩ := bind_eq_ok.mp h
        cases h
        obtain ⟨hall, rfl⟩ := ih.mp hes
        exact ⟨hall, rfl⟩
      · rintro ⟨hall, rfl⟩
        exact bind_eq_ok.mpr ⟨_, ih.mpr ⟨hall, rfl⟩, rfl⟩

theorem rangeAndLineEnd_sound {r : Reading (Option Range) c} (h : rangeAndLineEnd c = .ok r) :
    ∃ ts, c.tokens = ts ++ .newline :: r.next.tokens ∧ IsRange ts r.value := by
  unfold rangeAndLineEnd at h
  split at h
  · obtain ⟨lineEnd, hlineEnd, h⟩ := bind_eq_ok.mp h
    cases h
    exact ⟨[], Cursor.tokens_of_expect hlineEnd, .none⟩
  · rename_i from_ hfrom
    obtain ⟨range, hrange, h⟩ := bind_eq_ok.mp h
    obtain ⟨lineEnd, hlineEnd, h⟩ := bind_eq_ok.mp h
    cases h
    obtain ⟨ts, us, hts, hlow, hhigh⟩ := limits_sound hrange
    refine ⟨_, ?_, .limits hlow hhigh⟩
    rw [Cursor.tokens_of_eat? hfrom, hts, Cursor.tokens_of_expect hlineEnd]
    simp [Reading.andThen]

theorem rangeAndLineEnd_complete {ts rest : List Token} {range : Option Range} (h : IsRange ts range)
    (hc : c.tokens = ts ++ .newline :: rest) : Gives (rangeAndLineEnd c) (· = range) rest := by
  cases h with
  | none =>
    have hfrom : c.eat? (.keyword .from_) = none := by
      rw [Cursor.eat?_eq_none_iff, hc]
      nofun
    rw [rangeAndLineEnd, hfrom]
    exact (Cursor.gives_expect hc).bind fun lineEnd _ hnext => gives_pure rfl hnext
  | limits hlow hhigh =>
    rename_i ts us low high
    have hc : c.tokens = .keyword .from_ :: (ts ++ .keyword .to_ :: us ++ .newline :: rest) := by simpa using hc
    obtain ⟨from_, hfrom, hnext⟩ := Cursor.eat?_of_tokens hc
    rw [rangeAndLineEnd, hfrom]
    refine (limits_complete hlow hhigh hnext).bind fun range hrange hnext => ?_
    exact (Cursor.gives_expect hnext).bind fun lineEnd _ hnext => gives_pure (by rw [← hrange]; rfl) hnext

theorem variableLine_sound {r : Reading (List Declaration) c} (h : variableLine c = .ok r) :
    ∃ ts, c.tokens = ts ++ r.next.tokens ∧ IsLine .variables_ ts (r.value.map Declaration.unplaced) := by
  obtain ⟨first, hfirst, h⟩ := bind_eq_ok.mp h
  split at h
  · rename_i equal hequal
    obtain ⟨value, hvalue, h⟩ := bind_eq_ok.mp h
    obtain ⟨lineEnd, hlineEnd, h⟩ := bind_eq_ok.mp h
    cases h
    obtain ⟨ts, hts, hliteral⟩ := literal_sound hvalue
    refine ⟨_, ?_, .value first.value.1 hliteral⟩
    rw [Cursor.tokens_of_expectName hfirst, Cursor.tokens_of_eat? hequal, hts, Cursor.tokens_of_expect hlineEnd]
    simp [Reading.andThen]
  · obtain ⟨all, hall, h⟩ := bind_eq_ok.mp h
    obtain ⟨colon, hcolon, h⟩ := bind_eq_ok.mp h
    obtain ⟨type, htype, h⟩ := bind_eq_ok.mp h
    obtain ⟨range, hrange, h⟩ := bind_eq_ok.mp h
    obtain ⟨ds, hds, h⟩ := bind_eq_ok.mp h
    cases h
    obtain ⟨ts, hts, hnames⟩ := names_sound hall
    obtain ⟨us, hus, hdata⟩ := dataType_sound htype
    obtain ⟨vs, hvs, hlimits⟩ := rangeAndLineEnd_sound hrange
    obtain ⟨hcheck, rfl⟩ := typedVariables_eq_ok.mp hds
    refine ⟨ts ++ .mark .colon :: us ++ vs ++ [.newline], ?_, ?_⟩
    · rw [hts, Cursor.tokens_of_expect hcolon, hus, hvs]
      simp [Reading.andThen]
    · have hline := IsLine.typed hnames hdata hlimits hcheck
      rw [List.map_map] at hline
      simp only [Reading.andThen, List.map_map]
      exact hline

theorem constantLine_complete {ts rest : List Token} {ds : List Declaration} (h : IsLine .constants ts ds)
    (hc : c.tokens = ts ++ rest) :
    Gives (constantLine c) (fun es => es.map Declaration.unplaced = ds) rest := by
  cases h with
  | constants h =>
    rename_i ts
    have hc : c.tokens = ts ++ .newline :: rest := by simpa using hc
    have hconst : c.eat? (.keyword .const) = none := by
      rw [Cursor.eat?_eq_none_iff, hc]
      cases h <;> nofun
    rw [constantLine, hconst]
    refine (constants_complete h hc nofun).bind fun all hall hnext => ?_
    exact (Cursor.gives_expect hnext).bind fun lineEnd _ hnext => gives_pure hall hnext
  | const h =>
    rename_i ts
    have hc : c.tokens = .keyword .const :: (ts ++ .newline :: rest) := by simpa using hc
    obtain ⟨const, hconst, hnext⟩ := Cursor.eat?_of_tokens hc
    rw [constantLine, hconst]
    refine (constants_complete h hnext nofun).bind fun all hall hnext => ?_
    exact (Cursor.gives_expect hnext).bind fun lineEnd _ hnext => gives_pure hall hnext

theorem variableLine_complete {ts rest : List Token} {ds : List Declaration} (h : IsLine .variables_ ts ds)
    (hc : c.tokens = ts ++ rest) :
    Gives (variableLine c) (fun es => es.map Declaration.unplaced = ds) rest := by
  cases h with
  | value name h =>
    rename_i ts value
    have hc : c.tokens = .name name :: .mark .equal :: (ts ++ .newline :: rest) := by simpa using hc
    refine (Cursor.gives_expectName hc).bind fun first hfirst hnext => ?_
    obtain ⟨equal, hequal, hnext⟩ := Cursor.eat?_of_tokens hnext
    rw [hequal]
    refine (literal_complete h hnext).bind fun v hv hnext => ?_
    refine (Cursor.gives_expect hnext).bind fun lineEnd _ hnext => ?_
    exact gives_pure (by rw [← hfirst, ← hv]; rfl) hnext
  | typed hnames htype hrange hcheck =>
    rename_i ts us vs all type range
    have hc : c.tokens = ts ++ .mark .colon :: (us ++ (vs ++ .newline :: rest)) := by simpa using hc
    obtain ⟨name, more, hts, hmore⟩ : ∃ name more, c.tokens = .name name :: more ∧
        more.head? ≠ some (.mark .equal) := by
      cases hnames <;> exact ⟨_, _, hc, nofun⟩
    refine (Cursor.gives_expectName hts).bind fun first hfirst hnext => ?_
    have hequal : first.next.eat? (.mark .equal) = none := by
      rw [Cursor.eat?_eq_none_iff, hnext]
      exact hmore
    rw [hequal]
    refine (names_complete hnames hc nofun).bind fun group hgroup hnext => ?_
    refine (Cursor.gives_expect hnext).bind fun colon _ hnext => ?_
    refine (dataType_complete htype hnext).bind fun t ht hnext => ?_
    refine (rangeAndLineEnd_complete hrange hnext).bind fun r hr hnext => ?_
    have hvariables := typedVariables_eq_ok.mpr ⟨hgroup ▸ hcheck, rfl⟩
    rw [ht, hr, hvariables]
    refine gives_pure ?_ hnext
    simp only [Reading.andThen, List.map_map, ← hgroup]
    rfl

/-! ### Sections -/

theorem line_sound {kind : Section} {r : Reading (List Declaration) c} (h : kind.line c = .ok r) :
    ∃ ts, c.tokens = ts ++ r.next.tokens ∧ IsLine kind ts (r.value.map Declaration.unplaced) := by
  cases kind with
  | constants => exact constantLine_sound h
  | variables_ => exact variableLine_sound h

theorem line_complete {kind : Section} {ts rest : List Token} {ds : List Declaration} (h : IsLine kind ts ds)
    (hc : c.tokens = ts ++ rest) :
    Gives (kind.line c) (fun es => es.map Declaration.unplaced = ds) rest := by
  cases kind with
  | constants => exact constantLine_complete h hc
  | variables_ => exact variableLine_complete h hc

theorem lines_sound {kind : Section} {c : Cursor} {r : Reading (List Declaration) c} (h : kind.lines c = .ok r) :
    (c.tokens = .dedent :: r.next.tokens ∧ r.value = []) ∨
      ∃ ts, c.tokens = ts ++ .dedent :: r.next.tokens ∧ IsLines kind ts (r.value.map Declaration.unplaced) := by
  rw [Section.lines] at h
  split at h
  · rename_i dedent hdedent
    cases h
    exact .inl ⟨Cursor.tokens_of_eat? hdedent, rfl⟩
  · split at h
    · cases h
    · obtain ⟨first, hfirst, h⟩ := bind_eq_ok.mp h
      obtain ⟨rest, hrest, h⟩ := bind_eq_ok.mp h
      cases h
      have hshorter := first.shorter
      obtain ⟨ts, hts, hline⟩ := line_sound hfirst
      rcases lines_sound hrest with ⟨hdedent, hnone⟩ | ⟨us, hus, hlines⟩
      · refine .inr ⟨ts, by rw [hts, hdedent]; rfl, ?_⟩
        simp only [Reading.andThen, hnone, List.append_nil]
        exact .one hline
      · refine .inr ⟨ts ++ us, by rw [hts, hus]; simp [Reading.andThen], ?_⟩
        simp only [Reading.andThen, List.map_append]
        exact .more hline hlines
termination_by c.ahead.length
decreasing_by exact hshorter

theorem head_of_isLine {kind : Section} {ts : List Token} {ds : List Declaration} (h : IsLine kind ts ds) :
    ∃ t us, ts = t :: us ∧ t ≠ .dedent ∧ t ≠ .newline := by
  cases h with
  | constants h => cases h <;> exact ⟨_, _, rfl, nofun, nofun⟩
  | typed hnames =>
    obtain ⟨name, us, rfl⟩ := head_of_isNames hnames
    exact ⟨_, _, rfl, nofun, nofun⟩
  | _ => exact ⟨_, _, rfl, nofun, nofun⟩

/-- A line that is there is read, and the lines behind it. -/
theorem lines_of_line {kind : Section} {ts rest : List Token} {ds es : List Declaration} (h : IsLine kind ts ds)
    (hc : c.tokens = ts ++ rest) {last : List Token} (hmore : ∀ {d : Cursor}, d.tokens = rest →
      Gives (kind.lines d) (fun fs => fs.map Declaration.unplaced = es) last) :
    Gives (kind.lines c) (fun fs => fs.map Declaration.unplaced = ds ++ es) last := by
  have hread := line_complete h hc
  obtain ⟨t, us, rfl, ht, -⟩ := head_of_isLine h
  have hdedent : c.eat? .dedent = none := by
    rw [Cursor.eat?_eq_none_iff, hc]
    exact fun hhead => ht (Option.some.inj hhead)
  have hahead : c.ahead.isEmpty = false := by
    rw [Cursor.isEmpty_ahead, hc]
    rfl
  rw [Section.lines, hdedent]
  simp only [hahead]
  refine hread.bind fun first hfirst hnext => ?_
  refine (hmore hnext).bind fun more hmore hnext => gives_pure ?_ hnext
  rw [← hfirst, ← hmore, ← List.map_append]
  rfl

theorem lines_end {kind : Section} {rest : List Token} (hc : c.tokens = .dedent :: rest) :
    Gives (kind.lines c) (fun ds => ds.map Declaration.unplaced = []) rest := by
  obtain ⟨dedent, hdedent, hnext⟩ := Cursor.eat?_of_tokens hc
  rw [Section.lines, hdedent]
  exact ⟨_, rfl, rfl, hnext⟩

theorem lines_complete {kind : Section} {ts : List Token} {ds : List Declaration} (h : IsLines kind ts ds) :
    ∀ {c : Cursor} {rest : List Token}, c.tokens = ts ++ .dedent :: rest →
      Gives (kind.lines c) (fun es => es.map Declaration.unplaced = ds) rest := by
  induction h with
  | one h =>
    rename_i ts ds
    intro c rest hc
    have hlast := lines_of_line h hc (fun hd => lines_end hd)
    rwa [List.append_nil] at hlast
  | more h hs ih =>
    intro c rest hc
    rw [List.append_assoc] at hc
    exact lines_of_line h hc (fun hd => ih hd)

/-- The only use of the condition is that the first line of a block is there. -/
theorem read_sound {kind : Section} {r : Reading (List Declaration) c} (h : kind.read c = .ok r)
    (hblocks : ¬ [.indent, .dedent] <:+: c.tokens) :
    ∃ ts, c.tokens = ts ++ r.next.tokens ∧ IsSection kind (word kind :: ts) (r.value.map Declaration.unplaced) := by
  unfold Section.read at h
  split at h
  · obtain ⟨ts, hts, hline⟩ := line_sound h
    exact ⟨ts, hts, .line hline⟩
  · rename_i lineEnd hlineEnd
    obtain ⟨indent, hindent, h⟩ := bind_eq_ok.mp h
    obtain ⟨all, hall, h⟩ := bind_eq_ok.mp h
    cases h
    have hc : c.tokens = .newline :: .indent :: indent.next.tokens := by
      rw [Cursor.tokens_of_eat? hlineEnd, Cursor.tokens_of_expect hindent]
    rcases lines_sound hall with ⟨hdedent, -⟩ | ⟨ts, hts, hlines⟩
    · refine absurd ⟨[.newline], all.next.tokens, ?_⟩ hblocks
      rw [hc, hdedent]
      rfl
    · refine ⟨_, ?_, .block hlines⟩
      rw [hc, hts]
      simp [Reading.andThen]

theorem read_complete {kind : Section} {ts rest : List Token} {ds : List Declaration}
    (h : IsSection kind (word kind :: ts) ds) (hc : c.tokens = ts ++ rest) :
    Gives (kind.read c) (fun es => es.map Declaration.unplaced = ds) rest := by
  cases h with
  | line h =>
    have hread := line_complete h hc
    obtain ⟨t, us, rfl, -, ht⟩ := head_of_isLine h
    have hlineEnd : c.eat? .newline = none := by
      rw [Cursor.eat?_eq_none_iff, hc]
      exact fun hhead => ht (Option.some.inj hhead)
    rw [Section.read, hlineEnd]
    exact hread
  | block h =>
    rename_i ts
    have hc : c.tokens = .newline :: .indent :: (ts ++ .dedent :: rest) := by simpa using hc
    obtain ⟨lineEnd, hlineEnd, hnext⟩ := Cursor.eat?_of_tokens hc
    rw [Section.read, hlineEnd]
    refine (Cursor.gives_expect hnext).bind fun indent _ hnext => ?_
    exact (lines_complete h hnext).bind fun all hall hnext => gives_pure hall hnext

theorem tokens_of_section? {r : Reading Section c} (h : section? c = some r) :
    c.tokens = word r.value :: r.next.tokens := by
  unfold section? at h
  split at h
  · rename_i constants hconstants
    cases h
    exact Cursor.tokens_of_eat? hconstants
  · obtain ⟨rest, hrest, rfl⟩ := Option.map_eq_some_iff.mp h
    exact Cursor.tokens_of_eat? hrest

theorem section?_of_tokens {kind : Section} {ts : List Token} (hc : c.tokens = word kind :: ts) :
    ∃ r, section? c = some r ∧ r.value = kind ∧ r.next.tokens = ts := by
  obtain ⟨r, hr, hnext⟩ := Cursor.eat?_of_tokens hc
  refine ⟨r.map fun _ => kind, ?_, rfl, hnext⟩
  cases kind with
  | constants =>
    have hconstants : c.eat? (.keyword .constants) = some r := hr
    rw [section?, hconstants]
  | variables_ =>
    have hconstants : c.eat? (.keyword .constants) = none := by
      rw [Cursor.eat?_eq_none_iff, hc]
      nofun
    have hvariables : c.eat? (.keyword .variables_) = some r := hr
    rw [section?, hconstants, hvariables]
    rfl

theorem section?_eq_none (h : ∀ kind : Section, c.tokens.head? ≠ some (word kind)) : section? c = none := by
  cases hsection : section? c with
  | none => rfl
  | some r =>
    rw [tokens_of_section? hsection] at h
    exact absurd rfl (h r.value)

end Offside.Parse
