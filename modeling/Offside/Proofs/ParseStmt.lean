import Offside.Proofs.ParseExpr

/-!
# Reading statements

The readers of calls, assignments, blocks and statements take what the grammar derives, and read what it derives.
The only production that a reader has to guess at is that of a call: an opening parenthesis behind the name may
enclose all arguments or belong to the first one. Both readings of a line that has both agree.
-/

namespace Offside.Parse

open Grammar

variable {c : Cursor}

/-! ### Arguments -/

theorem toExpr_of_target? {e : Expr} {target : Target} (h : e.target? = some target) : target.toExpr = e := by
  cases e with
  | named name => cases h; rfl
  | element name index => cases h; rfl
  | _ => cases h

theorem target?_toExpr (target : Target) : target.toExpr.target? = some target := by
  cases target <;> rfl

theorem argument_sound {r : Reading Argument c} (h : argument c = .ok r) :
    ∃ ts, c.tokens = ts ++ r.next.tokens ∧ IsArgument ts r.value := by
  unfold argument at h
  split at h
  · cases h
  · rename_i first hfirst
    split at h
    · rename_i hvar
      obtain ⟨value, hvalue, h⟩ := bind_eq_ok.mp h
      obtain ⟨ts, hts, hcomparison⟩ := comparison_sound hvalue
      have hc := Cursor.tokens_of_next? hfirst
      rw [hvar, hts] at hc
      split at h
      · rename_i target htarget
        cases h
        rw [← toExpr_of_target? htarget] at hcomparison
        exact ⟨_, hc, .place hcomparison⟩
      · cases h
    · obtain ⟨value, hvalue, h⟩ := bind_eq_ok.mp h
      cases h
      obtain ⟨ts, hts, hcomparison⟩ := comparison_sound hvalue
      exact ⟨ts, hts, .value hcomparison⟩

theorem arguments_sound {c : Cursor} {r : Reading (List Argument) c} (h : arguments c = .ok r) :
    ∃ ts, c.tokens = ts ++ r.next.tokens ∧ IsArguments ts r.value := by
  rw [arguments] at h
  obtain ⟨first, hfirst, h⟩ := bind_eq_ok.mp h
  obtain ⟨ts, hts, hargument⟩ := argument_sound hfirst
  split at h
  · cases h
    exact ⟨ts, hts, .one hargument⟩
  · rename_i comma hcomma
    obtain ⟨rest, hrest, h⟩ := bind_eq_ok.mp h
    cases h
    have hshorter := Nat.lt_trans comma.shorter first.shorter
    obtain ⟨us, hus, harguments⟩ := arguments_sound hrest
    refine ⟨_, ?_, .more hargument harguments⟩
    rw [hts, Cursor.tokens_of_eat? hcomma, hus]
    simp [Reading.andThen]
termination_by c.ahead.length
decreasing_by exact hshorter

theorem bareArguments_sound {r : Reading (List Argument) c} (h : bareArguments c = .ok r) :
    ∃ ts, c.tokens = ts ++ .newline :: r.next.tokens ∧ IsCall ts r.value := by
  unfold bareArguments at h
  split at h
  · rename_i lineEnd hlineEnd
    cases h
    exact ⟨[], Cursor.tokens_of_eat? hlineEnd, .none⟩
  · obtain ⟨args, hargs, h⟩ := bind_eq_ok.mp h
    obtain ⟨lineEnd, hlineEnd, h⟩ := bind_eq_ok.mp h
    cases h
    obtain ⟨ts, hts, harguments⟩ := arguments_sound hargs
    rw [Cursor.tokens_of_expect hlineEnd] at hts
    exact ⟨ts, hts, .bare harguments⟩

/-- What stands between the parentheses, with the closing one. -/
theorem enclosedArguments_sound {r : Reading (List Argument) c} (h : enclosedArguments c = .ok r) :
    ∃ ts, c.tokens = ts ++ r.next.tokens ∧ IsCall (.mark .openParen :: ts) r.value := by
  unfold enclosedArguments at h
  split at h
  · rename_i close hclose
    cases h
    exact ⟨[.mark .closeParen], Cursor.tokens_of_eat? hclose, .enclosedNone⟩
  · obtain ⟨args, hargs, h⟩ := bind_eq_ok.mp h
    obtain ⟨close, hclose, h⟩ := bind_eq_ok.mp h
    cases h
    obtain ⟨ts, hts, harguments⟩ := arguments_sound hargs
    refine ⟨ts ++ [Token.mark .closeParen], ?_, .enclosed harguments⟩
    rw [hts, Cursor.tokens_of_expect hclose]
    simp [Reading.andThen]

theorem callArguments_sound {r : Reading (List Argument) c} (h : callArguments c = .ok r) :
    ∃ ts, c.tokens = ts ++ .newline :: r.next.tokens ∧ IsCall ts r.value := by
  unfold callArguments at h
  split at h
  · exact bareArguments_sound h
  · rename_i opening hopening
    split at h
    · rename_i args hargs
      split at h
      · rename_i lineEnd hlineEnd
        cases h
        obtain ⟨ts, hts, hcall⟩ := enclosedArguments_sound hargs
        refine ⟨_, ?_, hcall⟩
        rw [Cursor.tokens_of_eat? hopening, hts, Cursor.tokens_of_eat? hlineEnd]
        rfl
      · exact bareArguments_sound h
    · split at h
      · rename_i args hargs
        cases h
        exact bareArguments_sound hargs
      · cases h

/-! ### Completeness of arguments -/

theorem head_of_isComparison {ts : List Token} {e : Expr} (h : IsComparison ts e) :
    ∃ t us, ts = t :: us ∧ t ≠ .keyword .var ∧ t ≠ .mark .closeParen ∧ t ≠ .newline := by
  cases h with
  | ofSum h =>
    obtain ⟨t, us, hts, -, ht⟩ := head_of_isExpr h
    exact ⟨t, us, hts, ht⟩
  | compare hl =>
    obtain ⟨t, us, rfl, -, ht⟩ := head_of_isExpr hl
    exact ⟨t, _, rfl, ht⟩

theorem argument_complete {ts rest : List Token} {a : Argument} (h : IsArgument ts a) (hc : c.tokens = ts ++ rest)
    (hrest : ∀ t ∈ rest.head?, endsComparison t = true) : Gives (argument c) (· = a) rest := by
  cases h with
  | value h =>
    have hread := comparison_complete h hc hrest
    obtain ⟨t, us, rfl, hvar, -⟩ := head_of_isComparison h
    obtain ⟨first, hfirst, htoken, -⟩ := Cursor.next?_of_tokens hc
    rw [argument, hfirst]
    simp only
    rw [htoken, if_neg hvar]
    exact hread.bind fun r hr hnext => gives_pure (by rw [← hr]; rfl) hnext
  | place h =>
    obtain ⟨first, hfirst, htoken, hnext⟩ := Cursor.next?_of_tokens hc
    rw [argument, hfirst]
    simp only
    rw [htoken, if_pos rfl]
    refine (comparison_complete h hnext hrest).bind fun r hr hnext => ?_
    simp only [hr, target?_toExpr]
    exact gives_pure rfl hnext

/-- Whether a token ends a list of arguments. -/
def endsArguments (t : Token) : Bool :=
  endsComparison t && t ≠ .mark .comma

theorem arguments_complete {ts : List Token} {as : List Argument} (h : IsArguments ts as) :
    ∀ {c : Cursor} {rest : List Token}, c.tokens = ts ++ rest → (∀ t ∈ rest.head?, endsArguments t = true) →
      Gives (arguments c) (· = as) rest := by
  induction h with
  | one h =>
    intro c rest hc hrest
    have hrest' : ∀ t ∈ rest.head?, endsComparison t = true ∧ t ≠ .mark .comma := fun t ht => by
      simpa [endsArguments] using hrest t ht
    rw [arguments]
    refine (argument_complete h hc fun t ht => (hrest' t ht).1).bind fun r hr hnext => ?_
    have hcomma : r.next.eat? (.mark .comma) = none := by
      rw [Cursor.eat?_eq_none_iff, hnext]
      exact fun hhead => (hrest' _ hhead).2 rfl
    rw [hcomma]
    exact gives_pure (by rw [← hr]; rfl) hnext
  | more h hs ih =>
    rename_i ts us a as
    intro c rest hc hrest
    have hc : c.tokens = ts ++ .mark .comma :: (us ++ rest) := by simpa using hc
    rw [arguments]
    refine (argument_complete h hc (by rintro t ⟨⟩; rfl)).bind fun r hr hnext => ?_
    obtain ⟨comma, hcomma, hnext⟩ := Cursor.eat?_of_tokens hnext
    rw [hcomma]
    refine (ih hnext hrest).bind fun s hs hnext => ?_
    exact gives_pure (by rw [hr, hs]; rfl) hnext

theorem head_of_isArguments {ts : List Token} {as : List Argument} (h : IsArguments ts as) :
    ∃ t us, ts = t :: us ∧ t ≠ .mark .closeParen ∧ t ≠ .newline := by
  have head_of_isArgument : ∀ {ts : List Token} {a : Argument}, IsArgument ts a →
      ∃ t us, ts = t :: us ∧ t ≠ .mark .closeParen ∧ t ≠ .newline := by
    intro ts a h
    cases h with
    | value h =>
      obtain ⟨t, us, hts, -, ht⟩ := head_of_isComparison h
      exact ⟨t, us, hts, ht⟩
    | place h => exact ⟨_, _, rfl, nofun, nofun⟩
  cases h with
  | one h => exact head_of_isArgument h
  | more h =>
    obtain ⟨t, us, rfl, ht⟩ := head_of_isArgument h
    exact ⟨t, _, rfl, ht⟩

theorem bareArguments_complete {ts rest : List Token} {as : List Argument} (h : IsArguments ts as)
    (hc : c.tokens = ts ++ .newline :: rest) : Gives (bareArguments c) (· = as) rest := by
  have hread := arguments_complete h hc (by rintro t ⟨⟩; rfl)
  obtain ⟨t, us, rfl, -, ht⟩ := head_of_isArguments h
  have hlineEnd : c.eat? .newline = none := by
    rw [Cursor.eat?_eq_none_iff, hc]
    exact fun hhead => ht (Option.some.inj hhead)
  rw [bareArguments, hlineEnd]
  refine hread.bind fun r hr hnext => ?_
  exact (Cursor.gives_expect hnext).bind fun lineEnd _ hnext => gives_pure hr hnext

/-! ### Calls -/

/-- An opening parenthesis at the front of some tokens has its partner among them; between the two is a sum. If
nothing follows, the sum is all that the tokens stand for. -/
def EnclosedFront {α : Type} (ts : List Token) (a : α) (ofSum : Expr → α) : Prop :=
  ∀ us, ts = .mark .openParen :: us → ∃ inner rest e, us = inner ++ .mark .closeParen :: rest ∧
    IsExpr .sum inner e ∧ (rest = [] → a = ofSum e) ∧ rest.head? ≠ some .newline

/-- More tokens behind do not change the front. -/
theorem EnclosedFront.extend {α β : Type} {ts vs : List Token} {a : α} {b : β} {f : Expr → α} {g : Expr → β}
    {t : Token} (h : EnclosedFront ts a f) (hts : ts ≠ []) (ht : t ≠ .newline) :
    EnclosedFront (ts ++ t :: vs) b g := by
  intro us hus
  obtain ⟨first, more, rfl⟩ := List.exists_cons_of_ne_nil hts
  rw [List.cons_append, List.cons.injEq] at hus
  obtain ⟨inner, rest, e, rfl, he, -, hhead⟩ := h more (by rw [hus.1])
  refine ⟨inner, rest ++ t :: vs, e, by rw [← hus.2]; simp, he, by simp, ?_⟩
  cases rest with
  | nil => exact fun h => ht (Option.some.inj h)
  | cons u more => exact hhead

theorem enclosedFront_of_isExpr {level : Level} {ts : List Token} {e : Expr} (h : IsExpr level ts e) :
    EnclosedFront ts e id := by
  induction h with
  | literal hl =>
    rintro us ⟨⟩
    cases hl
  | least => nofun
  | named name => nofun
  | element name h ih => nofun
  | negate h ih => nofun
  | enclosed h ih =>
    rintro us ⟨⟩
    exact ⟨_, [], _, rfl, h, fun _ => rfl, nofun⟩
  | ofFactor h ih => exact ih
  | ofProduct h ih => exact ih
  | times hl ht hr ihl ihr =>
    obtain ⟨u, us, hts, -⟩ := head_of_isExpr hl
    refine ihl.extend (by rw [hts]; nofun) ?_
    rintro rfl
    cases ht
  | plus hl ht hr ihl ihr =>
    obtain ⟨u, us, hts, -⟩ := head_of_isExpr hl
    refine ihl.extend (by rw [hts]; nofun) ?_
    rintro rfl
    cases ht

theorem enclosedFront_of_isArgument {ts : List Token} {a : Argument} (h : IsArgument ts a) :
    EnclosedFront ts a fun e => ⟨e, false⟩ := by
  cases h with
  | place h => nofun
  | value h =>
    cases h with
    | ofSum h =>
      intro us hus
      obtain ⟨inner, rest, e, hsplit, he, hlast, hhead⟩ := enclosedFront_of_isExpr h us hus
      exact ⟨inner, rest, e, hsplit, he, fun hrest => by rw [hlast hrest]; rfl, hhead⟩
    | compare hl ht hr =>
      obtain ⟨u, us, hts, -⟩ := head_of_isExpr hl
      refine (enclosedFront_of_isExpr hl).extend (by rw [hts]; nofun) ?_
      rintro rfl
      cases ht

theorem enclosedFront_of_isArguments {ts : List Token} {as : List Argument} (h : IsArguments ts as) :
    EnclosedFront ts as fun e => [⟨e, false⟩] := by
  cases h with
  | one h =>
    intro us hus
    obtain ⟨inner, rest, e, hsplit, he, hlast, hhead⟩ := enclosedFront_of_isArgument h us hus
    exact ⟨inner, rest, e, hsplit, he, fun hrest => by rw [hlast hrest], hhead⟩
  | more h hs =>
    obtain ⟨u, us, hts, -⟩ := head_of_isArguments (.one h)
    exact (enclosedFront_of_isArgument h).extend (by rw [hts]; nofun) nofun

theorem enclosedArguments_complete {ts rest : List Token} {as : List Argument} (h : IsArguments ts as)
    (hc : c.tokens = ts ++ .mark .closeParen :: rest) : Gives (enclosedArguments c) (· = as) rest := by
  have hread := arguments_complete h hc (by rintro t ⟨⟩; rfl)
  obtain ⟨t, us, rfl, ht, -⟩ := head_of_isArguments h
  have hclose : c.eat? (.mark .closeParen) = none := by
    rw [Cursor.eat?_eq_none_iff, hc]
    exact fun hhead => ht (Option.some.inj hhead)
  rw [enclosedArguments, hclose]
  refine hread.bind fun r hr hnext => ?_
  exact (Cursor.gives_expect hnext).bind fun close _ hnext => gives_pure hr hnext

/-- A call whose arguments are in parentheses, in front of the end of the line. -/
theorem callArguments_enclosed {rest : List Token} {as : List Argument} {opening : Reading Lexeme c}
    (hopening : c.eat? (.mark .openParen) = some opening)
    (h : Gives (enclosedArguments opening.next) (· = as) (.newline :: rest)) :
    Gives (callArguments c) (· = as) rest := by
  obtain ⟨args, hargs, hvalue, hnext⟩ := h
  obtain ⟨lineEnd, hlineEnd, hrest⟩ := Cursor.eat?_of_tokens hnext
  rw [callArguments, hopening]
  simp only [hargs, hlineEnd]
  exact ⟨_, rfl, hvalue, hrest⟩

/-- Bare arguments that start with a parenthesis: if the partner ends the line, then the reading in parentheses
comes first and gives the same; otherwise it fails and the bare one is taken. -/
theorem callArguments_bare {ts rest : List Token} {as : List Argument} (h : IsArguments ts as)
    (hc : c.tokens = ts ++ .newline :: rest) : Gives (callArguments c) (· = as) rest := by
  have hbare := bareArguments_complete h hc
  cases hopening : c.eat? (.mark .openParen) with
  | none =>
    rw [callArguments, hopening]
    exact hbare
  | some opening =>
    have hfront := Cursor.tokens_of_eat? hopening
    obtain ⟨t, us, rfl, -⟩ := head_of_isArguments h
    rw [hc, List.cons_append, List.cons.injEq] at hfront
    obtain ⟨rfl, hfront⟩ := hfront
    obtain ⟨inner, more, e, rfl, he, hlast, hhead⟩ := enclosedFront_of_isArguments h us rfl
    have hnext : opening.next.tokens = inner ++ .mark .closeParen :: (more ++ .newline :: rest) := by
      rw [← hfront]
      simp
    have henclosed := enclosedArguments_complete (.one (.value (.ofSum he))) hnext
    cases more with
    | nil =>
      rw [hlast rfl]
      exact callArguments_enclosed hopening henclosed
    | cons u more =>
      obtain ⟨args, hargs, -, hmore⟩ := henclosed
      have hlineEnd : args.next.eat? .newline = none := by
        rw [Cursor.eat?_eq_none_iff, hmore]
        exact hhead
      rw [callArguments, hopening]
      simp only [hargs, hlineEnd]
      exact hbare

theorem callArguments_complete {ts rest : List Token} {as : List Argument} (h : IsCall ts as)
    (hc : c.tokens = ts ++ .newline :: rest) : Gives (callArguments c) (· = as) rest := by
  cases h with
  | none =>
    have hopening : c.eat? (.mark .openParen) = none := by
      rw [Cursor.eat?_eq_none_iff, hc]
      nofun
    obtain ⟨lineEnd, hlineEnd, hrest⟩ := Cursor.eat?_of_tokens hc
    rw [callArguments, hopening]
    simp only
    rw [bareArguments, hlineEnd]
    exact ⟨_, rfl, rfl, hrest⟩
  | bare h => exact callArguments_bare h hc
  | enclosedNone =>
    have hc : c.tokens = .mark .openParen :: .mark .closeParen :: .newline :: rest := hc
    obtain ⟨opening, hopening, hnext⟩ := Cursor.eat?_of_tokens hc
    obtain ⟨close, hclose, hnext⟩ := Cursor.eat?_of_tokens hnext
    refine callArguments_enclosed hopening ?_
    rw [enclosedArguments, hclose]
    exact ⟨_, rfl, rfl, hnext⟩
  | enclosed h =>
    rename_i ts
    have hc : c.tokens = .mark .openParen :: (ts ++ .mark .closeParen :: .newline :: rest) := by simpa using hc
    obtain ⟨opening, hopening, hnext⟩ := Cursor.eat?_of_tokens hc
    exact callArguments_enclosed hopening (enclosedArguments_complete h hnext)

/-! ### Assignments and the heads of blocks -/

theorem assignedValue_sound {r : Reading Expr c} (h : assignedValue c = .ok r) :
    ∃ ts, c.tokens = .mark .assign :: ts ++ .newline :: r.next.tokens ∧ IsComparison ts r.value := by
  obtain ⟨mark, hmark, h⟩ := bind_eq_ok.mp h
  obtain ⟨value, hvalue, h⟩ := bind_eq_ok.mp h
  obtain ⟨lineEnd, hlineEnd, h⟩ := bind_eq_ok.mp h
  cases h
  obtain ⟨ts, hts, hcomparison⟩ := comparison_sound hvalue
  refine ⟨ts, ?_, hcomparison⟩
  rw [Cursor.tokens_of_expect hmark, hts, Cursor.tokens_of_expect hlineEnd]
  rfl

theorem assignedValue_complete {ts rest : List Token} {e : Expr} (h : IsComparison ts e)
    (hc : c.tokens = .mark .assign :: (ts ++ .newline :: rest)) : Gives (assignedValue c) (· = e) rest := by
  refine (Cursor.gives_expect hc).bind fun mark _ hnext => ?_
  refine (comparison_complete h hnext (by rintro t ⟨⟩; rfl)).bind fun r hr hnext => ?_
  exact (Cursor.gives_expect hnext).bind fun lineEnd _ hnext => gives_pure hr hnext

theorem assignment_sound {name : String} {r : Reading (Target × Expr) c} (h : assignment name c = .ok r) :
    ∃ ts us, .name name :: c.tokens = ts ++ .mark .assign :: us ++ .newline :: r.next.tokens ∧
      IsTarget ts r.value.1 ∧ r.value.1.name = name ∧ IsComparison us r.value.2 := by
  obtain ⟨place, hplace, h⟩ := bind_eq_ok.mp h
  unfold target at hplace
  split at hplace
  · cases hplace
    obtain ⟨value, hvalue, h⟩ := bind_eq_ok.mp h
    cases h
    obtain ⟨us, hus, hcomparison⟩ := assignedValue_sound hvalue
    refine ⟨_, us, ?_, .named name, rfl, hcomparison⟩
    rw [hus]
    rfl
  · rename_i bracket hbracket
    obtain ⟨index, hindex, hplace⟩ := bind_eq_ok.mp hplace
    obtain ⟨close, hclose, hplace⟩ := bind_eq_ok.mp hplace
    cases hplace
    obtain ⟨value, hvalue, h⟩ := bind_eq_ok.mp h
    cases h
    obtain ⟨ts, hts, hexpr⟩ := sum_sound hindex
    obtain ⟨us, hus, hcomparison⟩ := assignedValue_sound hvalue
    refine ⟨_, us, ?_, .element name hexpr, rfl, hcomparison⟩
    have hus : close.next.tokens = .mark .assign :: us ++ .newline :: value.next.tokens := hus
    rw [Cursor.tokens_of_eat? hbracket, hts, Cursor.tokens_of_expect hclose, hus]
    simp [Reading.andThen]

theorem target_element (name : String) {ts rest : List Token} {index : Expr} (h : IsExpr .sum ts index)
    (hc : c.tokens = .mark .openBracket :: (ts ++ .mark .closeBracket :: rest)) :
    ∃ r : Reading Unit c, target name c = .ok (.element name index, some r) ∧ r.next.tokens = rest := by
  obtain ⟨bracket, hbracket, hnext⟩ := Cursor.eat?_of_tokens hc
  obtain ⟨r, hr, rfl, hnext⟩ := sum_complete h hnext (by rintro t ⟨⟩; rfl)
  have hexpect : Gives (r.next.expectMark .closeBracket .closeIndex) _ rest := Cursor.gives_expect hnext
  obtain ⟨close, hclose, -, hnext⟩ := hexpect
  refine ⟨(bracket.andThen r ()).andThen close (), ?_, hnext⟩
  rw [target, hbracket]
  exact bind_eq_ok.mpr ⟨r, hr, bind_eq_ok.mpr ⟨close, hclose, rfl⟩⟩

theorem assignment_complete {ts us rest : List Token} {target : Target} {e : Expr} (h : IsTarget ts target)
    (he : IsComparison us e) (hc : .name target.name :: c.tokens = ts ++ .mark .assign :: (us ++ .newline :: rest)) :
    Gives (assignment target.name c) (· = (target, e)) rest := by
  cases h with
  | named name =>
    have hc : c.tokens = .mark .assign :: (us ++ .newline :: rest) := (List.cons.inj hc).2
    have hbracket : c.eat? (.mark .openBracket) = none := by
      rw [Cursor.eat?_eq_none_iff, hc]
      nofun
    rw [assignment, Parse.target, hbracket]
    refine (assignedValue_complete he hc).bind fun r hr hnext => ?_
    exact gives_pure (by rw [← hr]; rfl) hnext
  | element name hindex =>
    rename_i ts index
    have hc : c.tokens = .mark .openBracket :: (ts ++ .mark .closeBracket :: .mark .assign ::
        (us ++ .newline :: rest)) := by
      simpa using (List.cons.inj hc).2
    obtain ⟨place, hplace, hnext⟩ := target_element name hindex hc
    rw [assignment, Target.name, hplace]
    refine (assignedValue_complete he hnext).bind fun r hr hnext => ?_
    exact gives_pure (by rw [← hr]; rfl) hnext

theorem countHead_sound {r : Reading (String × Expr × Expr) c} (h : countHead c = .ok r) :
    ∃ ts us, c.tokens = .name r.value.1 :: .keyword .from_ :: ts ++ .keyword .to_ :: us ++ r.next.tokens ∧
      IsExpr .sum ts r.value.2.1 ∧ IsExpr .sum us r.value.2.2 := by
  obtain ⟨counter, hcounter, h⟩ := bind_eq_ok.mp h
  obtain ⟨from_, hfrom, h⟩ := bind_eq_ok.mp h
  obtain ⟨first, hfirst, h⟩ := bind_eq_ok.mp h
  obtain ⟨to_, hto, h⟩ := bind_eq_ok.mp h
  obtain ⟨last, hlast, h⟩ := bind_eq_ok.mp h
  cases h
  obtain ⟨ts, hts, hf⟩ := sum_sound hfirst
  obtain ⟨us, hus, hl⟩ := sum_sound hlast
  refine ⟨ts, us, ?_, hf, hl⟩
  rw [Cursor.tokens_of_expectName hcounter, Cursor.tokens_of_expect hfrom, hts, Cursor.tokens_of_expect hto, hus]
  simp [Reading.andThen]

theorem countHead_complete {counter : String} {ts us rest : List Token} {first last : Expr}
    (hfirst : IsExpr .sum ts first) (hlast : IsExpr .sum us last)
    (hc : c.tokens = .name counter :: .keyword .from_ :: (ts ++ .keyword .to_ :: (us ++ rest)))
    (hrest : ∀ t ∈ rest.head?, endsSum t = true) :
    Gives (countHead c) (· = (counter, first, last)) rest := by
  refine (Cursor.gives_expectName hc).bind fun name hname hnext => ?_
  refine (Cursor.gives_expect hnext).bind fun from_ _ hnext => ?_
  refine (sum_complete hfirst hnext (by rintro t ⟨⟩; rfl)).bind fun f hf hnext => ?_
  refine (Cursor.gives_expect hnext).bind fun to_ _ hnext => ?_
  refine (sum_complete hlast hnext hrest).bind fun l hl hnext => ?_
  exact gives_pure (by rw [hname, hf, hl]; rfl) hnext

theorem branchHead_sound {r : Reading Expr c} (h : branchHead c = .ok r) :
    ∃ ts, c.tokens = ts ++ .keyword .then_ :: r.next.tokens ∧ IsComparison ts r.value := by
  obtain ⟨condition, hcondition, h⟩ := bind_eq_ok.mp h
  obtain ⟨then_, hthen, h⟩ := bind_eq_ok.mp h
  cases h
  obtain ⟨ts, hts, hcomparison⟩ := comparison_sound hcondition
  rw [Cursor.tokens_of_expect hthen] at hts
  exact ⟨ts, hts, hcomparison⟩

theorem branchHead_complete {ts rest : List Token} {e : Expr} (h : IsComparison ts e)
    (hc : c.tokens = ts ++ .keyword .then_ :: rest) : Gives (branchHead c) (· = e) rest := by
  refine (comparison_complete h hc (by rintro t ⟨⟩; rfl)).bind fun r hr hnext => ?_
  exact (Cursor.gives_expect hnext).bind fun then_ _ hnext => gives_pure hr hnext

theorem untilHead_sound {r : Reading Expr c} (h : untilHead c = .ok r) :
    ∃ ts, c.tokens = .keyword .until_ :: ts ++ r.next.tokens ∧ IsComparison ts r.value := by
  obtain ⟨until_, huntil, h⟩ := bind_eq_ok.mp h
  obtain ⟨condition, hcondition, h⟩ := bind_eq_ok.mp h
  cases h
  obtain ⟨ts, hts, hcomparison⟩ := comparison_sound hcondition
  refine ⟨ts, ?_, hcomparison⟩
  rw [Cursor.tokens_of_expect huntil, hts]
  rfl

theorem untilHead_complete {ts rest : List Token} {e : Expr} (h : IsComparison ts e)
    (hc : c.tokens = .keyword .until_ :: (ts ++ rest)) (hrest : ∀ t ∈ rest.head?, endsComparison t = true) :
    Gives (untilHead c) (· = e) rest := by
  refine (Cursor.gives_expect hc).bind fun until_ _ hnext => ?_
  exact (comparison_complete h hnext hrest).bind fun r hr hnext => gives_pure hr hnext

theorem openBlock_sound {r : Reading Unit c} (h : openBlock c = .ok r) :
    c.tokens = .newline :: .indent :: r.next.tokens := by
  obtain ⟨lineEnd, hlineEnd, h⟩ := bind_eq_ok.mp h
  obtain ⟨indent, hindent, h⟩ := bind_eq_ok.mp h
  cases h
  rw [Cursor.tokens_of_expect hlineEnd, Cursor.tokens_of_expect hindent]
  rfl

theorem openBlock_complete {rest : List Token} (hc : c.tokens = .newline :: .indent :: rest) :
    Gives (openBlock c) (fun _ => True) rest := by
  refine (Cursor.gives_expect hc).bind fun lineEnd _ hnext => ?_
  exact (Cursor.gives_expect hnext).bind fun indent _ hnext => gives_pure trivial hnext

/-! ### Soundness of statements -/

/-- What the readers of statements have to satisfy at a cursor. -/
structure StmtSound (defined : List String) (c : Cursor) : Prop where
  statement : ∀ r, statement defined c = .ok r →
    ∃ ts, c.tokens = ts ++ r.next.tokens ∧ IsStmt (isCallable defined) ts r.value.unplaced
  chain : ∀ r, chain defined c = .ok r →
    ∃ ts, c.tokens = ts ++ r.next.tokens ∧ IsChain (isCallable defined) ts r.value.unplaced
  block : ∀ r, block defined c = .ok r →
    ∃ ts, c.tokens = ts ++ r.next.tokens ∧ IsBlock (isCallable defined) ts (Stmt.unplacedAll r.value)
  statements : ∀ ending r, statements defined ending c = .ok r →
    ∃ ts, c.tokens = ts ++ .dedent :: r.next.tokens ∧
      IsStmts (isCallable defined) ts (Stmt.unplacedAll r.value)

section

variable {defined : List String}
  (ih : ∀ d : Cursor, d.ahead.length < c.ahead.length → StmtSound defined d)
include ih

theorem statement_sound_step {r : Reading Stmt c} (h : statement defined c = .ok r) :
    ∃ ts, c.tokens = ts ++ r.next.tokens ∧ IsStmt (isCallable defined) ts r.value.unplaced := by
  rw [statement] at h
  split at h
  · cases h
  · rename_i first hfirst
    have hc := Cursor.tokens_of_next? hfirst
    have hshorter := first.shorter
    split at h
    · rename_i htoken
      obtain ⟨links, hlinks, h⟩ := bind_eq_ok.mp h
      cases h
      obtain ⟨ts, hts, hchain⟩ := (ih _ hshorter).chain _ hlinks
      refine ⟨_, ?_, .branch hchain⟩
      rw [hc, htoken, hts]
      rfl
    · rename_i htoken
      obtain ⟨head, hhead, h⟩ := bind_eq_ok.mp h
      obtain ⟨body, hbody, h⟩ := bind_eq_ok.mp h
      cases h
      obtain ⟨ts, us, htokens, hf, hl⟩ := countHead_sound hhead
      obtain ⟨vs, hvs, hblock⟩ := (ih _ (Nat.lt_trans head.shorter hshorter)).block _ hbody
      refine ⟨_, ?_, .count head.value.1 hf hl hblock⟩
      rw [hc, htoken, htokens, hvs]
      simp [Reading.andThen]
    · rename_i htoken
      obtain ⟨condition, hcondition, h⟩ := bind_eq_ok.mp h
      obtain ⟨body, hbody, h⟩ := bind_eq_ok.mp h
      cases h
      obtain ⟨ts, hts, hcomparison⟩ := comparison_sound hcondition
      obtain ⟨us, hus, hblock⟩ := (ih _ (Nat.lt_trans condition.shorter hshorter)).block _ hbody
      refine ⟨_, ?_, .loopWhile hcomparison hblock⟩
      rw [hc, htoken, hts, hus]
      simp [Reading.andThen]
    · rename_i htoken
      obtain ⟨condition, hcondition, h⟩ := bind_eq_ok.mp h
      obtain ⟨body, hbody, h⟩ := bind_eq_ok.mp h
      cases h
      obtain ⟨ts, hts, hcomparison⟩ := untilHead_sound hcondition
      obtain ⟨us, hus, hblock⟩ := (ih _ (Nat.lt_trans condition.shorter hshorter)).block _ hbody
      refine ⟨_, ?_, .loopUntil hcomparison hblock⟩
      rw [hc, htoken, hts, hus]
      simp [Reading.andThen]
    · rename_i name htoken
      split at h
      · rename_i hcallable
        obtain ⟨args, hargs, h⟩ := bind_eq_ok.mp h
        cases h
        obtain ⟨ts, hts, hcall⟩ := callArguments_sound hargs
        refine ⟨_, ?_, .call hcallable hcall⟩
        rw [hc, htoken, hts]
        simp [Reading.andThen]
      · rename_i hcallable
        obtain ⟨parts, hparts, h⟩ := bind_eq_ok.mp h
        cases h
        obtain ⟨ts, us, htokens, htarget, hname, hcomparison⟩ := assignment_sound hparts
        rw [← hname] at hcallable
        refine ⟨_, ?_, .assign (Bool.eq_false_iff.mpr hcallable) htarget hcomparison⟩
        rw [hc, htoken, htokens]
        simp [Reading.andThen]
    · cases h

theorem chain_sound_step {r : Reading Chain c} (h : chain defined c = .ok r) :
    ∃ ts, c.tokens = ts ++ r.next.tokens ∧ IsChain (isCallable defined) ts r.value.unplaced := by
  rw [chain] at h
  obtain ⟨head, hhead, h⟩ := bind_eq_ok.mp h
  obtain ⟨body, hbody, h⟩ := bind_eq_ok.mp h
  obtain ⟨ts, hts, hcomparison⟩ := branchHead_sound hhead
  obtain ⟨us, hus, hblock⟩ := (ih _ head.shorter).block _ hbody
  have hshorter := Nat.lt_trans body.shorter head.shorter
  split at h
  · rename_i elsif helsif
    obtain ⟨next, hnext, h⟩ := bind_eq_ok.mp h
    cases h
    obtain ⟨vs, hvs, hchain⟩ := (ih _ (Nat.lt_trans elsif.shorter hshorter)).chain _ hnext
    refine ⟨_, ?_, .elsif hcomparison hblock hchain⟩
    rw [hts, hus, Cursor.tokens_of_eat? helsif, hvs]
    simp [Reading.andThen]
  · split at h
    · rename_i else_ helse
      obtain ⟨last, hlast, h⟩ := bind_eq_ok.mp h
      cases h
      obtain ⟨vs, hvs, hother⟩ := (ih _ (Nat.lt_trans else_.shorter hshorter)).block _ hlast
      refine ⟨_, ?_, .otherwise hcomparison hblock hother⟩
      rw [hts, hus, Cursor.tokens_of_eat? helse, hvs]
      simp [Reading.andThen]
    · cases h
      refine ⟨_, ?_, .last hcomparison hblock⟩
      rw [hts, hus]
      simp [Reading.andThen]

theorem block_sound_step {r : Reading (List Stmt) c} (h : block defined c = .ok r) :
    ∃ ts, c.tokens = ts ++ r.next.tokens ∧ IsBlock (isCallable defined) ts (Stmt.unplacedAll r.value) := by
  rw [block] at h
  obtain ⟨opening, hopening, h⟩ := bind_eq_ok.mp h
  obtain ⟨body, hbody, h⟩ := bind_eq_ok.mp h
  cases h
  obtain ⟨ts, hts, hstmts⟩ := (ih _ opening.shorter).statements _ _ hbody
  refine ⟨_, ?_, .mk hstmts⟩
  rw [openBlock_sound hopening, hts]
  simp [Reading.andThen]

theorem statements_sound_step (hstatement : ∀ r, statement defined c = .ok r →
      ∃ ts, c.tokens = ts ++ r.next.tokens ∧ IsStmt (isCallable defined) ts r.value.unplaced)
    {ending : Expected} {r : Reading (List Stmt) c} (h : statements defined ending c = .ok r) :
    ∃ ts, c.tokens = ts ++ .dedent :: r.next.tokens ∧
      IsStmts (isCallable defined) ts (Stmt.unplacedAll r.value) := by
  rw [statements] at h
  split at h
  · rename_i dedent hdedent
    cases h
    exact ⟨[], Cursor.tokens_of_eat? hdedent, .nil⟩
  · split at h
    · cases h
    · obtain ⟨first, hfirst, h⟩ := bind_eq_ok.mp h
      obtain ⟨rest, hrest, h⟩ := bind_eq_ok.mp h
      cases h
      obtain ⟨ts, hts, hstmt⟩ := hstatement _ hfirst
      obtain ⟨us, hus, hstmts⟩ := (ih _ first.shorter).statements _ _ hrest
      refine ⟨_, ?_, .cons hstmt hstmts⟩
      rw [hts, hus]
      simp [Reading.andThen]

end

/-- By induction on the number of lexemes ahead. Only a list of statements reads a statement from its own start. -/
theorem stmt_sound (defined : List String) (n : Nat) : ∀ c : Cursor, c.ahead.length < n → StmtSound defined c := by
  induction n with
  | zero => exact fun c hc => absurd hc (Nat.not_lt_zero _)
  | succ n ih =>
    intro c hc
    have hshorter : ∀ d : Cursor, d.ahead.length < c.ahead.length → StmtSound defined d :=
      fun d hd => ih d (by omega)
    refine ⟨fun r => statement_sound_step hshorter, fun r => chain_sound_step hshorter,
      fun r => block_sound_step hshorter, fun ending r => ?_⟩
    exact statements_sound_step hshorter fun r => statement_sound_step hshorter

theorem statements_sound {defined : List String} {ending : Expected} {r : Reading (List Stmt) c}
    (h : statements defined ending c = .ok r) :
    ∃ ts, c.tokens = ts ++ .dedent :: r.next.tokens ∧
      IsStmts (isCallable defined) ts (Stmt.unplacedAll r.value) :=
  (stmt_sound defined _ c (Nat.lt_succ_self _)).statements ending r h

/-! ### Completeness of statements -/

/-- Whether a token goes on with the links of a branching statement. -/
def linksOn (t : Token) : Bool :=
  t = .keyword .elsif || t = .keyword .else_

theorem head_of_isStmt {callable : String → Bool} {ts : List Token} {s : Stmt} (h : IsStmt callable ts s) :
    ∃ t us, ts = t :: us ∧ t ≠ .dedent ∧ linksOn t = false := by
  cases h with
  | assign _ htarget _ => cases htarget <;> exact ⟨_, _, rfl, nofun, rfl⟩
  | _ => exact ⟨_, _, rfl, nofun, rfl⟩

/-- A link is followed by a block without a condition, which is the last, or by more links. -/
theorem isChain_link {callable : String → Bool} {ts : List Token} {condition : Option Expr} {body : List Stmt}
    {next : Chain} (h : IsChain callable ts (.link condition body next)) :
    ∃ e us vs ws, condition = some e ∧ IsComparison us e ∧ IsStmts callable vs body ∧
      ((∃ other, next = .last none other ∧ IsBlock callable ws other ∧
          ts = us ++ .keyword .then_ :: (.newline :: .indent :: vs ++ .dedent :: .keyword .else_ :: ws)) ∨
        IsChain callable ws next ∧
          ts = us ++ .keyword .then_ :: (.newline :: .indent :: vs ++ .dedent :: .keyword .elsif :: ws)) := by
  cases h with
  | otherwise hcondition hbody hother =>
    cases hbody with
    | mk hbody => exact ⟨_, _, _, _, rfl, hcondition, hbody, .inl ⟨_, rfl, hother, by simp⟩⟩
  | elsif hcondition hbody hchain =>
    cases hbody with
    | mk hbody => exact ⟨_, _, _, _, rfl, hcondition, hbody, .inr ⟨hchain, by simp⟩⟩

theorem block_of_statements {defined : List String} {ts rest : List Token} {body : List Stmt}
    (hstatements : ∀ {c : Cursor}, c.tokens = ts ++ .dedent :: rest →
      Gives (statements defined .blockEnd c) (fun ss => Stmt.unplacedAll ss = body) rest)
    (hc : c.tokens = .newline :: .indent :: ts ++ .dedent :: rest) :
    Gives (block defined c) (fun ss => Stmt.unplacedAll ss = body) rest := by
  rw [block]
  refine (openBlock_complete hc).bind fun opening _ hnext => ?_
  exact (hstatements hnext).bind fun r hr hnext => gives_pure hr hnext

section

variable (defined : List String)

mutual

theorem statement_complete : ∀ (s : Stmt) {ts rest : List Token} {c : Cursor}, IsStmt (isCallable defined) ts s →
    c.tokens = ts ++ rest → (∀ t ∈ rest.head?, linksOn t = false) →
      Gives (statement defined c) (fun r => r.unplaced = s) rest
  | .assign place target value, ts, rest, c, h, hc, _ => by
    cases h with
    | assign hname htarget hvalue =>
      rename_i ts us
      have hc : c.tokens = ts ++ .mark .assign :: (us ++ .newline :: rest) := by simpa using hc
      obtain ⟨more, hts⟩ : ∃ more, ts = .name target.name :: more := by
        cases htarget <;> exact ⟨_, rfl⟩
      rw [hts] at hc
      obtain ⟨first, hfirst, htoken, hnext⟩ := Cursor.next?_of_tokens hc
      have hassign : .name target.name :: first.next.tokens =
          ts ++ .mark .assign :: (us ++ .newline :: rest) := by
        rw [hnext, hts]
        rfl
      rw [statement, hfirst]
      simp only [htoken, hname]
      refine (assignment_complete htarget hvalue hassign).bind fun r hr hnext => ?_
      exact gives_pure (by rw [hr]; rfl) hnext
  | .branch place chain, ts, rest, c, h, hc, hrest => by
    cases h with
    | branch hchain =>
      obtain ⟨first, hfirst, htoken, hnext⟩ := Cursor.next?_of_tokens hc
      rw [statement, hfirst]
      simp only [htoken]
      refine (chain_complete chain hchain hnext hrest).bind fun r hr hnext => ?_
      exact gives_pure (by rw [← hr]; rfl) hnext
  | .count place counter first last body, ts, rest, c, h, hc, _ => by
    cases h with
    | count _ hfirst hlast hbody =>
      cases hbody with
      | mk hbody =>
        rename_i ts us vs
        have hc : c.tokens = .keyword .for_ :: .name counter :: .keyword .from_ ::
            (ts ++ .keyword .to_ :: (us ++ (.newline :: .indent :: vs ++ .dedent :: rest))) := by
          simpa using hc
        obtain ⟨word, hword, htoken, hnext⟩ := Cursor.next?_of_tokens hc
        rw [statement, hword]
        simp only [htoken]
        refine (countHead_complete hfirst hlast hnext (by rintro t ⟨⟩; rfl)).bind fun head hhead hnext => ?_
        refine (block_of_statements (statements_complete body hbody) hnext).bind fun r hr hnext => ?_
        exact gives_pure (by rw [hhead, ← hr]; rfl) hnext
  | .loopWhile place condition body, ts, rest, c, h, hc, _ => by
    cases h with
    | loopWhile hcondition hbody =>
      cases hbody with
      | mk hbody =>
        rename_i ts us
        have hc : c.tokens = .keyword .while_ :: (ts ++ (.newline :: .indent :: us ++ .dedent :: rest)) := by
          simpa using hc
        obtain ⟨word, hword, htoken, hnext⟩ := Cursor.next?_of_tokens hc
        rw [statement, hword]
        simp only [htoken]
        refine (comparison_complete hcondition hnext (by rintro t ⟨⟩; rfl)).bind fun e he hnext => ?_
        refine (block_of_statements (statements_complete body hbody) hnext).bind fun r hr hnext => ?_
        exact gives_pure (by rw [he, ← hr]; rfl) hnext
  | .loopUntil place condition body, ts, rest, c, h, hc, _ => by
    cases h with
    | loopUntil hcondition hbody =>
      cases hbody with
      | mk hbody =>
        rename_i ts us
        have hc : c.tokens = .keyword .repeat_ :: .keyword .until_ ::
            (ts ++ (.newline :: .indent :: us ++ .dedent :: rest)) := by
          simpa using hc
        obtain ⟨word, hword, htoken, hnext⟩ := Cursor.next?_of_tokens hc
        rw [statement, hword]
        simp only [htoken]
        refine (untilHead_complete hcondition hnext (by rintro t ⟨⟩; rfl)).bind fun e he hnext => ?_
        refine (block_of_statements (statements_complete body hbody) hnext).bind fun r hr hnext => ?_
        exact gives_pure (by rw [he, ← hr]; rfl) hnext
  | .call place name arguments, ts, rest, c, h, hc, _ => by
    cases h with
    | call hname hcall =>
      rename_i ts
      have hc : c.tokens = .name name :: (ts ++ .newline :: rest) := by simpa using hc
      obtain ⟨first, hfirst, htoken, hnext⟩ := Cursor.next?_of_tokens hc
      rw [statement, hfirst]
      simp only [htoken, hname]
      refine (callArguments_complete hcall hnext).bind fun r hr hnext => ?_
      exact gives_pure (by rw [hr]; rfl) hnext

theorem chain_complete : ∀ (links : Chain) {ts rest : List Token} {c : Cursor},
    IsChain (isCallable defined) ts links → c.tokens = ts ++ rest → (∀ t ∈ rest.head?, linksOn t = false) →
      Gives (chain defined c) (fun r => r.unplaced = links) rest
  | .last condition body, ts, rest, c, h, hc, hrest => by
    cases h with
    | last hcondition hbody =>
      cases hbody with
      | mk hbody =>
        rename_i ts e us
        have hc : c.tokens = ts ++ .keyword .then_ :: (.newline :: .indent :: us ++ .dedent :: rest) := by
          simpa using hc
        rw [chain]
        refine (branchHead_complete hcondition hc).bind fun head hhead hnext => ?_
        refine (block_of_statements (statements_complete body hbody) hnext).bind fun r hr hnext => ?_
        have hnone : ∀ word, linksOn word = true → r.next.eat? word = none := by
          intro word hword
          rw [Cursor.eat?_eq_none_iff, hnext]
          intro hhead
          cases hword.symm.trans (hrest _ hhead)
        rw [hnone _ rfl, hnone _ rfl]
        exact gives_pure (by rw [hhead, ← hr]; rfl) hnext
  | .link condition body next, ts, rest, c, h, hc, hrest => by
    obtain ⟨e, us, vs, ws, rfl, hcondition, hbody, hlink⟩ := isChain_link h
    have hhead : ∀ {word : Token}, ts = us ++ .keyword .then_ :: (.newline :: .indent :: vs ++ .dedent :: word :: ws) →
        c.tokens = us ++ .keyword .then_ :: (.newline :: .indent :: vs ++ .dedent :: word :: (ws ++ rest)) := by
      intro word hts
      rw [hc, hts]
      simp
    rcases hlink with ⟨other, hnext, hother, hts⟩ | ⟨hchain, hts⟩
    · rw [chain]
      refine (branchHead_complete hcondition (hhead hts)).bind fun head hhead htokens => ?_
      refine (block_of_statements (statements_complete body hbody) htokens).bind fun r hr htokens => ?_
      have helsif : r.next.eat? (.keyword .elsif) = none := by
        rw [Cursor.eat?_eq_none_iff, htokens]
        nofun
      obtain ⟨word, hword, htokens⟩ := Cursor.eat?_of_tokens htokens
      rw [helsif, hword]
      refine (otherwise_complete next hnext hother htokens).bind fun s hs htokens => ?_
      exact gives_pure (by rw [hnext, hhead, ← hr, ← hs]; rfl) htokens
    · rw [chain]
      refine (branchHead_complete hcondition (hhead hts)).bind fun head hhead htokens => ?_
      refine (block_of_statements (statements_complete body hbody) htokens).bind fun r hr htokens => ?_
      obtain ⟨word, hword, htokens⟩ := Cursor.eat?_of_tokens htokens
      rw [hword]
      refine (chain_complete next hchain htokens hrest).bind fun s hs htokens => ?_
      exact gives_pure (by rw [hhead, ← hr, ← hs]; rfl) htokens

/-- The block of a last link without a condition. -/
theorem otherwise_complete : ∀ (links : Chain) {other : List Stmt}, links = .last none other →
    ∀ {ts rest : List Token} {c : Cursor}, IsBlock (isCallable defined) ts other → c.tokens = ts ++ rest →
      Gives (block defined c) (fun ss => Stmt.unplacedAll ss = other) rest
  | .last condition body, other, hlinks, ts, rest, c, h, hc => by
    cases hlinks
    cases h with
    | mk h =>
      rename_i ts
      have hc : c.tokens = .newline :: .indent :: ts ++ .dedent :: rest := by simpa using hc
      exact block_of_statements (statements_complete body h) hc
  | .link condition body next, other, hlinks, ts, rest, c, h, hc => nomatch hlinks

theorem statements_complete : ∀ (body : List Stmt) {ending : Expected} {ts rest : List Token},
    IsStmts (isCallable defined) ts body → ∀ {c : Cursor}, c.tokens = ts ++ .dedent :: rest →
      Gives (statements defined ending c) (fun ss => Stmt.unplacedAll ss = body) rest
  | [], ending, ts, rest, h, c, hc => by
    cases h
    obtain ⟨dedent, hdedent, hnext⟩ := Cursor.eat?_of_tokens hc
    rw [statements, hdedent]
    exact ⟨_, rfl, rfl, hnext⟩
  | s :: ss, ending, ts, rest, h, c, hc => by
    cases h with
    | cons hstmt hstmts =>
      rename_i ts us
      have hc : c.tokens = ts ++ (us ++ .dedent :: rest) := by simpa using hc
      have hfollow : ∀ t ∈ (us ++ .dedent :: rest).head?, linksOn t = false := by
        cases hstmts with
        | nil => rintro t ⟨⟩; rfl
        | cons hstmt _ =>
          obtain ⟨u, more, rfl, -, hu⟩ := head_of_isStmt hstmt
          rintro t ⟨⟩
          exact hu
      obtain ⟨u, more, hts, hu, -⟩ := head_of_isStmt hstmt
      have hdedent : c.eat? .dedent = none := by
        rw [Cursor.eat?_eq_none_iff, hc, hts]
        exact fun hhead => hu (Option.some.inj hhead)
      have hnonempty : c.ahead.isEmpty = false := by
        rw [Cursor.isEmpty_ahead, hc, hts]
        rfl
      rw [statements, hdedent]
      simp only [hnonempty]
      refine (statement_complete s hstmt hc hfollow).bind fun r hr hnext => ?_
      refine (statements_complete ss hstmts hnext).bind fun q hq hnext => ?_
      exact gives_pure (by rw [← hr, ← hq]; rfl) hnext

end

end

end Offside.Parse
