import Offside.Proofs.ParseStmt

/-!
# The two readings of a call

The arguments of a call stand in parentheses or bare behind the name, and a line that goes on with an opening
parenthesis may be either. Where a line has both readings they are one and the same, so that nothing depends on which of
them is tried first. A list of arguments is read as the same call with parentheses around it and without, also when its
first argument starts with a parenthesis.
-/

namespace Offside.Parse

open Grammar

variable {c d e : Cursor}

/-- The reading of a line with its arguments in parentheses, the closing one of which has to end the line. -/
def enclosedLine? (c : Cursor) : Option (Reading (List Argument) c) :=
  match c.eat? (.mark .openParen) with
  | none => none
  | some opening =>
    match enclosedArguments opening.next with
    | .error _ => none
    | .ok args =>
      match args.next.eat? .newline with
      | none => none
      | some lineEnd => some ((opening.andThen args ()).andThen lineEnd args.value)

/-- Two cursors that are reached from a third are the same if the same tokens are in front of them. -/
theorem Cursor.Passes.eq_of_tokens (h : c.Passes d) (h' : c.Passes e) (htokens : d.tokens = e.tokens) : d = e := by
  obtain ⟨front, l, hahead, hlast, hfinish⟩ := h
  obtain ⟨front', l', hahead', hlast', hfinish'⟩ := h'
  have hlength : (l :: d.ahead).length = (l' :: e.ahead).length := by
    simpa [Cursor.tokens] using congrArg List.length htokens
  obtain ⟨-, hsplit⟩ := List.append_inj' (hahead.symm.trans hahead') hlength
  obtain ⟨rfl, hrest⟩ := List.cons.inj hsplit
  obtain ⟨ahead, last, finish⟩ := d
  obtain ⟨ahead', last', finish'⟩ := e
  exact (Cursor.mk.injEq ..).mpr ⟨hrest, hlast.trans hlast'.symm, hfinish.trans hfinish'.symm⟩

theorem Reading.eq_of_tokens {α : Type} {r s : Reading α c} (hvalue : r.value = s.value)
    (htokens : r.next.tokens = s.next.tokens) : r = s := by
  have hnext := r.passes.eq_of_tokens s.passes htokens
  obtain ⟨value, next, passes⟩ := r
  obtain ⟨value', next', passes'⟩ := s
  obtain rfl : value = value' := hvalue
  obtain rfl : next = next' := hnext
  rfl

section

variable {r s : Reading (List Argument) c}

/-- The reading in parentheses is taken whenever there is one. -/
theorem callArguments_of_enclosedLine? (h : enclosedLine? c = some r) : callArguments c = .ok r := by
  cases hopening : c.eat? (.mark .openParen) with
  | none => simp [enclosedLine?, hopening] at h
  | some opening =>
    cases hargs : enclosedArguments opening.next with
    | error e => simp [enclosedLine?, hopening, hargs] at h
    | ok args =>
      cases hlineEnd : args.next.eat? .newline with
      | none => simp [enclosedLine?, hopening, hargs, hlineEnd] at h
      | some lineEnd =>
        simp only [enclosedLine?, hopening, hargs, hlineEnd, Option.some.injEq] at h
        simp only [callArguments, hopening, hargs, hlineEnd, h]

/-- Without a reading in parentheses there is only the bare one. -/
theorem toOption_callArguments_of_none (h : enclosedLine? c = none) :
    (callArguments c).toOption = (bareArguments c).toOption := by
  cases hopening : c.eat? (.mark .openParen) with
  | none => simp only [callArguments, hopening]
  | some opening =>
    cases hargs : enclosedArguments opening.next with
    | error e =>
      simp only [callArguments, hopening, hargs]
      cases bareArguments c <;> rfl
    | ok args =>
      cases hlineEnd : args.next.eat? .newline with
      | none => simp only [callArguments, hopening, hargs, hlineEnd]
      | some lineEnd => simp [enclosedLine?, hopening, hargs, hlineEnd] at h

/-- The bare reading is taken whenever there is one: by the grammar, what it takes is read in one way only. -/
theorem callArguments_of_bareArguments (h : bareArguments c = .ok r) : callArguments c = .ok r := by
  obtain ⟨ts, hts, hcall⟩ := bareArguments_sound h
  obtain ⟨s, hs, hvalue, hnext⟩ := callArguments_complete hcall hts
  rw [hs, Reading.eq_of_tokens hvalue hnext]

theorem enclosedLine?_eq_bareArguments (h : enclosedLine? c = some r) (hbare : bareArguments c = .ok s) : r = s :=
  Except.ok.inj ((callArguments_of_enclosedLine? h).symm.trans (callArguments_of_bareArguments hbare))

end

theorem callArguments_enclosed_first (c : Cursor) :
    (callArguments c).toOption = (enclosedLine? c).or (bareArguments c).toOption := by
  cases h : enclosedLine? c with
  | none => exact toOption_callArguments_of_none h
  | some r =>
    rw [callArguments_of_enclosedLine? h]
    rfl

theorem callArguments_bare_first (c : Cursor) :
    (callArguments c).toOption = (bareArguments c).toOption.or (enclosedLine? c) := by
  cases hbare : bareArguments c with
  | ok r =>
    rw [callArguments_of_bareArguments hbare]
    rfl
  | error e =>
    rw [callArguments_enclosed_first, hbare]
    exact Option.or_none

/-- A line that starts with the name of a function is a call with the arguments that are read behind the name. -/
theorem statement_call {defined : List String} {name : String} {line rest : List Token} {as : List Argument}
    (hname : isCallable defined name = true) (hc : c.tokens = .name name :: line)
    (hread : ∀ {d : Cursor}, d.tokens = line → Gives (callArguments d) (· = as) rest) :
    Gives (statement defined c) (fun s => ∃ place, s = .call place name as) rest := by
  obtain ⟨first, hfirst, htoken, hnext⟩ := Cursor.next?_of_tokens hc
  rw [statement, hfirst]
  simp only [htoken, if_pos hname]
  refine (hread hnext).bind fun args hargs hnext => ?_
  exact gives_pure ⟨_, by rw [← hargs]; rfl⟩ hnext

/-- A list of arguments behind the name of a function is read as the same call in parentheses and bare. Where a line has
both readings they are equal, and the reader takes the same one whichever of the two it tries first. -/
theorem call_readings_agree :
    (∀ (defined : List String) (name : String) (ts rest rest' : List Token) (as : List Argument) (c d : Cursor),
      isCallable defined name = true → IsArguments ts as →
      c.tokens = .name name :: .mark .openParen :: ts ++ .mark .closeParen :: .newline :: rest →
      d.tokens = .name name :: ts ++ .newline :: rest' →
      Gives (statement defined c) (fun s => ∃ place, s = .call place name as) rest ∧
        Gives (statement defined d) (fun s => ∃ place, s = .call place name as) rest') ∧
    ∀ c : Cursor,
      (∀ r s, enclosedLine? c = some r → bareArguments c = .ok s → r.value = s.value ∧ r.next = s.next) ∧
      (callArguments c).toOption = (enclosedLine? c).or (bareArguments c).toOption ∧
      (callArguments c).toOption = (bareArguments c).toOption.or (enclosedLine? c) := by
  refine ⟨fun defined name ts rest rest' as c d hname has hc hd => ⟨?_, ?_⟩, fun c => ⟨fun r s hr hs => ?_, ?_, ?_⟩⟩
  · refine statement_call hname hc fun hline => callArguments_complete (.enclosed has) ?_
    simpa using hline
  · exact statement_call hname hd fun hline => callArguments_complete (.bare has) hline
  · rw [enclosedLine?_eq_bareArguments hr hs]
    exact ⟨rfl, rfl⟩
  · exact callArguments_enclosed_first c
  · exact callArguments_bare_first c

/-- The arguments `(a) * 2, var b`, and the line `(a)`, which has both readings. -/
theorem call_readings_agree_front :
    ∃ (as : List Argument) (c d line : Cursor) (r s : Reading (List Argument) line),
      as.map Argument.text = ["(a * 2)", "var b"] ∧
      Gives (statement [] c) (fun s => ∃ place, s = .call place "Write" as) [.dedent] ∧
      Gives (statement [] d) (fun s => ∃ place, s = .call place "Write" as) [.keyword .else_] ∧
      enclosedLine? line = some r ∧ bareArguments line = .ok s ∧ r.value = s.value ∧ r.next = s.next := by
  have hname : ∀ name, IsExpr .sum [.name name] (.named name) := fun name => .ofProduct (.ofFactor (.named name))
  have hfirst : IsExpr .product ([.mark .openParen, .name "a", .mark .closeParen] ++ .mark .star :: [.integer 2])
      (.arithmetic .multiply (.named "a") (.literal (.integer 2))) :=
    .times (.ofFactor (.enclosed (hname "a"))) .star (.literal (.integer (by decide)))
  have hplace : IsComparison [.name "b"] (Target.named "b").toExpr := .ofSum (hname "b")
  have has := IsArguments.more (.value (.ofSum (.ofProduct hfirst))) (.one (.place hplace))
  obtain ⟨hc, hd⟩ := call_readings_agree.1 [] "Write" _ [.dedent] [.keyword .else_] _ (.ofLexemes (bare _))
    (.ofLexemes (bare _)) (by decide) has (map_token_bare _) (map_token_bare _)
  have henclosed :
      (enclosedLine? (.ofLexemes (bare [.mark .openParen, .name "a", .mark .closeParen, .newline]))).isSome = true := by
    decide +kernel
  have hbare :
      (bareArguments (.ofLexemes (bare [.mark .openParen, .name "a", .mark .closeParen, .newline]))).isOk = true := by
    decide +kernel
  obtain ⟨r, hr⟩ := Option.isSome_iff_exists.mp henclosed
  obtain ⟨s, hs⟩ := exists_eq_ok hbare
  exact ⟨_, _, _, _, r, s, by decide +kernel, hc, hd, hr, hs, (call_readings_agree.2 _).1 r s hr hs⟩

end Offside.Parse
