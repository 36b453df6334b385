import Offside.Proofs.Blocks

/-!
# Texts that are cut short

The scanner looks ahead to find where a piece ends, but never at what a shorter text would hide: if a text is cut
short behind a piece, at once or later, the piece stays the same. So the pieces of a text up to some point are the
pieces of the text up to there, and this needs no token to be whole.
-/

namespace Offside

namespace Scan

theorem takeWhile_short {p : Char → Bool} {cs rest more : List Char} (h : (cs ++ more).dropWhile p = rest ++ more) :
    (cs ++ more).takeWhile p = cs.takeWhile p ∧ cs.dropWhile p = rest := by
  have hsplit : cs = (cs ++ more).takeWhile p ++ rest := by
    have happ := List.takeWhile_append_dropWhile (p := p) (l := cs ++ more)
    rw [h, ← List.append_assoc] at happ
    exact (List.append_cancel_right happ).symm
  have hstop : ∀ c ∈ rest.head?, p c = false := by
    intro c hc
    have hhead := List.head?_dropWhile_not p (cs ++ more)
    rw [h, List.head?_append, Option.mem_def.mp hc] at hhead
    simpa using hhead
  obtain ⟨htake, hdrop⟩ := takeWhile_dropWhile_append (List.all_eq_true.mp List.all_takeWhile) hstop
  rw [← hsplit] at htake hdrop
  exact ⟨htake.symm, hdrop⟩

theorem afterBrace_short {cs rest more : List Char} {p : Piece} (h : afterBrace (cs ++ more) = (p, rest ++ more)) :
    afterBrace cs = (p, rest) := by
  unfold afterBrace at h ⊢
  cases hdrop : (cs ++ more).dropWhile (· ≠ '\x7d') with
  | nil =>
    simp only [hdrop, Prod.mk.injEq] at h
    obtain ⟨rfl, hnil⟩ := h
    obtain ⟨rfl, rfl⟩ := List.append_eq_nil_iff.mp hnil.symm
    rw [List.append_nil] at hdrop ⊢
    simp only [hdrop]
  | cons close behind =>
    simp only [hdrop, Prod.mk.injEq] at h
    obtain ⟨rfl, rfl⟩ := h
    rw [← List.cons_append] at hdrop
    obtain ⟨htake, hrest⟩ := takeWhile_short hdrop
    simp only [hrest, htake]

/-! ### Literals -/

/-- Where the inside of a string literal ends at once, it does so in a shorter text too. -/
theorem stringBody_stop {rest : List Char} (more : List Char) (h : (stringBody (rest ++ more)).1 = []) :
    stringBody rest = ([], rest) := by
  fun_cases stringBody rest with
  | case1 => rfl
  | case2 cs => rfl
  | case3 c cs hc => simp [stringBody, hc] at h
  | case4 c cs hne hc => rfl
  | case5 c cs hne hc =>
    simp only [not_or] at hc
    rw [List.cons_append, stringBody.eq_3 _ _ (fun _ _ h => absurd h hc.2), if_neg (by simp [hc])] at h
    cases h

theorem stringBody_short {cs body rest more : List Char} (h : stringBody (cs ++ more) = (body, rest ++ more)) :
    stringBody cs = (body, rest) := by
  have happ := stringBody_append (cs ++ more)
  rw [h, ← List.append_assoc] at happ
  have hcs : body ++ rest = cs := List.append_cancel_right happ
  have hclosed : stringBody body = (body, []) := by
    have hfst := stringBody_fst (cs ++ more)
    rwa [h] at hfst
  rw [← hcs, List.append_assoc, stringBody_append_of_closed hclosed, Prod.mk.injEq] at h
  rw [← hcs, stringBody_append_of_closed hclosed, stringBody_stop more (by simpa using h.1), List.append_nil]

theorem afterQuote_short {cs rest more : List Char} {p : Piece} (h : afterQuote (cs ++ more) = (p, rest ++ more)) :
    afterQuote cs = (p, rest) := by
  unfold afterQuote at h ⊢
  cases hbody : stringBody (cs ++ more) with
  | mk body behind =>
    simp only [hbody] at h
    split at h
    · simp only [Prod.mk.injEq] at h
      obtain ⟨rfl, rfl⟩ := h
      rw [← List.cons_append] at hbody
      simp only [stringBody_short hbody]
    · rename_i hopen
      simp only [Prod.mk.injEq] at h
      obtain ⟨rfl, rfl⟩ := h
      rw [stringBody_short hbody]
      dsimp only
      split
      · exact absurd rfl (hopen _)
      · rfl

theorem closeCharacter_short {body cs rest more : List Char} {p : Piece}
    (h : closeCharacter body (cs ++ more) = (p, rest ++ more)) : closeCharacter body cs = (p, rest) := by
  unfold closeCharacter at h
  split at h
  · rename_i behind hcs
    simp only [Prod.mk.injEq] at h
    obtain ⟨rfl, rfl⟩ := h
    obtain rfl : cs = '\'' :: rest := List.append_cancel_right hcs
    rfl
  · rename_i hopen
    simp only [Prod.mk.injEq] at h
    obtain ⟨rfl, hrest⟩ := h
    obtain rfl : cs = rest := List.append_cancel_right hrest
    unfold closeCharacter
    split
    · exact absurd rfl (hopen _)
    · rfl

/-- What can stand between the quotes of a character literal. -/
inductive CharacterBody : List Char → Prop where
  | plain {c : Char} (quote : c ≠ '\'') (backslash : c ≠ '\\') : CharacterBody [c]
  | escaped {c : Char} (feed : c ≠ '\n') : CharacterBody ['\\', c]

theorem afterApostrophe_body {body : List Char} (h : CharacterBody body) (cs : List Char) :
    afterApostrophe (body ++ cs) = closeCharacter body cs := by
  cases h with
  | plain quote backslash => simp [afterApostrophe, quote, backslash]
  | escaped feed => simp [afterApostrophe, feed]

theorem afterApostrophe_alone {cs : List Char} (h : ∀ body rest, CharacterBody body → cs ≠ body ++ rest) :
    afterApostrophe cs = (⟨.token (.unclosed .character), ['\'']⟩, cs) := by
  fun_cases afterApostrophe cs with
  | case1 => rfl
  | case2 c cs hc => exact absurd rfl (h ['\\', c] cs (.escaped hc))
  | case3 => rfl
  | case4 c cs hne hc =>
    rw [not_or] at hc
    exact absurd rfl (h [c] cs (.plain hc.1 hc.2))
  | case5 => rfl

theorem closeCharacter_suffix (body cs : List Char) : (closeCharacter body cs).2 <:+ cs := by
  unfold closeCharacter
  split
  · exact List.suffix_cons _ _
  · exact List.suffix_refl _

theorem afterApostrophe_short {cs rest more : List Char} {p : Piece}
    (h : afterApostrophe (cs ++ more) = (p, rest ++ more)) : afterApostrophe cs = (p, rest) := by
  by_cases hbody : ∃ body behind, CharacterBody body ∧ cs ++ more = body ++ behind
  · obtain ⟨body, behind, hbody, hcs⟩ := hbody
    rw [hcs, afterApostrophe_body hbody] at h
    have hsuffix := closeCharacter_suffix body behind
    rw [h] at hsuffix
    obtain ⟨tail, rfl⟩ := (List.suffix_append rest more).trans hsuffix
    rw [← List.append_assoc] at hcs
    rw [List.append_cancel_right hcs, afterApostrophe_body hbody]
    exact closeCharacter_short h
  · have halone : ∀ body behind, CharacterBody body → cs ++ more ≠ body ++ behind :=
      fun body behind h hcs => hbody ⟨body, behind, h, hcs⟩
    rw [afterApostrophe_alone halone, Prod.mk.injEq] at h
    obtain ⟨rfl, hrest⟩ := h
    obtain rfl : cs = rest := List.append_cancel_right hrest
    refine afterApostrophe_alone fun body behind h hcs => halone body (behind ++ more) h ?_
    rw [hcs, List.append_assoc]

/-! ### Numbers and marks -/

/-- A number ends in front of a point that no digit follows. -/
theorem number_whole {digits cs : List Char} (h : ∀ d more, cs = '.' :: d :: more → d.isDigit = false) :
    number digits cs = (⟨integerItem (Decimal.digitsValue digits), digits⟩, cs) := by
  unfold number
  split
  · rw [if_neg (by simp [h _ _ rfl])]
  · rfl

theorem number_short {digits cs rest more : List Char} {p : Piece}
    (h : number digits (cs ++ more) = (p, rest ++ more)) : number digits cs = (p, rest) := by
  by_cases hfraction : ∃ d behind, cs ++ more = '.' :: d :: behind ∧ d.isDigit = true
  · obtain ⟨d, behind, hcs, hd⟩ := hfraction
    simp only [hcs, number, hd, if_true, Prod.mk.injEq] at h
    obtain ⟨rfl, hrest⟩ := h
    have hsuffix : more <:+ behind := by
      refine (List.suffix_append rest more).trans ?_
      rw [← hrest]
      exact List.dropWhile_suffix _
    obtain ⟨tail, rfl⟩ := hsuffix
    obtain rfl : cs = '.' :: d :: tail := List.append_cancel_right hcs
    obtain ⟨htake, hdrop⟩ := takeWhile_short hrest
    simp only [number, hd, if_true, htake, hdrop]
  · have hwhole : ∀ d behind, cs ++ more = '.' :: d :: behind → d.isDigit = false := by simpa using hfraction
    rw [number_whole hwhole, Prod.mk.injEq] at h
    obtain ⟨rfl, hrest⟩ := h
    obtain rfl : cs = rest := List.append_cancel_right hrest
    refine number_whole fun d behind hcs => hwhole d (behind ++ more) ?_
    rw [hcs]
    rfl

theorem number_suffix (digits cs : List Char) : (number digits cs).2 <:+ cs := by
  unfold number
  split
  · split
    · exact ((List.dropWhile_suffix _).trans (List.suffix_cons _ _)).trans (List.suffix_cons _ _)
    · exact List.suffix_refl _
  · exact List.suffix_refl _

theorem mark?_short {cs rest more : List Char} {m : Mark} (h : mark? (cs ++ more) = some (m, rest ++ more)) :
    mark? cs = some (m, rest) := by
  have happ := mark?_append h
  rw [← List.append_assoc] at happ
  obtain rfl : m.spelling.toList ++ rest = cs := List.append_cancel_right happ
  cases rest with
  | nil => exact mark?_spelling m [] (by simp)
  | cons d rest =>
    rw [List.append_assoc] at h
    exact mark?_of_next h rest

/-- A text that starts like a mark starts with a mark. -/
theorem mark?_of_head (m : Mark) {c : Char} {cs : List Char} (hm : m.spelling.toList = c :: cs) (ds : List Char) :
    mark? (c :: ds) ≠ none := by
  cases ds with
  | nil => cases m <;> simp [Mark.spelling] at hm <;> simp [mark?, ← hm.1]
  | cons d ds =>
    by_cases hequal : d = '='
    · subst hequal
      cases m <;> simp [Mark.spelling] at hm <;> simp [mark?, ← hm.1]
    by_cases hgreater : d = '>'
    · subst hgreater
      cases m <;> simp [Mark.spelling] at hm <;> simp [mark?, ← hm.1]
    cases m <;> simp [Mark.spelling] at hm <;> simp [mark?, ← hm.1, hequal, hgreater]

theorem mark?_eq_none {c : Char} {cs : List Char} (h : mark? (c :: cs) = none) (ds : List Char) :
    mark? (c :: ds) = none := by
  rw [Option.eq_none_iff_forall_ne_some]
  rintro ⟨m, rest⟩ hsome
  have happ := mark?_append hsome
  have hne : m.spelling.toList ≠ [] := by cases m <;> simp [Mark.spelling]
  obtain ⟨d, spelling, hspelling⟩ := List.exists_cons_of_ne_nil hne
  rw [hspelling, List.cons_append] at happ
  obtain ⟨rfl, -⟩ := List.cons.inj happ
  exact mark?_of_head m hspelling cs h

/-! ### Pieces -/

/-- A piece stays the same in a text that is cut short behind it. -/
theorem cut_short {c : Char} {cs rest more : List Char} {p : Piece} (h : cut c (cs ++ more) = (p, rest ++ more)) :
    cut c cs = (p, rest) := by
  unfold cut at h ⊢
  split at h
  · rename_i hgap
    rw [Prod.mk.injEq] at h
    obtain ⟨rfl, hrest⟩ := h
    obtain ⟨htake, hdrop⟩ := takeWhile_short hrest
    simp only [hgap, if_true, htake, hdrop]
  rename_i hgap
  rw [if_neg hgap]
  split at h
  · rename_i hfeed
    rw [Prod.mk.injEq] at h
    obtain ⟨rfl, hrest⟩ := h
    rw [if_pos hfeed, List.append_cancel_right hrest]
  rename_i hfeed
  rw [if_neg hfeed]
  split at h
  · rename_i hbrace
    rw [if_pos hbrace]
    exact afterBrace_short h
  rename_i hbrace
  rw [if_neg hbrace]
  split at h
  · rename_i hquote
    rw [if_pos hquote]
    exact afterQuote_short h
  rename_i hquote
  rw [if_neg hquote]
  split at h
  · rename_i hapostrophe
    rw [if_pos hapostrophe]
    exact afterApostrophe_short h
  rename_i hapostrophe
  rw [if_neg hapostrophe]
  split at h
  · rename_i hdigit
    rw [if_pos hdigit]
    have hsuffix := number_suffix (c :: (cs ++ more).takeWhile Char.isDigit) ((cs ++ more).dropWhile Char.isDigit)
    rw [h] at hsuffix
    obtain ⟨tail, htail⟩ := (List.suffix_append rest more).trans hsuffix
    obtain ⟨htake, hdrop⟩ := takeWhile_short htail.symm
    rw [htake, ← htail] at h
    rw [hdrop]
    exact number_short h
  rename_i hdigit
  rw [if_neg hdigit]
  split at h
  · rename_i halpha
    rw [Prod.mk.injEq] at h
    obtain ⟨rfl, hrest⟩ := h
    obtain ⟨htake, hdrop⟩ := takeWhile_short hrest
    simp only [halpha, if_true, htake, hdrop]
  rename_i halpha
  rw [if_neg halpha]
  split at h
  · rename_i m behind hmark
    rw [Prod.mk.injEq] at h
    obtain ⟨rfl, rfl⟩ := h
    rw [← List.cons_append] at hmark
    rw [mark?_short hmark]
  · rename_i hmark
    rw [Prod.mk.injEq] at h
    obtain ⟨rfl, hrest⟩ := h
    rw [mark?_eq_none hmark cs, List.append_cancel_right hrest]

end Scan

/-- A piece was cut off in front of the text of the pieces behind it. -/
theorem exists_cut_of_pieces {cs : List Char} {front back : List Piece} {p : Piece}
    (h : pieces cs = front ++ p :: back) : ∃ d ds, Scan.cut d ds = (p, textOf back) := by
  induction front generalizing cs with
  | nil =>
    cases cs with
    | nil =>
      rw [pieces] at h
      cases h
    | cons c cs =>
      rw [pieces, List.nil_append, List.cons.injEq] at h
      obtain ⟨hp, hback⟩ := h
      exact ⟨c, cs, Prod.ext hp (by rw [← hback, textOf, flatMap_text_pieces])⟩
  | cons q front ih =>
    cases cs with
    | nil =>
      rw [pieces] at h
      cases h
    | cons c cs =>
      rw [pieces, List.cons_append, List.cons.injEq] at h
      exact ih h.2

/-- The pieces of a text up to some point are those of the text that ends there. -/
theorem pieces_short {cs : List Char} {front back : List Piece} (h : pieces cs = front ++ back) :
    pieces (textOf front) = front := by
  induction front generalizing cs with
  | nil => rw [textOf, List.flatMap_nil, pieces]
  | cons p front ih =>
    cases cs with
    | nil =>
      rw [pieces] at h
      cases h
    | cons c cs =>
      rw [pieces, List.cons_append, List.cons.injEq] at h
      obtain ⟨hp, hrest⟩ := h
      have hbehind : (Scan.cut c cs).2 = textOf front ++ textOf back := by
        rw [← textOf_append, ← hrest, textOf, flatMap_text_pieces]
      have happ := Scan.cut_append c cs
      obtain ⟨d, ds, hds⟩ := List.exists_cons_of_ne_nil (Scan.cut_text_ne_nil c cs)
      rw [hds, hbehind, List.cons_append, List.cons.injEq, ← List.append_assoc] at happ
      obtain ⟨rfl, rfl⟩ := happ
      have hcut : Scan.cut d (ds ++ textOf front) = (p, textOf front) := Scan.cut_short (Prod.ext hp hbehind)
      have htext : textOf (p :: front) = d :: (ds ++ textOf front) := by
        rw [textOf, List.flatMap_cons, ← hp, hds]
        rfl
      rw [htext, pieces, hcut, ih hrest]

end Offside
