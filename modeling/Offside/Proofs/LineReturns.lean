import Offside.Proofs.CutShort
import Offside.Proofs.Tiling

/-!
# Carriage returns at line ends

A line may end in a line feed alone or in a carriage return and a line feed. The carriage return is a blank, so it goes
into the gap in front of the line end, or is a gap of its own there. It never gets into a margin, which the line end
clears, and inside a comment it is skipped with the rest. Only a literal that runs over a line end would take it in.
-/

namespace Offside

/-- A text with a carriage return in front of every line feed. -/
def withReturns (cs : List Char) : List Char :=
  cs.flatMap fun c => if c = '\n' then ['\r', '\n'] else [c]

@[simp] theorem withReturns_nil : withReturns [] = [] := rfl

@[simp] theorem withReturns_feed (cs : List Char) : withReturns ('\n' :: cs) = '\r' :: '\n' :: withReturns cs := rfl

theorem withReturns_cons {c : Char} (h : c ≠ '\n') (cs : List Char) :
    withReturns (c :: cs) = c :: withReturns cs := by
  rw [withReturns, List.flatMap_cons, if_neg h]
  rfl

theorem withReturns_append (cs ds : List Char) : withReturns (cs ++ ds) = withReturns cs ++ withReturns ds :=
  List.flatMap_append

theorem withReturns_of_not_mem {cs : List Char} (h : '\n' ∉ cs) : withReturns cs = cs := by
  induction cs with
  | nil => rfl
  | cons c cs ih =>
    rw [List.mem_cons, not_or] at h
    rw [withReturns_cons (fun hc => h.1 hc.symm), ih h.2]

/-- The first character stays unless it is a line feed. -/
theorem head?_withReturns {cs : List Char} {c : Char} (h : c ∈ (withReturns cs).head?) :
    (c = '\r' ∧ '\n' ∈ cs.head?) ∨ c ∈ cs.head? := by
  cases cs with
  | nil => cases h
  | cons d cs =>
    by_cases hd : d = '\n'
    · subst hd
      exact .inl ⟨(Option.some.inj h).symm, rfl⟩
    · rw [withReturns_cons hd] at h
      exact .inr h

theorem mem_withReturns {cs : List Char} {c : Char} (h : c ∈ withReturns cs) : c = '\r' ∨ c ∈ cs := by
  obtain ⟨d, hd, hc⟩ := List.mem_flatMap.mp h
  by_cases hfeed : d = '\n'
  · rw [if_pos hfeed] at hc
    rcases List.mem_cons.mp hc with rfl | hc
    · exact .inl rfl
    · rw [List.mem_singleton.mp hc, ← hfeed]
      exact .inr hd
  · rw [if_neg hfeed] at hc
    rw [List.mem_singleton.mp hc]
    exact .inr hd

theorem lineFeeds_withReturns (cs : List Char) : lineFeeds (withReturns cs) = lineFeeds cs := by
  induction cs with
  | nil => rfl
  | cons c cs ih =>
    unfold lineFeeds at ih ⊢
    by_cases hc : c = '\n'
    · subst hc
      simp [ih]
    · rw [withReturns_cons hc, List.count_cons, List.count_cons, ih]

/-- A stretch that a line end stops is the same with carriage returns. -/
theorem takeWhile_withReturns {p : Char → Bool} (hfeed : p '\n' = false) (hreturn : p '\r' = false) (cs : List Char) :
    (withReturns cs).takeWhile p = cs.takeWhile p ∧ (withReturns cs).dropWhile p = withReturns (cs.dropWhile p) := by
  induction cs with
  | nil => exact ⟨rfl, rfl⟩
  | cons c cs ih =>
    by_cases hc : c = '\n'
    · subst hc
      simp [hfeed, hreturn]
    · rw [withReturns_cons hc]
      by_cases hp : p c = true
      · simp [hp, ih]
      · simp [hp, withReturns_cons hc]

/-! ### Pieces -/

namespace Scan

theorem number_withReturns (digits cs : List Char) :
    number digits (withReturns cs) = ((number digits cs).1, withReturns (number digits cs).2) := by
  by_cases hfraction : ∃ d more, cs = '.' :: d :: more ∧ d.isDigit = true
  · obtain ⟨d, more, rfl, hd⟩ := hfraction
    have hfeed : d ≠ '\n' := (of_isDigit hd).2.1
    obtain ⟨htake, hdrop⟩ := takeWhile_withReturns (p := Char.isDigit) (by decide) (by decide) more
    rw [withReturns_cons (by decide), withReturns_cons hfeed]
    simp only [number, hd, if_true, htake, hdrop]
  · have hwhole : ∀ d more, cs = '.' :: d :: more → d.isDigit = false := by simpa using hfraction
    rw [number_whole hwhole]
    refine number_whole fun d more hcs => ?_
    cases cs with
    | nil => cases hcs
    | cons c cs =>
      by_cases hc : c = '\n'
      · subst hc
        cases hcs
      · rw [withReturns_cons hc, List.cons.injEq] at hcs
        obtain ⟨rfl, hcs⟩ := hcs
        rcases head?_withReturns (show d ∈ (withReturns cs).head? by rw [hcs]; rfl) with ⟨rfl, -⟩ | hhead
        · decide
        · obtain ⟨rest, rfl⟩ := List.head?_eq_some_iff.mp hhead
          exact hwhole d rest rfl

theorem mark?_withReturns {cs rest : List Char} {m : Mark} (h : mark? cs = some (m, rest)) :
    mark? (withReturns cs) = some (m, withReturns rest) := by
  have hspelling : '\n' ∉ m.spelling.toList := by cases m <;> decide
  obtain rfl := mark?_append h
  rw [withReturns_append, withReturns_of_not_mem hspelling]
  cases rest with
  | nil => exact mark?_spelling m [] (by simp)
  | cons d rest =>
    by_cases hfeed : d = '\n'
    · subst hfeed
      exact mark?_spelling m _ (by simp)
    rw [withReturns_cons hfeed]
    exact mark?_of_next h (withReturns rest)

theorem afterQuote_withReturns {cs : List Char} {t : Token} (ht : (afterQuote cs).1.item = .token t)
    (hu : t ≠ .unclosed .string) (hfeed : '\n' ∉ (afterQuote cs).1.text) :
    afterQuote (withReturns cs) = ((afterQuote cs).1, withReturns (afterQuote cs).2) := by
  have hsplit := stringBody_append cs
  have hclosed := stringBody_fst cs
  unfold afterQuote at ht hfeed ⊢
  generalize stringBody cs = s at ht hfeed hsplit hclosed
  obtain ⟨body, rest⟩ := s
  cases rest with
  | nil => exact absurd (Item.token.inj ht).symm hu
  | cons d rest =>
    by_cases hd : d = '"'
    · subst hd
      simp only at hsplit hclosed hfeed ⊢
      have hbody : '\n' ∉ body := fun h => hfeed (by simp [h])
      rw [← hsplit, withReturns_append, withReturns_of_not_mem hbody, withReturns_cons (by decide),
        stringBody_append_quote hclosed]
      rfl
    · simp only at ht
      split at ht
      · rename_i heq
        exact absurd (List.cons.inj heq).1 hd
      · exact absurd (Item.token.inj ht).symm hu

theorem afterApostrophe_withReturns {cs : List Char} {t : Token} (ht : (afterApostrophe cs).1.item = .token t)
    (hu : t ≠ .unclosed .character) (hfeed : '\n' ∉ (afterApostrophe cs).1.text) :
    afterApostrophe (withReturns cs) = ((afterApostrophe cs).1, withReturns (afterApostrophe cs).2) := by
  by_cases hbody : ∃ body rest, CharacterBody body ∧ cs = body ++ rest
  · obtain ⟨body, rest, hbody, rfl⟩ := hbody
    rw [afterApostrophe_body hbody] at ht hfeed ⊢
    unfold closeCharacter at ht hfeed ⊢
    split at ht
    · rename_i behind
      have hinside : '\n' ∉ body := fun h => hfeed (by simp [h])
      rw [withReturns_append, withReturns_of_not_mem hinside, afterApostrophe_body hbody,
        withReturns_cons (by decide)]
      rfl
    · exact absurd (Item.token.inj ht).symm hu
  · have halone : ∀ body rest, CharacterBody body → cs ≠ body ++ rest :=
      fun body rest h hcs => hbody ⟨body, rest, h, hcs⟩
    rw [afterApostrophe_alone halone] at ht
    exact absurd (Item.token.inj ht).symm hu

/-- A token without a line feed in it is cut off as before. -/
theorem cut_withReturns {c : Char} {cs : List Char} {t : Token} (ht : (cut c cs).1.item = .token t)
    (hn : t ≠ .newline) (hu : ∀ what, t ≠ .unclosed what) (hfeed : '\n' ∉ (cut c cs).1.text) :
    cut c (withReturns cs) = ((cut c cs).1, withReturns (cut c cs).2) := by
  by_cases hgap : isGap c = true
  · rw [cut, if_pos hgap] at ht
    cases ht
  by_cases hline : c = '\n'
  · rw [cut, if_neg hgap, if_pos hline] at ht
    exact absurd (Item.token.inj ht).symm hn
  by_cases hbrace : c = '\x7b'
  · rw [cut, if_neg hgap, if_neg hline, if_pos hbrace, afterBrace] at ht
    split at ht
    · exact absurd (Item.token.inj ht).symm (hu _)
    · cases ht
  simp only [cut, if_neg hgap, if_neg hline, if_neg hbrace] at ht hfeed ⊢
  by_cases hquote : c = '"'
  · rw [if_pos hquote] at ht hfeed ⊢
    rw [if_pos hquote]
    exact afterQuote_withReturns ht (hu _) hfeed
  rw [if_neg hquote] at ht hfeed ⊢
  rw [if_neg hquote]
  by_cases hapostrophe : c = '\''
  · rw [if_pos hapostrophe] at ht hfeed ⊢
    rw [if_pos hapostrophe]
    exact afterApostrophe_withReturns ht (hu _) hfeed
  rw [if_neg hapostrophe] at ht ⊢
  rw [if_neg hapostrophe]
  by_cases hdigit : c.isDigit = true
  · obtain ⟨htake, hdrop⟩ := takeWhile_withReturns (p := Char.isDigit) (by decide) (by decide) cs
    rw [if_pos hdigit, if_pos hdigit, htake, hdrop]
    exact number_withReturns _ _
  rw [if_neg hdigit] at ht ⊢
  rw [if_neg hdigit]
  by_cases halpha : c.isAlpha = true
  · obtain ⟨htake, hdrop⟩ := takeWhile_withReturns (p := Char.isAlphanum) (by decide) (by decide) cs
    rw [if_pos halpha, if_pos halpha, htake, hdrop]
  rw [if_neg halpha] at ht ⊢
  rw [if_neg halpha]
  cases hmark : mark? (c :: cs) with
  | none =>
    rw [hmark] at ht
    cases ht
  | some found =>
    obtain ⟨m, rest⟩ := found
    have hreturns := mark?_withReturns hmark
    rw [withReturns_cons hline] at hreturns
    rw [hreturns]

end Scan

/-- What carriage returns do to the pieces of a text. Tokens stay, comments take the carriage returns in, and one goes
in front of each line end: behind the blanks there, or alone. -/
inductive Returned : List Piece → List Piece → Prop where
  | nil : Returned [] []
  | gap (text : List Char) {ps qs : List Piece} (h : Returned ps qs) :
      Returned (⟨.gap, text⟩ :: ps) (⟨.gap, withReturns text⟩ :: qs)
  | lineEnd {ps qs : List Piece} (h : Returned ps qs) :
      Returned (⟨.token .newline, ['\n']⟩ :: ps) (⟨.gap, ['\r']⟩ :: ⟨.token .newline, ['\n']⟩ :: qs)
  | blankLineEnd (blanks : List Char) {ps qs : List Piece} (h : Returned ps qs) :
      Returned (⟨.gap, blanks⟩ :: ⟨.token .newline, ['\n']⟩ :: ps)
        (⟨.gap, blanks ++ ['\r']⟩ :: ⟨.token .newline, ['\n']⟩ :: qs)
  | content {t : Token} {text : List Char} (hn : t ≠ .newline) (hu : ∀ what, t ≠ .unclosed what) {ps qs : List Piece}
      (h : Returned ps qs) : Returned (⟨.token t, text⟩ :: ps) (⟨.token t, text⟩ :: qs)

/-- A piece that the layout pass accepts, on one line if it has content. -/
def Piece.Plain (p : Piece) : Prop :=
  p.item = .gap ∨ p.item = .token .newline ∨
    ∃ t, p.item = .token t ∧ t ≠ .newline ∧ (∀ what, t ≠ .unclosed what) ∧ '\n' ∉ p.text

theorem pieces_return_feed (cs : List Char) :
    pieces (withReturns ('\n' :: cs)) = ⟨.gap, ['\r']⟩ :: ⟨.token .newline, ['\n']⟩ :: pieces (withReturns cs) := by
  have hblank : pieces (['\r'] ++ '\n' :: withReturns cs) = ⟨.gap, ['\r']⟩ :: pieces ('\n' :: withReturns cs) :=
    pieces_blanks (by simp) (by simp [Scan.isGap]) (by simp [Scan.isGap])
  rw [withReturns_feed, ← pieces_feed]
  exact hblank

/-- Blanks in front of a line end take the carriage return in. -/
theorem pieces_blanks_return_feed {blanks : List Char} (hblanks : ∀ c ∈ blanks, Scan.isGap c) (cs : List Char) :
    pieces (blanks ++ withReturns ('\n' :: cs)) =
      ⟨.gap, blanks ++ ['\r']⟩ :: ⟨.token .newline, ['\n']⟩ :: pieces (withReturns cs) := by
  have hall : ∀ c ∈ blanks ++ ['\r'], Scan.isGap c := by
    intro c hc
    rcases List.mem_append.mp hc with hc | hc
    · exact hblanks c hc
    · rw [List.mem_singleton.mp hc]
      rfl
  have hblank : pieces ((blanks ++ ['\r']) ++ '\n' :: withReturns cs) =
      ⟨.gap, blanks ++ ['\r']⟩ :: pieces ('\n' :: withReturns cs) :=
    pieces_blanks (by simp) hall (by simp [Scan.isGap])
  rw [withReturns_feed, ← pieces_feed, ← hblank, List.append_assoc]
  rfl

theorem not_mem_of_isGap {blanks : List Char} (h : ∀ c ∈ blanks, Scan.isGap c = true) : '\n' ∉ blanks := by
  intro hfeed
  have hgap := h '\n' hfeed
  revert hgap
  decide

section

variable {rest : List Char} (hplain : ∀ p ∈ pieces rest, p.Plain)
  (ih : ∀ cs : List Char, cs.length ≤ rest.length → (∀ p ∈ pieces cs, p.Plain) →
    Returned (pieces cs) (pieces (withReturns cs)))
include hplain ih

theorem returned_blanks {blanks : List Char} (hne : blanks ≠ []) (hblanks : ∀ c ∈ blanks, Scan.isGap c = true)
    (hrest : ∀ c ∈ rest.head?, Scan.isGap c = false) :
    Returned (⟨.gap, blanks⟩ :: pieces rest) (pieces (withReturns (blanks ++ rest))) := by
  have hfeeds := not_mem_of_isGap hblanks
  rw [withReturns_append, withReturns_of_not_mem hfeeds]
  by_cases hfeed : '\n' ∈ rest.head?
  · obtain ⟨more, rfl⟩ := List.head?_eq_some_iff.mp hfeed
    rw [pieces_feed] at hplain ⊢
    rw [pieces_blanks_return_feed hblanks]
    exact .blankLineEnd blanks (ih more (by simp) (List.forall_mem_cons.mp hplain).2)
  · have hhead : ∀ c ∈ (withReturns rest).head?, Scan.isGap c = false := by
      intro c hc
      rcases head?_withReturns hc with ⟨-, hmem⟩ | hmem
      · exact absurd hmem hfeed
      · exact hrest c hmem
    have hgap := Returned.gap blanks (ih rest (Nat.le_refl _) hplain)
    rw [withReturns_of_not_mem hfeeds] at hgap
    rw [pieces_blanks hne hblanks hhead]
    exact hgap

theorem returned_comment {body : List Char} (hbody : '\x7d' ∉ body) :
    Returned (⟨.gap, '\x7b' :: body ++ ['\x7d']⟩ :: pieces rest)
      (pieces (withReturns ('\x7b' :: body ++ ['\x7d'] ++ rest))) := by
  have hbody' : '\x7d' ∉ withReturns body := by
    intro h
    rcases mem_withReturns h with h | h
    · cases h
    · exact hbody h
  have htext : withReturns ('\x7b' :: body ++ ['\x7d']) = '\x7b' :: withReturns body ++ ['\x7d'] := by
    rw [withReturns_append, withReturns_cons (by decide)]
    rfl
  have hgap := Returned.gap ('\x7b' :: body ++ ['\x7d']) (ih rest (Nat.le_refl _) hplain)
  rw [htext, ← pieces_comment hbody'] at hgap
  rw [withReturns_append, htext]
  simpa using hgap

end

/-- By induction on the length of the text, because blanks and the line end behind them are taken together. -/
theorem returned_pieces {cs : List Char} (h : ∀ p ∈ pieces cs, p.Plain) :
    Returned (pieces cs) (pieces (withReturns cs)) := by
  induction hlength : cs.length using Nat.strongRecOn generalizing cs with
  | ind n ih =>
    cases cs with
    | nil =>
      rw [withReturns_nil, pieces]
      exact .nil
    | cons c cs =>
      have happend := Scan.cut_append c cs
      have hne := Scan.cut_text_ne_nil c cs
      have hshort := Scan.cut_rest_length c cs
      have hmem : (Scan.cut c cs).1 ∈ pieces (c :: cs) := by
        rw [pieces]
        exact List.mem_cons_self
      obtain ⟨hfirst, hplain⟩ : (Scan.cut c cs).1.Plain ∧ ∀ p ∈ pieces (Scan.cut c cs).2, p.Plain := by
        rw [pieces] at h
        exact List.forall_mem_cons.mp h
      have ih : ∀ ds : List Char, ds.length ≤ (Scan.cut c cs).2.length → (∀ p ∈ pieces ds, p.Plain) →
          Returned (pieces ds) (pieces (withReturns ds)) :=
        fun ds hds hplain => ih ds.length (by omega) hplain rfl
      rw [pieces]
      show Returned (⟨(Scan.cut c cs).1.item, (Scan.cut c cs).1.text⟩ :: pieces (Scan.cut c cs).2) _
      rcases hfirst with hgap | hfeed | ⟨t, ht, hn, hu, hfeeds⟩
      · rw [hgap]
        rcases Scan.cut_gap hgap with ⟨hblanks, hrest⟩ | ⟨body, hcomment, hbody⟩
        · rw [← happend]
          exact returned_blanks hplain ih hne hblanks hrest
        · rw [← happend, hcomment]
          exact returned_comment hplain ih hbody
      · have htext := feed_of_mem_pieces hmem hfeed
        rw [hfeed, ← happend, htext, List.singleton_append, pieces_return_feed]
        exact .lineEnd (ih _ (Nat.le_refl _) hplain)
      · have hc : c ≠ '\n' := by
          obtain ⟨d, ds, hds⟩ := List.exists_cons_of_ne_nil hne
          rw [hds, List.cons_append, List.cons.injEq] at happend
          rw [hds] at hfeeds
          exact fun hfeed => hfeeds (by rw [happend.1, hfeed]; exact List.mem_cons_self)
        rw [withReturns_cons hc, pieces, Scan.cut_withReturns ht hn hu hfeeds, ht]
        show Returned _ (⟨(Scan.cut c cs).1.item, (Scan.cut c cs).1.text⟩ :: _)
        rw [ht]
        exact .content hn hu (ih _ (Nat.le_refl _) hplain)

/-! ### Layout -/

/-- The token, the text and the line of a lexeme. -/
def Lexeme.withoutSpan (l : Lexeme) : Token × String × Nat :=
  (l.token, l.text, l.line)

namespace Layout

/-- Two states that differ in offsets, and in the margin. -/
structure InStep (st st' : Layout) : Prop where
  depth : st'.depth = st.depth
  lineOpen : st'.lineOpen = st.lineOpen
  lastLine : st'.lastLine = st.lastLine
  line : st'.position.line = st.position.line

/-- Two states in texts of which the second has carriage returns. The margin only counts at the start of a line. -/
structure Beside (st st' : Layout) : Prop extends InStep st st' where
  margin : st.lineOpen = false → st'.margin = withReturns st.margin

theorem beside_start : Beside start start where
  depth := rfl
  lineOpen := rfl
  lastLine := rfl
  line := rfl
  margin _ := rfl

section

variable {st st' : Layout}

theorem InStep.pass (h : InStep st st') {text text' : List Char} (hfeeds : lineFeeds text' = lineFeeds text) :
    InStep (st.pass text) (st'.pass text') where
  depth := h.depth
  lineOpen := h.lineOpen
  lastLine := h.lastLine
  line := by
    show st'.position.line + lineFeeds text' = st.position.line + lineFeeds text
    rw [h.line, hfeeds]

theorem Beside.pass (h : Beside st st') (text : List Char) : Beside (st.pass text) (st'.pass (withReturns text)) where
  toInStep := h.toInStep.pass (lineFeeds_withReturns text)
  margin := by
    intro hopen
    have hopen : st.lineOpen = false := hopen
    simp [Layout.pass, h.lineOpen, hopen, h.margin hopen, withReturns_append]

/-- A line end clears the margin, whatever was in it. -/
theorem InStep.endLine (h : InStep st st') :
    (st'.endLine ['\n']).1.map Lexeme.withoutSpan = (st.endLine ['\n']).1.map Lexeme.withoutSpan ∧
      Beside (st.endLine ['\n']).2 (st'.endLine ['\n']).2 := by
  have hline : (st'.position.advance ['\n']).line = (st.position.advance ['\n']).line := by
    show st'.position.line + 1 = st.position.line + 1
    rw [h.line]
  cases hopen : st.lineOpen with
  | false =>
    rw [endLine_closed hopen, endLine_closed (h.lineOpen.trans hopen)]
    exact ⟨rfl, ⟨h.depth, rfl, h.lastLine, hline⟩, fun _ => rfl⟩
  | true =>
    rw [endLine_open hopen, endLine_open (h.lineOpen.trans hopen)]
    refine ⟨?_, ⟨h.depth, rfl, h.line, hline⟩, fun _ => rfl⟩
    show [(Token.newline, String.ofList ['\n'], st'.position.line)] = [(Token.newline, _, st.position.line)]
    rw [h.line]

theorem Beside.level (h : Beside st st') (hopen : st.lineOpen = false) {level : Nat} (hlevel : st.level = .ok level) :
    st'.level = .ok level := by
  have hleading : st'.leading = st.leading := by
    rw [leading, h.margin hopen]
    exact (takeWhile_withReturns (by decide) (by decide) st.margin).1
  unfold Layout.level at hlevel ⊢
  rw [hleading]
  dsimp only at hlevel ⊢
  split at hlevel
  · rename_i heven
    rw [if_pos heven]
    exact hlevel
  · cases hlevel

theorem map_withoutSpan_change (place : Position) (depth level : Nat) :
    (change place depth level).map Lexeme.withoutSpan =
      List.replicate (level - depth) (.indent, "", place.line) ++
        List.replicate (depth - level) (.dedent, "", place.line) := by
  rw [change, List.map_append, List.map_replicate, List.map_replicate]
  rfl

theorem Beside.content (h : Beside st st') {t : Token} {text : List Char} {head : List Lexeme} {next : Layout}
    (hcontent : st.content t text = .ok (head, next)) :
    ∃ head' next', st'.content t text = .ok (head', next') ∧
      head'.map Lexeme.withoutSpan = head.map Lexeme.withoutSpan ∧ Beside next next' := by
  have hlexeme : (st'.lexemeAt t text).withoutSpan = (st.lexemeAt t text).withoutSpan := by
    show (t, String.ofList text, st'.position.line) = (t, String.ofList text, st.position.line)
    rw [h.line]
  have hline : (st'.position.advance text).line = (st.position.advance text).line := by
    show st'.position.line + lineFeeds text = st.position.line + lineFeeds text
    rw [h.line]
  rcases content_cases hcontent with ⟨hopen, rfl, rfl⟩ | ⟨hopen, level, hlevel, rfl, rfl⟩
  · refine ⟨_, _, content_open (h.lineOpen.trans hopen) t text, ?_, ⟨h.depth, rfl, h.line, hline⟩, nofun⟩
    rw [List.map_singleton, List.map_singleton, hlexeme]
  · refine ⟨_, _, content_closed (h.lineOpen.trans hopen) (h.level hopen hlevel) t text, ?_,
      ⟨rfl, rfl, h.line, hline⟩, nofun⟩
    rw [List.map_append, List.map_append, map_withoutSpan_change, map_withoutSpan_change, h.depth, h.line,
      List.map_singleton, List.map_singleton, hlexeme]

theorem InStep.finish (h : InStep st st') : st'.finish.map Lexeme.withoutSpan = st.finish.map Lexeme.withoutSpan := by
  unfold Layout.finish
  rw [List.map_append, List.map_append, List.map_replicate, List.map_replicate, h.depth, h.lineOpen, h.lastLine]
  cases st.lineOpen <;> rfl

end

/-- If the first pieces are accepted in the first state, so are the others in the second, with the same lexemes but for
their spans. -/
def RunsAlike (st st' : Layout) (ps qs : List Piece) : Prop :=
  ∀ ls, st.run ps = .ok ls → ∃ ls', st'.run qs = .ok ls' ∧ ls'.map Lexeme.withoutSpan = ls.map Lexeme.withoutSpan

section

variable {st st' : Layout} {ps qs : List Piece}

theorem runsAlike_cons {p q : Piece} {head head' : List Lexeme} {next next' : Layout}
    (hstep : st.step p = .ok (head, next)) (hstep' : st'.step q = .ok (head', next'))
    (hhead : head'.map Lexeme.withoutSpan = head.map Lexeme.withoutSpan) (h : RunsAlike next next' ps qs) :
    RunsAlike st st' (p :: ps) (q :: qs) := by
  intro ls hrun
  obtain ⟨front, reached, back, hfront, hback, rfl⟩ := run_cons_ok.mp hrun
  obtain ⟨rfl, rfl⟩ := Prod.mk.inj (Except.ok.inj (hstep.symm.trans hfront))
  obtain ⟨back', hback', hmap⟩ := h back hback
  refine ⟨head' ++ back', run_cons_ok.mpr ⟨head', next', back', hstep', hback', rfl⟩, ?_⟩
  rw [List.map_append, List.map_append, hhead, hmap]

theorem runsAlike_lineEnd (h : InStep st st') (hrest : ∀ {next next'}, Beside next next' → RunsAlike next next' ps qs) :
    RunsAlike st st' (⟨.token .newline, ['\n']⟩ :: ps) (⟨.token .newline, ['\n']⟩ :: qs) := by
  obtain ⟨hhead, hnext⟩ := h.endLine
  exact runsAlike_cons (step_feed st ['\n']) (step_feed st' ['\n']) hhead (hrest hnext)

end

/-- Along the pieces, the two states stay beside each other. -/
theorem runsAlike_of_returned {ps qs : List Piece} (h : Returned ps qs) {st st' : Layout} (hst : Beside st st') :
    RunsAlike st st' ps qs := by
  induction h generalizing st st' with
  | nil =>
    intro ls hrun
    cases hrun
    exact ⟨st'.finish, rfl, hst.toInStep.finish⟩
  | gap text _ ih => exact runsAlike_cons (step_gap st text) (step_gap st' _) rfl (ih (hst.pass text))
  | lineEnd _ ih =>
    -- the carriage return is a piece of its own, of which the state takes no notice
    have hpass : InStep st (st'.pass ['\r']) := ⟨hst.depth, hst.lineOpen, hst.lastLine, hst.line⟩
    intro ls hrun
    rw [run_cons_of_silent (step_gap st' ['\r'])]
    exact runsAlike_lineEnd hpass ih ls hrun
  | blankLineEnd blanks _ ih =>
    have hfeeds : lineFeeds (blanks ++ ['\r']) = lineFeeds blanks := lineFeeds_append blanks ['\r']
    exact runsAlike_cons (step_gap st blanks) (step_gap st' _) rfl
      (runsAlike_lineEnd (hst.toInStep.pass hfeeds) ih)
  | @content t text hn hu _ _ _ ih =>
    intro ls hrun
    obtain ⟨head, next, rest, hstep, -⟩ := run_cons_ok.mp hrun
    rw [step_content st text hn hu] at hstep
    obtain ⟨head', next', hstep', hhead, hnext⟩ := hst.content hstep
    rw [← step_content st text hn hu] at hstep
    rw [← step_content st' text hn hu] at hstep'
    exact runsAlike_cons hstep hstep' hhead (ih hnext) ls hrun

/-- Of the pieces that are accepted, those with content show their texts. -/
theorem piece_of_run {st : Layout} {ps : List Piece} {ls : List Lexeme} (hrun : st.run ps = .ok ls) {p : Piece}
    (hp : p ∈ ps) : p.item = .gap ∨ p.item = .token .newline ∨
      ∃ t, p.item = .token t ∧ t ≠ .newline ∧ (∀ what, t ≠ .unclosed what) ∧
        ∃ l ∈ ls, l.token = t ∧ l.text = .ofList p.text := by
  induction ps generalizing st ls with
  | nil => cases hp
  | cons q ps ih =>
    obtain ⟨head, next, rest, hstep, hrest, rfl⟩ := run_cons_ok.mp hrun
    rcases List.mem_cons.mp hp with rfl | hp
    · rcases step_cases hstep with ⟨hgap, -⟩ | ⟨hfeed, -⟩ | ⟨t, ht, hn, hu, hcontent⟩
      · exact .inl hgap
      · exact .inr (.inl hfeed)
      · refine .inr (.inr ⟨t, ht, hn, hu, st.lexemeAt t p.text, List.mem_append_left _ ?_, rfl, rfl⟩)
        rcases content_cases hcontent with ⟨-, rfl, -⟩ | ⟨-, level, -, rfl, -⟩
        · exact List.mem_singleton_self _
        · exact List.mem_append_right _ (List.mem_singleton_self _)
    · refine (ih hrest hp).imp_right (Or.imp_right fun h => ?_)
      obtain ⟨t, ht, hn, hu, l, hl, hshown⟩ := h
      exact ⟨t, ht, hn, hu, l, List.mem_append_right _ hl, hshown⟩

end Layout

/-- A source in which no token runs over a line end has the same tokens, with the same texts and on the same lines, when
its lines end in a carriage return and a line feed. This holds also where it has carriage returns of its own. -/
theorem lexemes_withReturns {source : String} {ls : List Lexeme} (h : lexemes source = .ok ls)
    (hfeeds : ∀ l ∈ ls, l.token ≠ .newline → '\n' ∉ l.text.toList) :
    ∃ ls', lexemes (.ofList (withReturns source.toList)) = .ok ls' ∧
      ls'.map (fun l => (l.token, l.text, l.line)) = ls.map (fun l => (l.token, l.text, l.line)) := by
  have hplain : ∀ p ∈ pieces source.toList, p.Plain := by
    intro p hp
    refine (Layout.piece_of_run h hp).imp_right (Or.imp_right fun hcontent => ?_)
    obtain ⟨t, ht, hn, hu, l, hl, hltoken, hltext⟩ := hcontent
    refine ⟨t, ht, hn, hu, ?_⟩
    have hline := hfeeds l hl (by rw [hltoken]; exact hn)
    rwa [hltext, String.toList_ofList] at hline
  have halike := Layout.runsAlike_of_returned (returned_pieces hplain) Layout.beside_start
  rw [lexemes, String.toList_ofList]
  exact halike ls h

/-- Blanks in front of a line end, an empty line, a comment over two lines in a margin, and a last line that does not
end. -/
theorem lexemes_withReturns_margin :
    ∃ ls, lexemes "a \r\n\r\n\t\x7bc\r\nd\x7db\r\ne" = .ok ls ∧
      ls.map (fun l => (l.token, l.text, l.line)) =
        [(.name "a", "a", 1), (.newline, "\n", 1), (.indent, "", 4), (.name "b", "b", 4), (.newline, "\n", 4),
          (.dedent, "", 5), (.name "e", "e", 5), (.newline, "", 5)] := by
  obtain ⟨ls, hls, hview⟩ : ∃ ls, lexemes "a \n\n\t\x7bc\nd\x7db\ne" = .ok ls ∧
      ls.map (fun l => (l.token, l.text, l.line)) =
        [(.name "a", "a", 1), (.newline, "\n", 1), (.indent, "", 4), (.name "b", "b", 4), (.newline, "\n", 4),
          (.dedent, "", 5), (.name "e", "e", 5), (.newline, "", 5)] := map_eq_ok.mp (by decide +kernel)
  have hfeeds : ∀ l ∈ ls, l.token ≠ .newline → '\n' ∉ l.text.toList := by
    have hshown : ∀ v ∈ ls.map (fun l => (l.token, l.text, l.line)), v.1 ≠ .newline → '\n' ∉ v.2.1.toList := by
      rw [hview]
      decide
    exact List.forall_mem_map.mp hshown
  obtain ⟨ls', hls', hsame⟩ := lexemes_withReturns hls hfeeds
  exact ⟨ls', hls', hsame.trans hview⟩

end Offside
