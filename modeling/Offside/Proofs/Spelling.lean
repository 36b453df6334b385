import Offside.Token.Scan

/-!
# The lexical grammar

`Spells` says, apart from the scanner, which texts a token with content can be written as. The scanner is sound
for it: every such token it cuts off is spelled by its text. It is also complete: the spelling of a token is cut
off whole wherever the next character cannot extend it, so the scanner reads a token again from its own text.
-/

namespace Offside

/-- A stretch that satisfies a predicate, in front of something that does not, is the stretch taken. -/
theorem takeWhile_dropWhile_append {p : Char → Bool} {l r : List Char} (hl : ∀ c ∈ l, p c)
    (hr : ∀ c ∈ r.head?, p c = false) :
    (l ++ r).takeWhile p = l ∧ (l ++ r).dropWhile p = r := by
  rw [List.takeWhile_append_of_pos hl, List.dropWhile_append_of_pos hl]
  cases r with
  | nil => simp
  | cons c cs =>
    have hc : p c = false := hr c rfl
    simp [hc]

/-- The texts from which a token with content can be read. -/
inductive Spells : Token → List Char → Prop where
  | word (c : Char) (cs : List Char) (head : c.isAlpha) (tail : ∀ d ∈ cs, d.isAlphanum) :
      Spells (Scan.wordToken (.ofList (c :: cs))) (c :: cs)
  | integer (digits : List Char) (nonempty : digits ≠ []) (all : ∀ d ∈ digits, d.isDigit)
      (fits : Decimal.digitsValue digits ≤ magnitudeLimit) :
      Spells (.integer (Decimal.digitsValue digits)) digits
  | real (whole fraction : List Char) (nonempty : whole ≠ []) (all : ∀ d ∈ whole, d.isDigit)
      (nonempty' : fraction ≠ []) (all' : ∀ d ∈ fraction, d.isDigit) :
      Spells (.real (Decimal.ofParts whole fraction)) (whole ++ '.' :: fraction)
  | string (body : List Char) (closed : Scan.stringBody body = (body, [])) :
      Spells (.string (.ofList (Scan.unescape body))) ('"' :: body ++ ['"'])
  | character (c : Char) (quote : c ≠ '\'') (backslash : c ≠ '\\') :
      Spells (.character c) ['\'', c, '\'']
  | escapedCharacter (escape c : Char) (feed : escape ≠ '\n') (resolves : Scan.unescape ['\\', escape] = [c]) :
      Spells (.character c) ['\'', '\\', escape, '\'']
  | mark (m : Mark) : Spells (.mark m) m.spelling.toList

/-- Whether a token is over when this character follows its text. -/
def Token.endsBefore : Token → Char → Bool
  | .keyword _, c | .name _, c => !c.isAlphanum
  | .integer _, c => !c.isDigit && c ≠ '.'
  | .real _, c => !c.isDigit
  | .mark _, c => c ≠ '=' && c ≠ '>'
  | _, _ => true

namespace Scan

theorem isGap_iff (c : Char) : isGap c = true ↔ c = ' ' ∨ c = '\t' ∨ c = '\r' ∨ c = '\x0c' := by
  simp [isGap, or_assoc]

/-- A letter starts no piece but a word. -/
theorem of_isAlpha {c : Char} (h : c.isAlpha) :
    isGap c = false ∧ c ≠ '\n' ∧ c ≠ '\x7b' ∧ c ≠ '"' ∧ c ≠ '\'' ∧ c.isDigit = false := by
  refine ⟨?_, ?_, ?_, ?_, ?_, ?_⟩
  · rw [Bool.eq_false_iff, Ne, isGap_iff]
    rintro (rfl | rfl | rfl | rfl) <;> revert h <;> decide
  · rintro rfl; revert h; decide
  · rintro rfl; revert h; decide
  · rintro rfl; revert h; decide
  · rintro rfl; revert h; decide
  · delta Char.isAlpha Char.isUpper Char.isLower at h
    simp only [Bool.or_eq_true, Bool.and_eq_true, decide_eq_true_eq, UInt32.le_iff_toNat_le] at h
    simp only [Char.isDigit, Bool.and_eq_false_iff, decide_eq_false_iff_not, UInt32.le_iff_toNat_le]
    simp at h ⊢
    omega

/-- A digit starts no piece but a number. -/
theorem of_isDigit {c : Char} (h : c.isDigit) :
    isGap c = false ∧ c ≠ '\n' ∧ c ≠ '\x7b' ∧ c ≠ '"' ∧ c ≠ '\'' := by
  refine ⟨?_, ?_, ?_, ?_, ?_⟩
  · rw [Bool.eq_false_iff, Ne, isGap_iff]
    rintro (rfl | rfl | rfl | rfl) <;> revert h <;> decide
  · rintro rfl; revert h; decide
  · rintro rfl; revert h; decide
  · rintro rfl; revert h; decide
  · rintro rfl; revert h; decide

theorem mark?_spelling (m : Mark) (rest : List Char) (h : ∀ c ∈ rest.head?, c ≠ '=' ∧ c ≠ '>') :
    mark? (m.spelling.toList ++ rest) = some (m, rest) := by
  cases rest with
  | nil => cases m <;> rfl
  | cons c cs =>
    have hc : c ≠ '=' ∧ c ≠ '>' := h c rfl
    cases m <;> simp [Mark.spelling, mark?, hc]

/-- Where a mark ends is seen from the one character behind it. -/
theorem mark?_of_next {m : Mark} {c : Char} {cs : List Char}
    (h : mark? (m.spelling.toList ++ c :: cs) = some (m, c :: cs)) (ds : List Char) :
    mark? (m.spelling.toList ++ c :: ds) = some (m, c :: ds) := by
  -- only these two characters can make a mark longer, and here they have not
  by_cases hequal : c = '='
  · subst hequal
    cases m <;> simp [mark?, Mark.spelling] at h ⊢
  by_cases hgreater : c = '>'
  · subst hgreater
    cases m <;> simp [mark?, Mark.spelling] at h ⊢
  exact mark?_spelling m (c :: ds) (by simpa using ⟨hequal, hgreater⟩)

/-- A mark starts with a character that starts nothing else. -/
theorem cut_mark (m : Mark) (rest : List Char) (h : ∀ c ∈ rest.head?, c ≠ '=' ∧ c ≠ '>') :
    ∃ c cs, m.spelling.toList = c :: cs ∧ cut c (cs ++ rest) = (⟨.token (.mark m), c :: cs⟩, rest) := by
  have hm := mark?_spelling m rest h
  have hne : m.spelling.toList ≠ [] := by cases m <;> simp [Mark.spelling]
  obtain ⟨c, cs, hcs⟩ := List.exists_cons_of_ne_nil hne
  refine ⟨c, cs, hcs, ?_⟩
  have hc : isGap c = false ∧ c ≠ '\n' ∧ c ≠ '\x7b' ∧ c ≠ '"' ∧ c ≠ '\'' ∧ c.isDigit = false ∧
      c.isAlpha = false := by
    cases m <;> simp [Mark.spelling] at hcs <;> rw [← hcs.1] <;> decide
  rw [hcs] at hm
  simp only [List.cons_append] at hm
  simp [cut, hc, hm, hcs]


/-- The inside of a string literal is itself a closed inside. -/
theorem stringBody_fst (cs : List Char) : stringBody (stringBody cs).1 = ((stringBody cs).1, []) := by
  fun_induction stringBody cs with
  | case1 => rfl
  | case2 cs => rfl
  | case3 c cs hc body rest heq ih =>
    rw [heq] at ih
    simp [stringBody, hc, ih]
  | case4 c cs hne hc => rfl
  | case5 c cs hne hc body rest heq ih =>
    rw [heq] at ih
    simp only [not_or] at hc
    simp only at ih ⊢
    rw [stringBody.eq_3 _ _ (fun _ _ h => absurd h hc.2), if_neg (by simp [hc]), ih]

/-- Behind a closed inside, the inside of a string literal goes on with that of the rest. -/
theorem stringBody_append_of_closed {body : List Char} (h : stringBody body = (body, [])) (rest : List Char) :
    stringBody (body ++ rest) = (body ++ (stringBody rest).1, (stringBody rest).2) := by
  fun_induction stringBody body with
  | case1 => rfl
  | case2 cs => simp at h
  | case3 c cs hc body' rest' heq ih =>
    simp only [Prod.mk.injEq, List.cons.injEq, true_and] at h
    obtain ⟨rfl, rfl⟩ := h
    simp [stringBody, hc, ih heq]
  | case4 c cs hne hc => simp at h
  | case5 c cs hne hc body' rest' heq ih =>
    simp only [Prod.mk.injEq, List.cons.injEq, true_and] at h
    obtain ⟨rfl, rfl⟩ := h
    simp only [not_or] at hc
    rw [List.cons_append, stringBody.eq_3 _ _ (fun _ _ h => absurd h hc.2), if_neg (by simp [hc]), ih heq]
    rfl

theorem stringBody_append_quote {body : List Char} (h : stringBody body = (body, [])) (rest : List Char) :
    stringBody (body ++ '"' :: rest) = (body, '"' :: rest) := by
  rw [stringBody_append_of_closed h]
  simp [stringBody]

theorem spells_afterQuote {cs : List Char} {t : Token} (h : (afterQuote cs).1.item = .token t)
    (hu : t ≠ .unclosed .string) : Spells t (afterQuote cs).1.text := by
  have hb := stringBody_fst cs
  simp only [afterQuote] at h ⊢
  generalize stringBody cs = s at h hb
  obtain ⟨body, rest⟩ := s
  simp only at h hb ⊢
  split at h
  · simp only [Item.token.injEq] at h
    rw [← h]
    exact .string body hb
  · simp only [Item.token.injEq] at h
    exact absurd h.symm hu

theorem afterQuote_spelled {body : List Char} (h : stringBody body = (body, [])) (rest : List Char) :
    afterQuote (body ++ '"' :: rest) =
      (⟨.token (.string (.ofList (unescape body))), '"' :: body ++ ['"']⟩, rest) := by
  simp only [afterQuote, stringBody_append_quote h]

theorem spells_closeCharacter_plain {c : Char} {rest : List Char} {t : Token} (hq : c ≠ '\'') (hb : c ≠ '\\')
    (h : (closeCharacter [c] rest).1.item = .token t) (hu : t ≠ .unclosed .character) :
    Spells t (closeCharacter [c] rest).1.text := by
  unfold closeCharacter at h ⊢
  split at h
  · have hc : unescape [c] = [c] := by simp [unescape]
    simp only [characterItem, hc, Item.token.injEq] at h
    rw [← h]
    exact .character c hq hb
  · simp only [Item.token.injEq] at h
    exact absurd h.symm hu

theorem spells_closeCharacter_escaped {e : Char} {rest : List Char} {t : Token} (hf : e ≠ '\n')
    (h : (closeCharacter ['\\', e] rest).1.item = .token t) (hu : t ≠ .unclosed .character) :
    Spells t (closeCharacter ['\\', e] rest).1.text := by
  unfold closeCharacter at h ⊢
  split at h
  · simp only [characterItem] at h
    split at h
    · rename_i c hc
      simp only [Item.token.injEq] at h
      rw [← h]
      exact .escapedCharacter e c hf hc
    · exact absurd h (by simp)
  · simp only [Item.token.injEq] at h
    exact absurd h.symm hu

theorem spells_afterApostrophe {cs : List Char} {t : Token} (h : (afterApostrophe cs).1.item = .token t)
    (hu : t ≠ .unclosed .character) : Spells t (afterApostrophe cs).1.text := by
  unfold afterApostrophe at h ⊢
  split at h
  · split at h
    · simp only [Item.token.injEq] at h
      exact absurd h.symm hu
    · rename_i hc
      simp only [hc, if_false]
      exact spells_closeCharacter_escaped hc h hu
  · split at h
    · simp only [Item.token.injEq] at h
      exact absurd h.symm hu
    · rename_i hc
      simp only [hc, if_false]
      rw [not_or] at hc
      exact spells_closeCharacter_plain hc.1 hc.2 h hu
  · simp only [Item.token.injEq] at h
    exact absurd h.symm hu


theorem spells_integerItem {digits : List Char} {t : Token} (hne : digits ≠ [])
    (hd : ∀ d ∈ digits, d.isDigit) (h : integerItem (Decimal.digitsValue digits) = .token t) :
    Spells t digits := by
  unfold integerItem at h
  split at h
  · rename_i hfit
    rw [← Item.token.inj h]
    exact .integer digits hne hd hfit
  · exact absurd h (by simp)

theorem spells_number {digits rest : List Char} {t : Token} (hne : digits ≠ [])
    (hd : ∀ d ∈ digits, d.isDigit) (h : (number digits rest).1.item = .token t) :
    Spells t (number digits rest).1.text := by
  unfold number at h ⊢
  split at h
  · rename_i d more
    split at h
    · rename_i hdigit
      simp only [hdigit, if_true]
      rw [← Item.token.inj h]
      refine .real digits _ hne hd (by simp) ?_
      intro e he
      rcases List.mem_cons.mp he with rfl | he
      · exact hdigit
      · exact List.all_eq_true.mp List.all_takeWhile e he
    · rename_i hdigit
      simp only [hdigit]
      exact spells_integerItem hne hd h
  · exact spells_integerItem hne hd h

theorem number_integer {digits rest : List Char} (hr : ∀ c ∈ rest.head?, c ≠ '.') :
    number digits rest = (⟨integerItem (Decimal.digitsValue digits), digits⟩, rest) := by
  unfold number
  split
  · exact absurd rfl (hr '.' rfl)
  · rfl

theorem number_real (digits : List Char) {fraction rest : List Char} (hne : fraction ≠ [])
    (hf : ∀ d ∈ fraction, d.isDigit) (hr : ∀ c ∈ rest.head?, c.isDigit = false) :
    number digits ('.' :: (fraction ++ rest)) =
      (⟨.token (.real (Decimal.ofParts digits fraction)), digits ++ '.' :: fraction⟩, rest) := by
  obtain ⟨d, ds, rfl⟩ := List.exists_cons_of_ne_nil hne
  have hd : d.isDigit := hf d (by simp)
  obtain ⟨ht, hrest⟩ := takeWhile_dropWhile_append (l := ds) (fun c hc => hf c (by simp [hc])) hr
  simp only [number, List.cons_append, hd, if_true, ht, hrest]

/-- A token that the scanner cuts off is a line feed, or it is spelled by the text cut off. -/
theorem cut_token {c : Char} {cs : List Char} {t : Token} (h : (cut c cs).1.item = .token t)
    (hu : ∀ what, t ≠ .unclosed what) :
    (t = .newline ∧ (cut c cs).1.text = ['\n']) ∨ Spells t (cut c cs).1.text := by
  by_cases hgap : isGap c
  · rw [cut, if_pos hgap] at h
    exact absurd h (by simp)
  by_cases hfeed : c = '\n'
  · rw [cut, if_neg hgap, if_pos hfeed] at h ⊢
    exact .inl ⟨(Item.token.inj h).symm, by rw [hfeed]⟩
  right
  by_cases hbrace : c = '\x7b'
  · rw [cut, if_neg hgap, if_neg hfeed, if_pos hbrace, afterBrace] at h
    split at h
    · exact absurd (Item.token.inj h).symm (hu _)
    · exact absurd h (by simp)
  by_cases hquote : c = '"'
  · rw [cut, if_neg hgap, if_neg hfeed, if_neg hbrace, if_pos hquote] at h ⊢
    exact spells_afterQuote h (hu _)
  by_cases hapostrophe : c = '\''
  · rw [cut, if_neg hgap, if_neg hfeed, if_neg hbrace, if_neg hquote, if_pos hapostrophe] at h ⊢
    exact spells_afterApostrophe h (hu _)
  rw [cut, if_neg hgap, if_neg hfeed, if_neg hbrace, if_neg hquote, if_neg hapostrophe] at h ⊢
  by_cases hdigit : c.isDigit
  · rw [if_pos hdigit] at h ⊢
    refine spells_number (by simp) ?_ h
    intro d hd
    rcases List.mem_cons.mp hd with rfl | hd
    · exact hdigit
    · exact List.all_eq_true.mp List.all_takeWhile d hd
  rw [if_neg hdigit] at h ⊢
  by_cases halpha : c.isAlpha
  · rw [if_pos halpha] at h ⊢
    rw [← Item.token.inj h]
    exact .word c _ halpha (List.all_eq_true.mp List.all_takeWhile)
  rw [if_neg halpha] at h ⊢
  split at h
  · rename_i m rest hm
    rw [← Item.token.inj h]
    exact .mark m
  · exact absurd h (by simp)

theorem wordToken_endsBefore (word : String) (c : Char) :
    (wordToken word).endsBefore c = !c.isAlphanum := by
  unfold wordToken
  split <;> rfl

/-- A spelled token is cut off whole when the next character cannot extend it. -/
theorem cut_spelled {t : Token} {text rest : List Char} (h : Spells t text)
    (hr : ∀ c ∈ rest.head?, t.endsBefore c) :
    ∃ c cs, text = c :: cs ∧ cut c (cs ++ rest) = (⟨.token t, text⟩, rest) := by
  cases h with
  | word c cs head tail =>
    refine ⟨c, cs, rfl, ?_⟩
    have hc := of_isAlpha head
    obtain ⟨ht, hd⟩ := takeWhile_dropWhile_append (r := rest) tail (by
      intro d hd
      simpa [wordToken_endsBefore] using hr d hd)
    simp [cut, hc, head, ht, hd]
  | integer digits nonempty all fits =>
    obtain ⟨d, ds, rfl⟩ := List.exists_cons_of_ne_nil nonempty
    refine ⟨d, ds, rfl, ?_⟩
    have hd : d.isDigit := all d (by simp)
    have hc := of_isDigit hd
    have hends : ∀ e ∈ rest.head?, e.isDigit = false ∧ e ≠ '.' := by
      intro e he
      simpa [Token.endsBefore] using hr e he
    obtain ⟨ht, hrest⟩ := takeWhile_dropWhile_append (l := ds) (r := rest) (p := Char.isDigit)
      (fun c hc => all c (by simp [hc])) (fun e he => (hends e he).1)
    have hn : number (d :: ds) rest = _ := number_integer (fun e he => (hends e he).2)
    simp only [cut, hc, hd, ht, hrest, hn]
    simp [integerItem, fits]
  | real whole fraction nonempty all nonempty' all' =>
    obtain ⟨d, ds, rfl⟩ := List.exists_cons_of_ne_nil nonempty
    refine ⟨d, ds ++ '.' :: fraction, rfl, ?_⟩
    have hd : d.isDigit := all d (by simp)
    have hc := of_isDigit hd
    obtain ⟨ht, hrest⟩ := takeWhile_dropWhile_append (l := ds) (r := '.' :: (fraction ++ rest))
      (p := Char.isDigit) (fun c hc => all c (by simp [hc])) (by
        intro e he
        obtain rfl : '.' = e := by simpa using he
        decide)
    have hn := number_real (d :: ds) nonempty' all' (by
      intro e (he : e ∈ rest.head?)
      simpa [Token.endsBefore] using hr e he)
    simp only [cut, hc, hd, List.append_assoc, List.cons_append, ht, hrest, hn]
    simp
  | string body closed =>
    refine ⟨'"', body ++ ['"'], rfl, ?_⟩
    have hq := afterQuote_spelled closed rest
    simp [cut, hq, isGap]
  | character c quote backslash =>
    refine ⟨'\'', [c, '\''], rfl, ?_⟩
    simp [cut, isGap, afterApostrophe, closeCharacter, characterItem, unescape, quote, backslash]
  | escapedCharacter escape c feed resolves =>
    refine ⟨'\'', ['\\', escape, '\''], rfl, ?_⟩
    simp [cut, isGap, afterApostrophe, closeCharacter, characterItem, feed, resolves]
  | mark m =>
    obtain ⟨c, cs, hcs, hcut⟩ := cut_mark m rest (by
      intro c hc
      simpa [Token.endsBefore] using hr c hc)
    exact ⟨c, cs, hcs, by rw [hcut, hcs]⟩

end Scan

/-- A text that spells a token starts with a character that starts no gap and no line end. -/
theorem Spells.head {t : Token} {text : List Char} (h : Spells t text) :
    ∃ c cs, text = c :: cs ∧ Scan.isGap c = false ∧ c ≠ '\n' := by
  cases h with
  | word c cs head tail =>
    have hc := Scan.of_isAlpha head
    exact ⟨c, cs, rfl, hc.1, hc.2.1⟩
  | integer digits nonempty all fits =>
    obtain ⟨d, ds, rfl⟩ := List.exists_cons_of_ne_nil nonempty
    have hc := Scan.of_isDigit (all d (by simp))
    exact ⟨d, ds, rfl, hc.1, hc.2.1⟩
  | real whole fraction nonempty all nonempty' all' =>
    obtain ⟨d, ds, rfl⟩ := List.exists_cons_of_ne_nil nonempty
    have hc := Scan.of_isDigit (all d (by simp))
    exact ⟨d, ds ++ '.' :: fraction, rfl, hc.1, hc.2.1⟩
  | string body closed => exact ⟨'"', body ++ ['"'], rfl, by decide, by decide⟩
  | character c quote backslash => exact ⟨'\'', [c, '\''], rfl, by decide, by decide⟩
  | escapedCharacter escape c feed resolves =>
    exact ⟨'\'', ['\\', escape, '\''], rfl, by decide, by decide⟩
  | mark m =>
    obtain ⟨c, cs, hcs⟩ := List.exists_cons_of_ne_nil (l := m.spelling.toList) (by
      cases m <;> simp [Mark.spelling])
    refine ⟨c, cs, hcs, ?_, ?_⟩ <;>
      cases m <;> simp [Mark.spelling] at hcs <;> rw [← hcs.1] <;> decide

theorem Spells.head_append {t : Token} {text : List Char} (h : Spells t text) (rest : List Char) :
    ∀ c ∈ (text ++ rest).head?, Scan.isGap c = false := by
  obtain ⟨c, cs, rfl, hc, -⟩ := h.head
  rintro d ⟨⟩
  exact hc

theorem Token.isContent_iff {t : Token} : t.isContent = true ↔ t ≠ .newline ∧ t ≠ .indent ∧ t ≠ .dedent := by
  cases t <;> simp [Token.isContent]

/-- No layout token and no unclosed literal is spelled by anything. -/
theorem Spells.isContent {t : Token} {text : List Char} (h : Spells t text) :
    t ≠ .newline ∧ t ≠ .indent ∧ t ≠ .dedent ∧ ∀ what, t ≠ .unclosed what := by
  cases h with
  | word c cs head tail =>
    unfold Scan.wordToken
    split <;> simp
  | _ => simp

/-! ## The pieces of a text put together -/

/-- A spelled token is the first piece of a text, wherever the next character cannot extend it. -/
theorem pieces_spelled {t : Token} {text rest : List Char} (h : Spells t text)
    (hr : ∀ c ∈ rest.head?, t.endsBefore c) :
    pieces (text ++ rest) = ⟨.token t, text⟩ :: pieces rest := by
  obtain ⟨c, cs, rfl, hcut⟩ := Scan.cut_spelled h hr
  rw [List.cons_append, pieces, hcut]

theorem pieces_feed (rest : List Char) :
    pieces ('\n' :: rest) = ⟨.token .newline, ['\n']⟩ :: pieces rest := by
  rw [pieces]
  simp [Scan.cut, Scan.isGap]

theorem pieces_blanks {blanks rest : List Char} (hne : blanks ≠ []) (hb : ∀ c ∈ blanks, Scan.isGap c)
    (hr : ∀ c ∈ rest.head?, Scan.isGap c = false) :
    pieces (blanks ++ rest) = ⟨.gap, blanks⟩ :: pieces rest := by
  obtain ⟨c, cs, rfl⟩ := List.exists_cons_of_ne_nil hne
  have hc : Scan.isGap c := hb c (by simp)
  obtain ⟨ht, hd⟩ := takeWhile_dropWhile_append (l := cs) (fun d hd => hb d (by simp [hd])) hr
  rw [List.cons_append, pieces]
  simp only [Scan.cut, hc, if_true, ht, hd]

theorem pieces_comment {body : List Char} (hb : '\x7d' ∉ body) (rest : List Char) :
    pieces ('\x7b' :: (body ++ '\x7d' :: rest)) =
      ⟨.gap, '\x7b' :: body ++ ['\x7d']⟩ :: pieces rest := by
  obtain ⟨ht, hd⟩ := takeWhile_dropWhile_append (p := (· ≠ '\x7d')) (l := body) (r := '\x7d' :: rest)
    (fun c hc => by simpa using fun h : c = '\x7d' => hb (h ▸ hc)) (by simp)
  rw [pieces]
  simp only [Scan.cut, Scan.isGap, Scan.afterBrace, ht, hd]
  simp

/-- Every piece was cut off at some place. -/
theorem exists_cut_of_mem_pieces {p : Piece} {cs : List Char} (h : p ∈ pieces cs) :
    ∃ d ds, p = (Scan.cut d ds).1 := by
  fun_induction pieces cs with
  | case1 => exact absurd h (by simp)
  | case2 c cs ih =>
    rcases List.mem_cons.mp h with rfl | h
    · exact ⟨c, cs, rfl⟩
    · exact ih h

/-- A piece that is a token with content is spelled by its text. -/
theorem spells_of_mem_pieces {p : Piece} {cs : List Char} {t : Token} (h : p ∈ pieces cs)
    (ht : p.item = .token t) (hn : t ≠ .newline) (hu : ∀ what, t ≠ .unclosed what) : Spells t p.text := by
  obtain ⟨d, ds, rfl⟩ := exists_cut_of_mem_pieces h
  rcases Scan.cut_token ht hu with ⟨hnewline, -⟩ | hspells
  · exact absurd hnewline hn
  · exact hspells

/-- A piece that is a line end is a line feed. -/
theorem feed_of_mem_pieces {p : Piece} {cs : List Char} (h : p ∈ pieces cs)
    (ht : p.item = .token .newline) : p.text = ['\n'] := by
  obtain ⟨d, ds, rfl⟩ := exists_cut_of_mem_pieces h
  rcases Scan.cut_token ht (by simp) with ⟨-, htext⟩ | hspells
  · exact htext
  · exact absurd rfl hspells.isContent.1

end Offside
