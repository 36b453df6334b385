import Offside.Proofs.Blocks
import Offside.Proofs.SourceLines

/-!
# Lexemes tile the source

Every lexeme covers its own text in the source, one behind the other, and what is between those with content says
nothing: blanks, line ends and closed comments. The line of a lexeme that has a text is counted by the line feeds in
front of it, and is the line of its start in the table of the source. Layout tokens cover nothing. They are on the line
of the lexeme that they stand in front of, or of the last one at the end of the source; no line falls behind the one
before it.
-/

namespace Offside

/-- A stretch covers these characters of a text. Its ends then lie between characters, and inside the text. -/
def Span.Covers (s : Span) (text inside : List Char) : Prop :=
  ∃ before behind, text = before ++ inside ++ behind ∧ s.start = byteSize before ∧
    s.stop = byteSize before + byteSize inside

/-- An offset of a text is on a line, which the line feeds in front of it count. -/
def OnLine (text : List Char) (offset line : Nat) : Prop :=
  ∃ before behind, text = before ++ behind ∧ offset = byteSize before ∧ line = 1 + lineFeeds before

/-- This is the line that the table of the text has for the offset. -/
theorem OnLine.eq_lineOf {text : String} {offset line : Nat} (h : OnLine text.toList offset line) :
    line = (LineTable.ofText text).lineOf offset := by
  obtain ⟨before, behind, htext, rfl, rfl⟩ := h
  rw [LineTable.lineOf_feedsBelow, feedsBelow_append htext]

/-- Text without a token: blanks, line ends and closed comments. -/
inductive Silent : List Char → Prop where
  | nil : Silent []
  | blank {c : Char} {cs : List Char} (hc : c ∈ [' ', '\t', '\r', '\x0c', '\n']) (h : Silent cs) : Silent (c :: cs)
  | comment {body cs : List Char} (hbody : '\x7d' ∉ body) (h : Silent cs) :
      Silent ('\x7b' :: body ++ '\x7d' :: cs)

/-- A text that starts at an offset is made of the texts of lexemes, none of them empty, each at its own stretch, with
silence in front of, between and behind them. -/
inductive Tiled : Nat → List Lexeme → List Char → Prop where
  | silence {offset : Nat} {gap : List Char} (h : Silent gap) : Tiled offset [] gap
  | lexeme {offset : Nat} {gap rest : List Char} {l : Lexeme} {ls : List Lexeme} (hgap : Silent gap)
      (htext : l.text ≠ "")
      (hspan : l.span = ⟨offset + byteSize gap, offset + byteSize gap + byteSize l.text.toList⟩)
      (hrest : Tiled l.span.stop ls rest) : Tiled offset (l :: ls) (gap ++ (l.text.toList ++ rest))

/-- One lexeme ends where the other starts or before, and is on no later line. -/
def Lexeme.Before (a b : Lexeme) : Prop :=
  a.span.stop ≤ b.span.start ∧ a.line ≤ b.line

theorem byteSize_pos {cs : List Char} (h : cs ≠ []) : 0 < byteSize cs := by
  cases cs with
  | nil => exact absurd rfl h
  | cons c cs =>
    have := c.utf8Size_pos
    rw [byteSize_cons]
    omega

/-! ### Silence -/

theorem Silent.append {as bs : List Char} (ha : Silent as) (hb : Silent bs) : Silent (as ++ bs) := by
  induction ha with
  | nil => exact hb
  | blank hc _ ih => exact .blank hc ih
  | comment hbody _ ih =>
    rw [List.append_assoc]
    exact .comment hbody ih

theorem silent_of_blanks {cs : List Char} (h : ∀ c ∈ cs, c ∈ [' ', '\t', '\r', '\x0c', '\n']) : Silent cs := by
  induction cs with
  | nil => exact .nil
  | cons c cs ih =>
    obtain ⟨hc, hcs⟩ := List.forall_mem_cons.mp h
    exact .blank hc (ih hcs)

theorem Scan.mem_of_isGap {c : Char} (h : isGap c = true) : c ∈ [' ', '\t', '\r', '\x0c', '\n'] := by
  rcases (isGap_iff c).mp h with rfl | rfl | rfl | rfl <;> decide

theorem Scan.characterItem_ne_gap (body : List Char) : characterItem body ≠ .gap := by
  unfold characterItem
  split <;> simp

theorem Scan.integerItem_ne_gap (magnitude : Nat) : integerItem magnitude ≠ .gap := by
  unfold integerItem
  split <;> simp

theorem Scan.afterApostrophe_ne_gap (cs : List Char) : (afterApostrophe cs).1.item ≠ .gap := by
  have hclose : ∀ body rest, (closeCharacter body rest).1.item ≠ .gap := by
    intro body rest
    unfold closeCharacter
    split
    · exact characterItem_ne_gap body
    · simp
  unfold afterApostrophe
  repeat' split
  all_goals first | exact hclose _ _ | simp

theorem Scan.number_ne_gap (digits rest : List Char) : (number digits rest).1.item ≠ .gap := by
  unfold number
  repeat' split
  all_goals first | exact integerItem_ne_gap _ | simp

theorem Scan.afterBrace_gap {cs : List Char} (h : (afterBrace cs).1.item = .gap) :
    ∃ body, (afterBrace cs).1.text = '\x7b' :: body ++ ['\x7d'] ∧ '\x7d' ∉ body := by
  have hbody : '\x7d' ∉ cs.takeWhile (· ≠ '\x7d') := by
    intro hmem
    simpa using List.all_eq_true.mp List.all_takeWhile _ hmem
  unfold afterBrace at h ⊢
  split at h
  · cases h
  · rename_i close rest hrest
    have hclose : close = '\x7d' := by
      have hhead := List.head?_dropWhile_not (· ≠ '\x7d') cs
      rw [hrest] at hhead
      simpa using hhead
    exact ⟨_, by rw [hclose], hbody⟩

/-- What is cut off as a gap: all the blanks at a place, or a closed comment. -/
theorem Scan.cut_gap {c : Char} {cs : List Char} (h : (cut c cs).1.item = .gap) :
    ((∀ d ∈ (cut c cs).1.text, isGap d = true) ∧ ∀ d ∈ (cut c cs).2.head?, isGap d = false) ∨
      ∃ body, (cut c cs).1.text = '\x7b' :: body ++ ['\x7d'] ∧ '\x7d' ∉ body := by
  by_cases hgap : isGap c
  · rw [cut, if_pos hgap]
    refine .inl ⟨List.forall_mem_cons.mpr ⟨hgap, List.all_eq_true.mp List.all_takeWhile⟩, fun d hd => ?_⟩
    have hhead := List.head?_dropWhile_not isGap cs
    rw [Option.mem_def.mp hd] at hhead
    simpa using hhead
  by_cases hfeed : c = '\n'
  · rw [cut, if_neg hgap, if_pos hfeed] at h
    cases h
  by_cases hbrace : c = '\x7b'
  · rw [cut, if_neg hgap, if_neg hfeed, if_pos hbrace] at h ⊢
    exact .inr (afterBrace_gap h)
  rw [cut, if_neg hgap, if_neg hfeed, if_neg hbrace] at h
  split at h
  · unfold afterQuote at h
    dsimp only at h
    split at h <;> cases h
  split at h
  · exact absurd h (afterApostrophe_ne_gap cs)
  split at h
  · exact absurd h (number_ne_gap _ _)
  split at h
  · cases h
  split at h <;> cases h

/-- Only blanks and closed comments are cut off as a gap. -/
theorem Scan.silent_cut {c : Char} {cs : List Char} (h : (cut c cs).1.item = .gap) : Silent (cut c cs).1.text := by
  rcases cut_gap h with ⟨hblanks, -⟩ | ⟨body, htext, hbody⟩
  · exact silent_of_blanks fun d hd => mem_of_isGap (hblanks d hd)
  · rw [htext]
    exact .comment hbody .nil

theorem silent_of_mem_pieces {p : Piece} {cs : List Char} (h : p ∈ pieces cs) (hp : p.item = .gap) :
    Silent p.text := by
  obtain ⟨d, ds, rfl⟩ := exists_cut_of_mem_pieces h
  exact Scan.silent_cut hp

/-! ### Places of a step -/

variable {st next : Layout} {front : List Piece} {p : Piece} {head : List Lexeme}

/-- A piece gives rise to nothing, or to its own token behind changes of level. All of it stands where the piece
starts. -/
theorem Layout.step_places (hstep : st.step p = .ok (head, next)) :
    next.position = st.position.advance p.text ∧
      ((head = [] ∧ next.lastLine = st.lastLine ∧
          (next.lineOpen = true ∨ 0 < next.depth → st.lineOpen = true ∨ 0 < st.depth) ∧
          (p.item = .gap ∨ p.item = .token .newline)) ∨
        ∃ t shift, p.item = .token t ∧ (∀ what, t ≠ .unclosed what) ∧ head = shift ++ [st.lexemeAt t p.text] ∧
          next.lastLine = st.position.line ∧
          ∀ l ∈ shift, ∃ level : Token, level.isContent = false ∧ l = .synthetic level st.position) := by
  rcases step_cases hstep with ⟨hp, rfl, rfl⟩ | ⟨hp, heq⟩ | ⟨t, hp, hn, hu, hacts⟩
  · exact ⟨rfl, .inl ⟨rfl, rfl, id, .inl hp⟩⟩
  · cases hopen : st.lineOpen with
    | false =>
      rw [endLine_closed hopen, Prod.mk.injEq] at heq
      obtain ⟨rfl, rfl⟩ := heq
      exact ⟨rfl, .inl ⟨rfl, rfl, fun hopened => .inr (hopened.resolve_left nofun), .inr hp⟩⟩
    | true =>
      rw [endLine_open hopen, Prod.mk.injEq] at heq
      obtain ⟨rfl, rfl⟩ := heq
      exact ⟨rfl, .inr ⟨.newline, [], hp, by simp, rfl, rfl, List.forall_mem_nil _⟩⟩
  · rcases content_cases hacts with ⟨-, rfl, rfl⟩ | ⟨-, level, -, rfl, rfl⟩
    · exact ⟨rfl, .inr ⟨t, [], hp, hu, rfl, rfl, List.forall_mem_nil _⟩⟩
    · refine ⟨rfl, .inr ⟨t, change st.position st.depth level, hp, hu, rfl, rfl, fun l hl => ?_⟩⟩
      rcases List.mem_append.mp hl with hl | hl
      · exact ⟨.indent, rfl, List.eq_of_mem_replicate hl⟩
      · exact ⟨.dedent, rfl, List.eq_of_mem_replicate hl⟩

theorem Layout.finish_places {l : Lexeme} (hl : l ∈ st.finish) :
    ∃ t : Token, t.isContent = false ∧ l = .synthetic t ⟨st.position.offset, st.lastLine⟩ := by
  rcases List.mem_append.mp hl with hl | hl
  · split at hl
    · exact ⟨.newline, rfl, List.mem_singleton.mp hl⟩
    · cases hl
  · exact ⟨.dedent, rfl, List.eq_of_mem_replicate hl⟩

/-- The layout pass stands behind these pieces, and the last lexeme is on no later line. -/
structure Reached (st : Layout) (front : List Piece) : Prop where
  offset : st.position.offset = byteSize (textOf front)
  line : st.position.line = 1 + lineFeeds (textOf front)
  lastLine : st.lastLine ≤ st.position.line

theorem reached_start : Reached .start [] :=
  ⟨rfl, rfl, Nat.le_refl 1⟩

theorem Reached.step (h : Reached st front) (hstep : st.step p = .ok (head, next)) : Reached next (front ++ [p]) := by
  obtain ⟨hposition, hhead⟩ := Layout.step_places hstep
  have htext : textOf (front ++ [p]) = textOf front ++ p.text := by simp [textOf]
  have hline : next.position.line = st.position.line + lineFeeds p.text := by rw [hposition]; rfl
  refine ⟨?_, ?_, ?_⟩
  · rw [hposition, htext, byteSize_append, ← h.offset]
    rfl
  · rw [hline, htext, lineFeeds_append, h.line, Nat.add_assoc]
  · have hlast := h.lastLine
    rcases hhead with ⟨-, hnext, -⟩ | ⟨t, shift, -, -, -, hnext, -⟩ <;> omega

/-! ### Each lexeme by itself -/

/-- A lexeme is found in the source where it says: its stretch covers its text, which is not empty if it has content,
and its line, if it has a text, is that of its start. -/
structure Lexeme.FoundIn (source : List Char) (l : Lexeme) : Prop where
  covers : l.span.Covers source l.text.toList
  text : l.token.isContent = true → l.text ≠ ""
  line : l.text ≠ "" → OnLine source l.span.start l.line

theorem foundIn_synthetic (before behind : List Char) {t : Token} (ht : t.isContent = false) (line : Nat) :
    (Lexeme.synthetic t ⟨byteSize before, line⟩).FoundIn (before ++ behind) where
  covers := ⟨before, behind, by simp [Lexeme.synthetic], rfl, by simp [Lexeme.synthetic, Lexeme.span, Span.point]⟩
  text hcontent := by simp [Lexeme.synthetic, ht] at hcontent
  line htext := absurd rfl htext

theorem foundIn_lexemeAt (h : Reached st front) (t : Token) {text : List Char} (htext : text ≠ []) (behind : List Char) :
    (st.lexemeAt t text).FoundIn (textOf front ++ text ++ behind) := by
  refine ⟨⟨textOf front, behind, by simp [Layout.lexemeAt], h.offset, ?_⟩, fun _ => ?_, fun _ => ?_⟩
  · simp [Layout.lexemeAt, Lexeme.span, Position.covering, h.offset]
  · simpa [Layout.lexemeAt] using htext
  · exact ⟨textOf front, text ++ behind, by simp, h.offset, h.line⟩

theorem Piece.text_ne_nil {cs : List Char} (h : p ∈ pieces cs) : p.text ≠ [] := by
  obtain ⟨d, ds, rfl⟩ := exists_cut_of_mem_pieces h
  exact Scan.cut_text_ne_nil d ds

theorem Layout.lexemeAt_text_ne (st : Layout) (t : Token) {cs : List Char} (h : p ∈ pieces cs) :
    (st.lexemeAt t p.text).text ≠ "" := by
  simpa [Layout.lexemeAt] using Piece.text_ne_nil h

theorem foundIn_run {cs : List Char} {ps : List Piece} (hps : ∀ p ∈ ps, p ∈ pieces cs) (h : Reached st front)
    {ls : List Lexeme} (hrun : st.run ps = .ok ls) : ∀ l ∈ ls, l.FoundIn (textOf (front ++ ps)) := by
  induction ps generalizing st front ls with
  | nil =>
    cases hrun
    intro l hl
    obtain ⟨t, ht, rfl⟩ := Layout.finish_places hl
    rw [h.offset]
    simpa using foundIn_synthetic (textOf front) [] ht st.lastLine
  | cons p ps ih =>
    obtain ⟨hp, hrest⟩ := List.forall_mem_cons.mp hps
    obtain ⟨head, next, rest, hstep, hnext, rfl⟩ := Layout.run_cons_ok.mp hrun
    intro l hl
    rcases List.mem_append.mp hl with hl | hl
    · have hsource : textOf (front ++ p :: ps) = textOf front ++ p.text ++ textOf ps := by simp [textOf]
      rw [hsource]
      rcases (Layout.step_places hstep).2 with ⟨rfl, -, -⟩ | ⟨t, shift, -, -, rfl, -, hshift⟩
      · cases hl
      rcases List.mem_append.mp hl with hl | hl
      · obtain ⟨level, hlevel, rfl⟩ := hshift l hl
        have hfound := foundIn_synthetic (textOf front) (p.text ++ textOf ps) hlevel st.position.line
        rwa [← h.offset, ← List.append_assoc] at hfound
      · rw [List.mem_singleton.mp hl]
        exact foundIn_lexemeAt h t (Piece.text_ne_nil hp) (textOf ps)
    · have hfound := ih hrest (h.step hstep) hnext l hl
      rwa [List.append_assoc, List.singleton_append] at hfound

/-! ### One behind the other -/

/-- A lexeme that comes of a state starts at its place or behind it, on no line in front of the last lexeme. -/
def Lexeme.Follows (st : Layout) (l : Lexeme) : Prop :=
  st.position.offset ≤ l.span.start ∧ st.lastLine ≤ l.line

/-- Lexemes at one place, none of which covers anything. -/
theorem pairwise_synthetic {ls : List Lexeme} {place : Position}
    (h : ∀ l ∈ ls, ∃ t : Token, t.isContent = false ∧ l = .synthetic t place) : ls.Pairwise Lexeme.Before := by
  refine (List.pairwise_of_forall fun _ _ => trivial : ls.Pairwise fun _ _ => True).imp_of_mem ?_
  intro a b ha hb _
  obtain ⟨t, -, rfl⟩ := h a ha
  obtain ⟨u, -, rfl⟩ := h b hb
  exact ⟨Nat.le_refl _, Nat.le_refl _⟩

/-- The lexemes of a step are in order, and between the states in front of it and behind it. -/
theorem ordered_step (h : Reached st front) (hstep : st.step p = .ok (head, next)) :
    head.Pairwise Lexeme.Before ∧ (∀ l ∈ head, l.Follows st) ∧
      ∀ m : Lexeme, m.Follows next → m.Follows st ∧ ∀ l ∈ head, l.Before m := by
  obtain ⟨hposition, hhead⟩ := Layout.step_places hstep
  have hoffset : next.position.offset = st.position.offset + byteSize p.text := by rw [hposition]; rfl
  have hlast := h.lastLine
  rcases hhead with ⟨rfl, hnext, -⟩ | ⟨t, shift, -, -, rfl, hnext, hshift⟩
  · refine ⟨.nil, List.forall_mem_nil _, fun m ⟨hstart, hline⟩ => ⟨⟨?_, ?_⟩, List.forall_mem_nil _⟩⟩ <;> omega
  · have htoken : (st.lexemeAt t p.text).span = ⟨st.position.offset, next.position.offset⟩ := by rw [hoffset]; rfl
    have hline : (st.lexemeAt t p.text).line = st.position.line := rfl
    refine ⟨?_, ?_, ?_⟩
    · refine List.pairwise_append.mpr ⟨pairwise_synthetic hshift, List.pairwise_singleton _ _, ?_⟩
      intro a ha b hb
      obtain ⟨level, -, rfl⟩ := hshift a ha
      rw [List.mem_singleton.mp hb]
      exact ⟨Nat.le_refl _, Nat.le_refl _⟩
    · intro l hl
      rcases List.mem_append.mp hl with hl | hl
      · obtain ⟨level, -, rfl⟩ := hshift l hl
        exact ⟨Nat.le_refl _, hlast⟩
      · rw [List.mem_singleton.mp hl]
        exact ⟨Nat.le_refl _, hlast⟩
    · rintro m ⟨hstart, hm⟩
      refine ⟨⟨by omega, by omega⟩, fun l hl => ?_⟩
      rcases List.mem_append.mp hl with hl | hl
      · obtain ⟨level, -, rfl⟩ := hshift l hl
        exact ⟨show st.position.offset ≤ _ by omega, show st.position.line ≤ _ by omega⟩
      · rw [List.mem_singleton.mp hl]
        exact ⟨by rw [htoken]; exact hstart, by rw [hline]; omega⟩

theorem ordered_run {ps : List Piece} (h : Reached st front) {ls : List Lexeme} (hrun : st.run ps = .ok ls) :
    ls.Pairwise Lexeme.Before ∧ ∀ l ∈ ls, l.Follows st := by
  induction ps generalizing st front ls with
  | nil =>
    cases hrun
    refine ⟨pairwise_synthetic fun l => Layout.finish_places, fun l hl => ?_⟩
    obtain ⟨t, -, rfl⟩ := Layout.finish_places hl
    exact ⟨Nat.le_refl _, Nat.le_refl _⟩
  | cons p ps ih =>
    obtain ⟨head, next, rest, hstep, hnext, rfl⟩ := Layout.run_cons_ok.mp hrun
    obtain ⟨hhead, hfollows, hbehind⟩ := ordered_step h hstep
    obtain ⟨hrest, hfollows'⟩ := ih (h.step hstep) hnext
    refine ⟨List.pairwise_append.mpr ⟨hhead, hrest, fun a ha b hb => (hbehind b (hfollows' b hb)).2 a ha⟩, ?_⟩
    intro l hl
    rcases List.mem_append.mp hl with hl | hl
    · exact hfollows l hl
    · exact (hbehind l (hfollows' l hl)).1

/-! ### The lines of layout tokens -/

/-- A lexeme is on the line of one that has a text. It is that one, or a layout token: this stands where the other one
starts, or else at the end of the source, and then the other one is the last. -/
structure Lexeme.OnLineOf (source : List Char) (ls : List Lexeme) (l m : Lexeme) : Prop where
  mem : m ∈ ls
  text : m.text ≠ ""
  line : l.line = m.line
  place : l = m ∨ l.text = "" ∧ (l.span = .point m.span.start ∨
    l.span = .point (byteSize source) ∧ ∀ k ∈ ls, k.text ≠ "" → k.span.start ≤ m.span.start)

/-- The layout pass has these lexemes behind it. Once a line or a level is open, the last of those with a text is there,
and its line is remembered. -/
structure Remembers (st : Layout) (done : List Lexeme) : Prop where
  starts : ∀ l ∈ done, l.span.start ≤ st.position.offset
  last : st.lineOpen = true ∨ 0 < st.depth →
    ∃ m ∈ done, m.text ≠ "" ∧ m.line = st.lastLine ∧ ∀ l ∈ done, l.span.start ≤ m.span.start

theorem remembers_start : Remembers .start [] :=
  ⟨List.forall_mem_nil _, fun hopened => hopened.elim nofun nofun⟩

theorem Remembers.step {done : List Lexeme} {cs : List Char} (hp : p ∈ pieces cs) (h : Remembers st done)
    (hstep : st.step p = .ok (head, next)) : Remembers next (done ++ head) := by
  obtain ⟨hposition, hhead⟩ := Layout.step_places hstep
  have hoffset : st.position.offset ≤ next.position.offset := by
    rw [hposition]
    exact Nat.le_add_right _ _
  rcases hhead with ⟨rfl, hlast, hopened, -⟩ | ⟨t, shift, -, -, rfl, hlast, hshift⟩
  · rw [List.append_nil]
    refine ⟨fun l hl => Nat.le_trans (h.starts l hl) hoffset, fun hnext => ?_⟩
    rw [hlast]
    exact h.last (hopened hnext)
  · -- The token of the piece is now the last lexeme, and all others start where it does or before.
    have hstarts : ∀ l ∈ done ++ (shift ++ [st.lexemeAt t p.text]), l.span.start ≤ st.position.offset := by
      intro l hl
      rcases List.mem_append.mp hl with hl | hl
      · exact h.starts l hl
      rcases List.mem_append.mp hl with hl | hl
      · obtain ⟨level, -, rfl⟩ := hshift l hl
        exact Nat.le_refl _
      · rw [List.mem_singleton.mp hl]
        exact Nat.le_refl _
    refine ⟨fun l hl => Nat.le_trans (hstarts l hl) hoffset, fun _ => ⟨st.lexemeAt t p.text, by simp, ?_⟩⟩
    exact ⟨st.lexemeAt_text_ne t hp, hlast.symm, hstarts⟩

theorem onLineOf_run {cs : List Char} {ps : List Piece} (hps : ∀ p ∈ ps, p ∈ pieces cs) (h : Reached st front)
    {done : List Lexeme} (hdone : Remembers st done) {ls : List Lexeme} (hrun : st.run ps = .ok ls) :
    ∀ l ∈ ls, ∃ m, l.OnLineOf (textOf (front ++ ps)) (done ++ ls) m := by
  induction ps generalizing st front done ls with
  | nil =>
    cases hrun
    intro l hl
    have hopened : st.lineOpen = true ∨ 0 < st.depth := by
      refine Classical.or_iff_not_imp_left.mpr fun hclosed => Nat.pos_of_ne_zero fun hlevel => ?_
      simp [Layout.finish, hclosed, hlevel] at hl
    obtain ⟨m, hm, htext, hline, hlast⟩ := hdone.last hopened
    obtain ⟨t, -, rfl⟩ := Layout.finish_places hl
    refine ⟨m, List.mem_append_left _ hm, htext, hline.symm, .inr ⟨rfl, .inr ⟨?_, fun k hk hktext => ?_⟩⟩⟩
    · rw [List.append_nil, ← h.offset]
      rfl
    · rcases List.mem_append.mp hk with hk | hk
      · exact hlast k hk
      · obtain ⟨u, -, rfl⟩ := Layout.finish_places hk
        exact absurd rfl hktext
  | cons p ps ih =>
    obtain ⟨hp, hrest⟩ := List.forall_mem_cons.mp hps
    obtain ⟨head, next, rest, hstep, hnext, rfl⟩ := Layout.run_cons_ok.mp hrun
    intro l hl
    rcases List.mem_append.mp hl with hl | hl
    · rcases (Layout.step_places hstep).2 with ⟨rfl, -, -⟩ | ⟨t, shift, -, -, rfl, -, hshift⟩
      · cases hl
      have hmem : st.lexemeAt t p.text ∈ done ++ (shift ++ [st.lexemeAt t p.text] ++ rest) := by simp
      rcases List.mem_append.mp hl with hl | hl
      · obtain ⟨level, -, rfl⟩ := hshift l hl
        exact ⟨_, hmem, st.lexemeAt_text_ne t hp, rfl, .inr ⟨rfl, .inl rfl⟩⟩
      · rw [List.mem_singleton.mp hl]
        exact ⟨_, hmem, st.lexemeAt_text_ne t hp, rfl, .inl rfl⟩
    · obtain ⟨m, hm⟩ := ih hrest (h.step hstep) (hdone.step hp hstep) hnext l hl
      rw [List.append_assoc, List.singleton_append, List.append_assoc] at hm
      exact ⟨m, hm⟩

/-! ### The silence between -/

theorem filter_synthetic {ls : List Lexeme} {place : Position}
    (h : ∀ l ∈ ls, ∃ t : Token, t.isContent = false ∧ l = .synthetic t place) :
    (ls.filter fun l => l.token.isContent) = [] := by
  rw [List.filter_eq_nil_iff]
  intro l hl
  obtain ⟨t, ht, rfl⟩ := h l hl
  simpa [Lexeme.synthetic] using ht

/-- A piece is silent and gives rise to no content, or it is a token with content and gives rise to that. -/
theorem content_step {cs : List Char} (hp : p ∈ pieces cs) (hstep : st.step p = .ok (head, next)) :
    (Silent p.text ∧ (head.filter fun l => l.token.isContent) = []) ∨
      ∃ t, (head.filter fun l => l.token.isContent) = [st.lexemeAt t p.text] := by
  have hfeed : p.item = .token .newline → Silent p.text := by
    intro hn
    rw [feed_of_mem_pieces hp hn]
    exact silent_of_blanks (by simp)
  rcases (Layout.step_places hstep).2 with ⟨rfl, -, -, hitem⟩ | ⟨t, shift, hitem, hu, rfl, -, hshift⟩
  · exact .inl ⟨hitem.elim (silent_of_mem_pieces hp) hfeed, rfl⟩
  rw [List.filter_append, filter_synthetic hshift, List.nil_append]
  by_cases hn : t = .newline
  · subst hn
    exact .inl ⟨hfeed hitem, rfl⟩
  · have htext : (st.lexemeAt t p.text).IsText := isText_lexemeAt st (spells_of_mem_pieces hp hitem hn hu)
    exact .inr ⟨t, List.filter_eq_self.mpr fun l hl => by rw [List.mem_singleton.mp hl]; exact htext.1⟩

/-- The induction is on the pieces that are left; `gap` is the text since the last token with content. -/
theorem tiled_run {cs : List Char} {ps : List Piece} (hps : ∀ p ∈ ps, p ∈ pieces cs) {ls : List Lexeme}
    (hrun : st.run ps = .ok ls) {offset : Nat} {gap : List Char} (hgap : Silent gap)
    (hoffset : st.position.offset = offset + byteSize gap) :
    Tiled offset (ls.filter fun l => l.token.isContent) (gap ++ textOf ps) := by
  induction ps generalizing st ls offset gap with
  | nil =>
    cases hrun
    rw [filter_synthetic fun l => Layout.finish_places]
    exact .silence (hgap.append .nil)
  | cons p ps ih =>
    obtain ⟨hp, hrest⟩ := List.forall_mem_cons.mp hps
    obtain ⟨head, next, rest, hstep, hnext, rfl⟩ := Layout.run_cons_ok.mp hrun
    have hposition : next.position.offset = st.position.offset + byteSize p.text := by
      rw [(Layout.step_places hstep).1]
      rfl
    have htext : textOf (p :: ps) = p.text ++ textOf ps := rfl
    rw [List.filter_append, htext]
    rcases content_step hp hstep with ⟨hsilent, hnone⟩ | ⟨t, hone⟩
    · rw [hnone, List.nil_append, ← List.append_assoc]
      exact ih hrest hnext (hgap.append hsilent) (by rw [byteSize_append]; omega)
    · have hrest' : Tiled (st.lexemeAt t p.text).span.stop (rest.filter fun l => l.token.isContent) (textOf ps) :=
        ih hrest hnext .nil hposition
      have hcut : (st.lexemeAt t p.text).text.toList = p.text := String.toList_ofList
      have hne : (st.lexemeAt t p.text).text ≠ "" := st.lexemeAt_text_ne t hp
      have hspan : (st.lexemeAt t p.text).span =
          ⟨offset + byteSize gap, offset + byteSize gap + byteSize (st.lexemeAt t p.text).text.toList⟩ := by
        rw [hcut, ← hoffset]
        rfl
      have htiled := Tiled.lexeme hgap hne hspan hrest'
      rwa [hcut, ← List.singleton_append, ← hone] at htiled

theorem foundIn_lexemes {source : String} {ls : List Lexeme} (h : lexemes source = .ok ls) :
    ∀ l ∈ ls, l.FoundIn source.toList := by
  have hfound := foundIn_run (fun p hp => hp) reached_start h
  have hsource : textOf ([] ++ pieces source.toList) = source.toList := flatMap_text_pieces source.toList
  rwa [hsource] at hfound

theorem onLineOf_lexemes {source : String} {ls : List Lexeme} (h : lexemes source = .ok ls) :
    ∀ l ∈ ls, ∃ m, l.OnLineOf source.toList ls m := by
  have hlines := onLineOf_run (fun p hp => hp) reached_start remembers_start h
  have hsource : textOf ([] ++ pieces source.toList) = source.toList := flatMap_text_pieces source.toList
  rwa [hsource] at hlines

theorem ordered_lexemes {source : String} {ls : List Lexeme} (h : lexemes source = .ok ls) :
    ls.Pairwise Lexeme.Before :=
  (ordered_run reached_start h).1

/-- The lexemes of a source tile it. Each covers its own text, between characters of the source, and ends where the next
one starts or before; those with content cover something, and around them is silence. The line of a lexeme with content,
and of a line end that has a text, is that of its start, and lines do not go back. The table of the source has all these
lines: for a layout token at the start of the lexeme that it stands in front of, or of the last one at the end. -/
theorem lexemes_tile {source : String} {ls : List Lexeme} (h : lexemes source = .ok ls) :
    (∀ l ∈ ls, l.span.Covers source.toList l.text.toList) ∧
      ls.Pairwise (fun a b => a.span.stop ≤ b.span.start) ∧
      (∀ l ∈ ls, l.token.isContent = true → l.span.start < l.span.stop) ∧
      Tiled 0 (ls.filter fun l => l.token.isContent) source.toList ∧
      (∀ l ∈ ls, l.token.isContent = true ∨ (l.token = .newline ∧ l.text ≠ "") →
        OnLine source.toList l.span.start l.line) ∧
      ls.Pairwise (fun a b => a.line ≤ b.line) ∧
      ∀ l ∈ ls, ∃ m, l.OnLineOf source.toList ls m ∧ l.line = (LineTable.ofText source).lineOf m.span.start := by
  have hfound := foundIn_lexemes h
  have hordered := ordered_lexemes h
  refine ⟨fun l hl => (hfound l hl).covers, hordered.imp And.left, fun l hl hcontent => ?_, ?_, ?_,
    hordered.imp And.right, fun l hl => ?_⟩
  · obtain ⟨before, behind, -, hstart, hstop⟩ := (hfound l hl).covers
    have hpos : 0 < byteSize l.text.toList := byteSize_pos (by simpa using (hfound l hl).text hcontent)
    omega
  · have htiled : Tiled 0 (ls.filter fun l => l.token.isContent) ([] ++ textOf (pieces source.toList)) :=
      tiled_run (fun p hp => hp) h .nil rfl
    rwa [List.nil_append, textOf, flatMap_text_pieces] at htiled
  · rintro l hl (hcontent | ⟨-, htext⟩)
    · exact (hfound l hl).line ((hfound l hl).text hcontent)
    · exact (hfound l hl).line htext
  · obtain ⟨m, hm⟩ := onLineOf_lexemes h l hl
    exact ⟨m, hm, hm.line.trans ((hfound m hm.mem).line hm.text).eq_lineOf⟩

/-- Characters of more than one byte, in a comment over two lines and in a literal, behind which the line does not
end. -/
theorem lexemes_tile_wide :
    ∃ ls, lexemes "\x7bé\nè\x7d a\n\t\"ü\" b" = .ok ls ∧
      ls.map (fun l => (l.text, l.line, l.span.start, l.span.stop)) =
        [("a", 2, 8, 9), ("\n", 2, 9, 10), ("", 3, 11, 11), ("\"ü\"", 3, 11, 15), ("b", 3, 16, 17), ("", 3, 17, 17),
          ("", 3, 17, 17)] ∧
      Tiled 0 (ls.filter fun l => l.token.isContent) "\x7bé\nè\x7d a\n\t\"ü\" b".toList ∧
      ∀ l ∈ ls, ∃ m ∈ ls, m.text ≠ "" ∧ l.line = (LineTable.ofText "\x7bé\nè\x7d a\n\t\"ü\" b").lineOf m.span.start := by
  obtain ⟨ls, hls, hview⟩ : ∃ ls, lexemes "\x7bé\nè\x7d a\n\t\"ü\" b" = .ok ls ∧
      ls.map (fun l => (l.text, l.line, l.span.start, l.span.stop)) =
        [("a", 2, 8, 9), ("\n", 2, 9, 10), ("", 3, 11, 11), ("\"ü\"", 3, 11, 15), ("b", 3, 16, 17), ("", 3, 17, 17),
          ("", 3, 17, 17)] := map_eq_ok.mp (by decide +kernel)
  obtain ⟨-, -, -, htiled, -, -, hlines⟩ := lexemes_tile hls
  refine ⟨ls, hls, hview, htiled, fun l hl => ?_⟩
  obtain ⟨m, hm, hline⟩ := hlines l hl
  exact ⟨m, hm.mem, hm.text, hline⟩

end Offside
