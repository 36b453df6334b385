import Offside.Proofs.LayoutStep
import Offside.Proofs.Spelling

/-!
# The block structure of lexemes

The lexemes of a source are logical lines with closing dedents behind them. A logical line is a shift to its level,
its tokens and one line end; its level is that of the leading blanks of the physical line on which it starts. `Laid`
states this along the whole list, from one depth to the next, and the counts of indents and dedents follow from it.
-/

namespace Offside

/-- A token of the text, whole and no part of the layout. -/
def Lexeme.IsText (l : Lexeme) : Prop :=
  l.token.isContent = true ∧ ∀ what, l.token ≠ .unclosed what

/-- A line with content: the change of level in front of it, its tokens, and its end. -/
structure LogicalLine where
  shift : List Lexeme
  first : Lexeme
  more : List Lexeme
  lineEnd : Lexeme
  oneWay : (∀ l ∈ shift, l.token = .indent) ∨ (∀ l ∈ shift, l.token = .dedent)
  content : ∀ l ∈ first :: more, l.IsText
  ended : lineEnd.token = .newline

namespace LogicalLine

def lexemes (line : LogicalLine) : List Lexeme :=
  line.shift ++ line.first :: line.more ++ [line.lineEnd]

end LogicalLine

def indents (ls : List Lexeme) : Nat :=
  ls.countP (·.token = .indent)

def dedents (ls : List Lexeme) : Nat :=
  ls.countP (·.token = .dedent)

/-- The text that pieces were cut from. -/
def textOf (ps : List Piece) : List Char :=
  ps.flatMap Piece.text

/-- The pieces behind the last line end, all of them if there is none. -/
def sinceLineEnd (ps : List Piece) : List Piece :=
  (ps.reverse.takeWhile (·.item ≠ .token .newline)).reverse

/-- The leading blanks of the physical line that the pieces in `back` go on, those in `front` being behind. -/
def leadingBlanks (front back : List Piece) : List Char :=
  (textOf (sinceLineEnd front ++ back)).takeWhile fun c => c = ' ' || c = '\t'

/-- A lexeme is read from a piece of the source, at its place. -/
structure ReadFrom (source : String) (l : Lexeme) (front : List Piece) (p : Piece) (back : List Piece) :
    Prop where
  tiling : pieces source.toList = front ++ p :: back
  item_eq : p.item = .token l.token
  text_eq : l.text = .ofList p.text
  start_eq : l.span.start = byteSize (textOf front)

/-- A logical line starts behind leading blanks of so many levels. -/
def StartsAt (source : String) (line : LogicalLine) (level : Nat) : Prop :=
  ∃ front p back, ReadFrom source line.first front p back ∧
    columns (leadingBlanks front (p :: back)) = indentWidth * level

/-- Lines that lead from one depth to another, each at the level of its leading blanks. -/
inductive Laid (source : String) : Nat → List LogicalLine → Nat → Prop where
  | nil (depth : Nat) : Laid source depth [] depth
  | cons {depth level final : Nat} {line : LogicalLine} {lines : List LogicalLine}
      (shift : line.shift.map Lexeme.token =
        List.replicate (level - depth) .indent ++ List.replicate (depth - level) .dedent)
      (start : StartsAt source line level) (rest : Laid source level lines final) :
      Laid source depth (line :: lines) final

/-! ## Counting -/

@[simp] theorem indents_append (as bs : List Lexeme) : indents (as ++ bs) = indents as + indents bs :=
  List.countP_append

@[simp] theorem dedents_append (as bs : List Lexeme) : dedents (as ++ bs) = dedents as + dedents bs :=
  List.countP_append

/-- A line moves the balance from its old level to its new one, dedents only from levels that are open. -/
theorem counts_line {depth level : Nat} {line : LogicalLine}
    (h : line.shift.map Lexeme.token =
      List.replicate (level - depth) .indent ++ List.replicate (depth - level) .dedent) :
    indents line.shift = level - depth ∧ dedents line.shift = depth - level ∧
      indents line.lexemes = level - depth ∧ dedents line.lexemes = depth - level := by
  have hindents : indents line.shift = level - depth := by
    have hcount : indents line.shift = (line.shift.map Lexeme.token).countP (· = .indent) := by
      rw [indents, List.countP_map]
      rfl
    simp [hcount, h, List.countP_replicate]
  have hdedents : dedents line.shift = depth - level := by
    have hcount : dedents line.shift = (line.shift.map Lexeme.token).countP (· = .dedent) := by
      rw [dedents, List.countP_map]
      rfl
    simp [hcount, h, List.countP_replicate]
  have hcontent : ∀ l ∈ line.first :: line.more ++ [line.lineEnd], l.token ≠ .indent ∧ l.token ≠ .dedent := by
    intro l hl
    rcases List.mem_append.mp hl with hl | hl
    · have htext := (line.content l hl).1
      constructor <;> intro ht <;> rw [ht] at htext <;> exact absurd htext (by decide)
    · rw [List.mem_singleton.mp hl, line.ended]
      simp
  have hnone : indents (line.first :: line.more ++ [line.lineEnd]) = 0 ∧
      dedents (line.first :: line.more ++ [line.lineEnd]) = 0 := by
    rw [indents, dedents, List.countP_eq_zero, List.countP_eq_zero]
    exact ⟨fun l hl => by simpa using (hcontent l hl).1, fun l hl => by simpa using (hcontent l hl).2⟩
  refine ⟨hindents, hdedents, ?_, ?_⟩
  · rw [LogicalLine.lexemes, List.append_assoc, indents_append, hindents, hnone.1, Nat.add_zero]
  · rw [LogicalLine.lexemes, List.append_assoc, dedents_append, hdedents, hnone.2, Nat.add_zero]

/-- Along a list no more levels are closed than are open, `depth` of them at its start. -/
def Sound (depth : Nat) (ls : List Lexeme) : Prop :=
  ∀ front, front <+: ls → dedents front ≤ depth + indents front

theorem sound_of_le {depth : Nat} {ls : List Lexeme} (h : dedents ls ≤ depth) : Sound depth ls := by
  intro front hfront
  have hle : dedents front ≤ dedents ls := hfront.sublist.countP_le
  omega

theorem Sound.append {depth level : Nat} {as bs : List Lexeme} (ha : Sound depth as)
    (hlevel : depth + indents as = level + dedents as) (hb : Sound level bs) : Sound depth (as ++ bs) := by
  intro front hfront
  rcases List.prefix_or_prefix_of_prefix hfront (List.prefix_append as bs) with h | h
  · exact ha front h
  · obtain ⟨rest, rfl⟩ := h
    have hrest := hb rest ((List.prefix_append_right_inj as).mp hfront)
    rw [indents_append, dedents_append]
    omega

namespace Laid

variable {source : String} {depth final : Nat} {lines : List LogicalLine}

theorem balance (h : Laid source depth lines final) :
    depth + indents (lines.flatMap LogicalLine.lexemes) =
      final + dedents (lines.flatMap LogicalLine.lexemes) := by
  induction h with
  | nil depth => rfl
  | cons shift start rest ih =>
    obtain ⟨-, -, hindents, hdedents⟩ := counts_line shift
    rw [List.flatMap_cons, indents_append, dedents_append, hindents, hdedents]
    omega

theorem sound (h : Laid source depth lines final) : Sound depth (lines.flatMap LogicalLine.lexemes) := by
  induction h with
  | nil depth => exact sound_of_le (Nat.zero_le depth)
  | cons shift start rest ih =>
    obtain ⟨-, -, hindents, hdedents⟩ := counts_line shift
    rw [List.flatMap_cons]
    exact (sound_of_le (by omega)).append (by omega) ih

/-- In front of the tokens of a line its level is open. -/
theorem level (h : Laid source depth lines final) {before after : List LogicalLine} {line : LogicalLine}
    (hlines : lines = before ++ line :: after) :
    ∃ level, StartsAt source line level ∧
      depth + indents (before.flatMap LogicalLine.lexemes ++ line.shift) =
        level + dedents (before.flatMap LogicalLine.lexemes ++ line.shift) := by
  induction h generalizing before with
  | nil depth => exact absurd hlines (by simp)
  | @cons depth level final head lines shift start rest ih =>
    obtain ⟨hsi, hsd, hindents, hdedents⟩ := counts_line shift
    cases before with
    | nil =>
      obtain ⟨rfl, rfl⟩ := List.cons.inj hlines
      refine ⟨level, start, ?_⟩
      rw [List.flatMap_nil, List.nil_append, hsi, hsd]
      omega
    | cons b before =>
      obtain ⟨rfl, hrest⟩ := List.cons.inj hlines
      obtain ⟨level', hstart, hbalance⟩ := ih hrest
      refine ⟨level', hstart, ?_⟩
      simp only [List.flatMap_cons, List.append_assoc, indents_append, dedents_append, hindents,
        hdedents] at hbalance ⊢
      omega

end Laid

/-! ## The layout pass -/

@[simp] theorem textOf_append (ps qs : List Piece) : textOf (ps ++ qs) = textOf ps ++ textOf qs :=
  List.flatMap_append

theorem sinceLineEnd_feed (ps : List Piece) {p : Piece} (h : p.item = .token .newline) :
    sinceLineEnd (ps ++ [p]) = [] := by
  simp [sinceLineEnd, h]

theorem sinceLineEnd_other (ps : List Piece) {p : Piece} (h : p.item ≠ .token .newline) :
    sinceLineEnd (ps ++ [p]) = sinceLineEnd ps ++ [p] := by
  simp [sinceLineEnd, h]

/-- The layout pass stands behind these pieces: at their end, and with the text since the last line end as its
margin as long as the line has no content. -/
structure Tracks (st : Layout) (front : List Piece) : Prop where
  offset : st.position.offset = byteSize (textOf front)
  margin : st.lineOpen = false → st.margin = textOf (sinceLineEnd front)

theorem tracks_start : Tracks .start [] :=
  ⟨rfl, fun _ => rfl⟩

theorem Tracks.gap {st : Layout} {front : List Piece} (h : Tracks st front) {p : Piece} (hp : p.item = .gap) :
    Tracks (st.pass p.text) (front ++ [p]) where
  offset := by simp [Layout.pass, Position.advance, h.offset, textOf]
  margin := by
    intro hopen
    have hopen' : st.lineOpen = false := hopen
    rw [sinceLineEnd_other front (by simp [hp]), textOf_append, ← h.margin hopen']
    simp [Layout.pass, hopen', textOf]

theorem Tracks.feed {st next : Layout} {front : List Piece} (h : Tracks st front) {p : Piece}
    (hp : p.item = .token .newline) {head : List Lexeme} (heq : (head, next) = st.endLine p.text) :
    Tracks next (front ++ [p]) := by
  have hoffset : (st.behindFeed p.text).position.offset = byteSize (textOf (front ++ [p])) := by
    simp [Layout.behindFeed, Position.advance, h.offset, textOf]
  have hmargin : textOf (sinceLineEnd (front ++ [p])) = [] := by
    rw [sinceLineEnd_feed front hp]
    rfl
  cases hopen : st.lineOpen with
  | false =>
    rw [Layout.endLine_closed hopen, Prod.mk.injEq] at heq
    rw [heq.2]
    exact ⟨hoffset, fun _ => hmargin.symm⟩
  | true =>
    rw [Layout.endLine_open hopen, Prod.mk.injEq] at heq
    rw [heq.2]
    exact ⟨hoffset, fun _ => hmargin.symm⟩

theorem Tracks.content {st : Layout} {front : List Piece} (h : Tracks st front) (p : Piece) (depth : Nat) :
    Tracks { st.behindContent p.text with depth := depth } (front ++ [p]) where
  offset := by simp [Layout.behindContent, Position.advance, h.offset, textOf]
  margin := by
    intro hopen
    exact absurd hopen (by simp [Layout.behindContent])

theorem takeWhile_append_of_stop {p : Char → Bool} {r : List Char} (h : ∀ c ∈ r.head?, p c = false)
    (l : List Char) : (l ++ r).takeWhile p = l.takeWhile p := by
  induction l with
  | nil =>
    cases r with
    | nil => rfl
    | cons c cs => simp [h c rfl]
  | cons c cs ih => rw [List.cons_append, List.takeWhile_cons, List.takeWhile_cons, ih]

/-- The leading blanks of a line end in front of its first token, which starts with none. -/
theorem leadingBlanks_eq_leading {st : Layout} {front : List Piece} (h : Tracks st front)
    (hopen : st.lineOpen = false) {p : Piece} {t : Token} (hs : Spells t p.text) (back : List Piece) :
    leadingBlanks front (p :: back) = st.leading := by
  rw [leadingBlanks, textOf_append, ← h.margin hopen, Layout.leading]
  apply takeWhile_append_of_stop
  obtain ⟨c, cs, hcs, hc, -⟩ := hs.head
  intro d hd
  obtain rfl : c = d := by simpa [textOf, hcs] using hd
  rw [Bool.eq_false_iff, Ne, Bool.or_eq_true, decide_eq_true_eq, decide_eq_true_eq]
  rintro (rfl | rfl) <;> exact absurd hc (by decide)

theorem columns_of_level {st : Layout} {level : Nat} (h : st.level = .ok level) :
    columns st.leading = indentWidth * level := by
  unfold Layout.level at h
  simp only at h
  split at h
  · rename_i hmod
    rw [← Except.ok.inj h]
    exact (Nat.mul_div_cancel' (Nat.dvd_of_mod_eq_zero hmod)).symm
  · exact nomatch h

theorem oneWay_change (place : Position) (depth level : Nat) :
    (∀ l ∈ Layout.change place depth level, l.token = .indent) ∨
      (∀ l ∈ Layout.change place depth level, l.token = .dedent) := by
  rcases Nat.le_total depth level with h | h
  · left
    intro l hl
    rw [Layout.change, Nat.sub_eq_zero_of_le h, List.replicate_zero, List.append_nil] at hl
    rw [List.eq_of_mem_replicate hl]
    rfl
  · right
    intro l hl
    rw [Layout.change, Nat.sub_eq_zero_of_le h, List.replicate_zero, List.nil_append] at hl
    rw [List.eq_of_mem_replicate hl]
    rfl

theorem isText_lexemeAt (st : Layout) {t : Token} {text : List Char} (h : Spells t text) :
    (st.lexemeAt t text).IsText := by
  obtain ⟨hn, hi, hd, hu⟩ := h.isContent
  refine ⟨?_, hu⟩
  simp only [Layout.lexemeAt]
  unfold Token.isContent
  split <;> first | rfl | contradiction

/-- What is left of a line that has content: further tokens and the line end. -/
structure LineRest where
  more : List Lexeme
  lineEnd : Lexeme
  content : ∀ l ∈ more, l.IsText
  ended : lineEnd.token = .newline

/-- The lexemes from a state on: what is left of the line if it has content, then whole lines, then dedents for
the levels that are still open. -/
def Continues (source : String) (st : Layout) (ls : List Lexeme) : Prop :=
  ∃ lines closing, (∀ l ∈ closing, l.token = .dedent) ∧ Laid source st.depth lines closing.length ∧
    (st.lineOpen = false → ls = lines.flatMap LogicalLine.lexemes ++ closing) ∧
    (st.lineOpen = true →
      ∃ r : LineRest, ls = r.more ++ r.lineEnd :: (lines.flatMap LogicalLine.lexemes ++ closing))

theorem continues_finish (source : String) (st : Layout) : Continues source st st.finish := by
  refine ⟨[], List.replicate st.depth (.synthetic .dedent ⟨st.position.offset, st.lastLine⟩), ?_, ?_, ?_, ?_⟩
  · intro l hl
    rw [List.eq_of_mem_replicate hl]
    rfl
  · rw [List.length_replicate]
    exact .nil st.depth
  · intro hopen
    simp [Layout.finish, hopen]
  · intro hopen
    refine ⟨⟨[], .synthetic .newline ⟨st.position.offset, st.lastLine⟩, by simp, rfl⟩, ?_⟩
    simp [Layout.finish, hopen]

theorem continues_feed {source : String} {st : Layout} {p : Piece} {head rest : List Lexeme} {next : Layout}
    (heq : (head, next) = st.endLine p.text) (h : Continues source next rest) :
    Continues source st (head ++ rest) := by
  obtain ⟨lines, closing, hclosing, hlaid, hls, -⟩ := h
  cases hopen : st.lineOpen with
  | false =>
    rw [Layout.endLine_closed hopen, Prod.mk.injEq] at heq
    obtain ⟨rfl, rfl⟩ := heq
    exact ⟨lines, closing, hclosing, hlaid, fun _ => hls rfl, by simp [hopen]⟩
  | true =>
    rw [Layout.endLine_open hopen, Prod.mk.injEq] at heq
    obtain ⟨rfl, rfl⟩ := heq
    refine ⟨lines, closing, hclosing, hlaid, by simp [hopen], fun _ => ?_⟩
    refine ⟨⟨[], st.lexemeAt .newline p.text, by simp, rfl⟩, ?_⟩
    rw [hls rfl]
    rfl

/-- A further token belongs to what is left of its line. -/
theorem continues_next {source : String} {st : Layout} (hopen : st.lineOpen = true) {t : Token}
    {text : List Char} (hs : Spells t text) {rest : List Lexeme}
    (h : Continues source (st.behindContent text) rest) :
    Continues source st ([st.lexemeAt t text] ++ rest) := by
  obtain ⟨lines, closing, hclosing, hlaid, -, hls⟩ := h
  obtain ⟨r, rfl⟩ := hls rfl
  refine ⟨lines, closing, hclosing, hlaid, by simp [hopen], fun _ => ?_⟩
  refine ⟨⟨st.lexemeAt t text :: r.more, r.lineEnd, ?_, r.ended⟩, rfl⟩
  intro l hl
  rcases List.mem_cons.mp hl with rfl | hl
  · exact isText_lexemeAt st hs
  · exact r.content l hl

/-- The first token of a line makes a whole line of what is left of it. -/
theorem continues_first {source : String} {st : Layout} (hopen : st.lineOpen = false) {front back : List Piece}
    {p : Piece} (htiling : pieces source.toList = front ++ p :: back) (ht : Tracks st front) {t : Token}
    (hp : p.item = .token t) (hs : Spells t p.text) {level : Nat} (hlevel : st.level = .ok level)
    {rest : List Lexeme} (h : Continues source { st.behindContent p.text with depth := level } rest) :
    Continues source st (Layout.change st.position st.depth level ++ [st.lexemeAt t p.text] ++ rest) := by
  obtain ⟨lines, closing, hclosing, hlaid, -, hls⟩ := h
  obtain ⟨r, rfl⟩ := hls rfl
  let line : LogicalLine :=
    { shift := Layout.change st.position st.depth level
      first := st.lexemeAt t p.text
      more := r.more
      lineEnd := r.lineEnd
      oneWay := oneWay_change st.position st.depth level
      content := by
        intro l hl
        rcases List.mem_cons.mp hl with rfl | hl
        · exact isText_lexemeAt st hs
        · exact r.content l hl
      ended := r.ended }
  refine ⟨line :: lines, closing, hclosing, .cons ?_ ?_ hlaid, fun _ => ?_, by simp [hopen]⟩
  · simp [line, Layout.change, Lexeme.synthetic]
  · refine ⟨front, p, back, ⟨htiling, hp, rfl, ht.offset⟩, ?_⟩
    rw [leadingBlanks_eq_leading ht hopen hs, columns_of_level hlevel]
  · simp [line, LogicalLine.lexemes]

/-- The induction is on the pieces that are left; the state knows of those behind it through `Tracks`. -/
theorem continues_run {source : String} {front ps : List Piece} (htiling : pieces source.toList = front ++ ps)
    {st : Layout} (ht : Tracks st front) {ls : List Lexeme} (hrun : st.run ps = .ok ls) :
    Continues source st ls := by
  induction ps generalizing front st ls with
  | nil =>
    rw [Layout.run, Except.ok.injEq] at hrun
    rw [← hrun]
    exact continues_finish source st
  | cons p ps ih =>
    have htiling' : pieces source.toList = (front ++ [p]) ++ ps := by rw [htiling, List.append_assoc]; rfl
    have hmem : p ∈ pieces source.toList := by rw [htiling]; simp
    obtain ⟨head, next, rest, hstep, hrest, rfl⟩ := Layout.run_cons_ok.mp hrun
    rcases Layout.step_cases hstep with ⟨hp, rfl, rfl⟩ | ⟨hp, heq⟩ | ⟨t, hp, hn, hu, hcontent⟩
    · exact ih htiling' (ht.gap hp) hrest
    · exact continues_feed heq (ih htiling' (ht.feed hp heq) hrest)
    · have hs := spells_of_mem_pieces hmem hp hn hu
      rcases Layout.content_cases hcontent with ⟨hopen, rfl, rfl⟩ | ⟨hopen, level, hlevel, rfl, rfl⟩
      · exact continues_next hopen hs (ih htiling' (ht.content p st.depth) hrest)
      · exact continues_first hopen htiling ht hp hs hlevel (ih htiling' (ht.content p level) hrest)

theorem LogicalLine.not_unclosed (line : LogicalLine) : ∀ l ∈ line.lexemes, ∀ what, l.token ≠ .unclosed what := by
  intro l hl what
  simp only [LogicalLine.lexemes, List.mem_append, List.mem_singleton] at hl
  rcases hl with (hl | hl) | rfl
  · rcases line.oneWay with hway | hway <;> rw [hway l hl] <;> simp
  · exact (line.content l hl).2 what
  · rw [line.ended]
    simp

/-- The lexemes of a source are logical lines and closing dedents. At every place at least as many indents as
dedents are behind, at the end equally many, and in front of the tokens of a line as many more as its leading blanks
have levels. No unclosed literal or comment is among them. -/
theorem lexemes_blocks {source : String} {ls : List Lexeme} (h : lexemes source = .ok ls) :
    ∃ (lines : List LogicalLine) (closing : List Lexeme),
      ls = lines.flatMap LogicalLine.lexemes ++ closing ∧
      (∀ l ∈ closing, l.token = .dedent) ∧
      (∀ front, front <+: ls → dedents front ≤ indents front) ∧
      dedents ls = indents ls ∧
      (∀ before line after, lines = before ++ line :: after →
        ∃ front p back, ReadFrom source line.first front p back ∧
          indents (before.flatMap LogicalLine.lexemes ++ line.shift) =
            dedents (before.flatMap LogicalLine.lexemes ++ line.shift) +
              columns (leadingBlanks front (p :: back)) / indentWidth) ∧
      ∀ l ∈ ls, ∀ what, l.token ≠ .unclosed what := by
  have htiling : pieces source.toList = [] ++ pieces source.toList := rfl
  obtain ⟨lines, closing, hclosing, hlaid, hls, -⟩ := continues_run htiling tracks_start h
  have hls := hls rfl
  have hcount : dedents closing = closing.length ∧ indents closing = 0 := by
    rw [dedents, indents, List.countP_eq_length, List.countP_eq_zero]
    exact ⟨fun l hl => by simp [hclosing l hl], fun l hl => by simp [hclosing l hl]⟩
  have hbalance := hlaid.balance
  refine ⟨lines, closing, hls, hclosing, ?_, ?_, ?_, ?_⟩
  · intro front hfront
    have hsound := hlaid.sound.append hbalance (sound_of_le (Nat.le_of_eq hcount.1)) front (hls ▸ hfront)
    rwa [show Layout.start.depth = 0 from rfl, Nat.zero_add] at hsound
  · rw [hls, dedents_append, indents_append, hcount.1, hcount.2]
    rw [show Layout.start.depth = 0 from rfl] at hbalance
    omega
  · intro before line after hlines
    obtain ⟨level, ⟨front, p, back, hread, hcolumns⟩, hlevel⟩ := hlaid.level hlines
    refine ⟨front, p, back, hread, ?_⟩
    rw [hcolumns, Nat.mul_div_cancel_left level (by decide)]
    rw [show Layout.start.depth = 0 from rfl] at hlevel
    omega
  · intro l hl what
    rw [hls, List.mem_append, List.mem_flatMap] at hl
    rcases hl with ⟨line, -, hl⟩ | hl
    · exact line.not_unclosed l hl what
    · rw [hclosing l hl]
      simp

/-- Two levels down at once, a comment and an empty line, one level up, and no line end behind a literal over two
lines. -/
theorem lexemes_blocks_nested :
    ∃ ls, lexemes "a\n\t\tb\n\n    \x7bc\n\x7d d \"x\ny\"" = .ok ls ∧
      (∀ front, front <+: ls → dedents front ≤ indents front) ∧ dedents ls = indents ls ∧
      ∀ l ∈ ls, ∀ what, l.token ≠ .unclosed what := by
  obtain ⟨ls, hls⟩ := exists_eq_ok
    (show (lexemes "a\n\t\tb\n\n    \x7bc\n\x7d d \"x\ny\"").isOk = true by decide +kernel)
  obtain ⟨_, _, _, _, hprefix, hequal, _, hclosed⟩ := lexemes_blocks hls
  exact ⟨ls, hls, hprefix, hequal, hclosed⟩

end Offside
