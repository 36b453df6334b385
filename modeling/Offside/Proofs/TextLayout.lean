import Offside.Proofs.LayoutStep
import Offside.Proofs.Spelling

/-!
# The layout of a text that is put together

Rules that read a text from its front, one for each thing a writer may put down: a line feed, the margin with the
first token of a line, a further token, a space, a comment. `Reads` says which tokens come of a text and on which
lines, from every state of the layout pass that agrees on the depth and the lines reached; byte offsets are no
part of it.
-/

namespace Offside

/-- The token of a lexeme with its line, all else left out. -/
def Lexeme.tokenAndLine (l : Lexeme) : Token × Nat :=
  (l.token, l.line)

namespace Layout

/-- What the rest of a text depends on: the depth, the line that is reached, and the line of the last lexeme.
A line without content has no margin yet. -/
structure Stands (st : Layout) (isOpen : Bool) (depth line lastLine : Nat) : Prop where
  lineOpen : st.lineOpen = isOpen
  depth : st.depth = depth
  line : st.position.line = line
  lastLine : st.lastLine = lastLine
  margin : isOpen = false → st.margin = []

theorem start_stands : start.Stands false 0 1 1 :=
  ⟨rfl, rfl, rfl, rfl, fun _ => rfl⟩

/-- The tokens and lines that a text gives rise to. -/
def Reads (isOpen : Bool) (depth line lastLine : Nat) (text : List Char) (out : List (Token × Nat)) : Prop :=
  ∀ st : Layout, st.Stands isOpen depth line lastLine →
    ∃ ls, st.run (pieces text) = .ok ls ∧ ls.map Lexeme.tokenAndLine = out

/-- The tokens that lead from one depth to another, on a line. -/
def shift (line depth level : Nat) : List (Token × Nat) :=
  List.replicate (level - depth) (.indent, line) ++ List.replicate (depth - level) (.dedent, line)

theorem map_change (place : Position) (depth level : Nat) :
    (change place depth level).map Lexeme.tokenAndLine = shift place.line depth level := by
  simp [change, shift, Lexeme.synthetic, Lexeme.tokenAndLine, Lexeme.line]

/-- The blanks in front of a line that stands at a level. -/
structure IsMargin (margin : List Char) (level : Nat) : Prop where
  blank : ∀ c ∈ margin, c = ' ' ∨ c = '\t'
  columns_eq : columns margin = indentWidth * level

theorem level_of_margin {st : Layout} {level : Nat} (h : IsMargin st.margin level) : st.level = .ok level := by
  have hblank : ∀ c ∈ st.margin, (c = ' ' || c = '\t') = true := by
    intro c hc
    simpa using h.blank c hc
  have hleading : st.leading = st.margin := by
    have htake := (takeWhile_dropWhile_append (r := []) hblank (by simp)).1
    rwa [List.append_nil] at htake
  rw [Layout.level, hleading, h.columns_eq]
  simp [indentWidth]

/-! ### From one state to the next -/

section

variable {st : Layout} {depth line lastLine : Nat} {rest : List Char}

/-- An empty line. -/
theorem Stands.feed (hst : st.Stands false depth line lastLine) (rest : List Char) :
    ∃ next : Layout, next.Stands false depth (line + 1) lastLine ∧
      st.run (pieces ('\n' :: rest)) = next.run (pieces rest) := by
  have hstep : st.step ⟨.token .newline, ['\n']⟩ = .ok ([], st.behindFeed ['\n']) := by
    rw [step_feed, endLine_closed hst.lineOpen]
  refine ⟨st.behindFeed ['\n'], ⟨rfl, hst.depth, ?_, hst.lastLine, fun _ => rfl⟩, ?_⟩
  · simp [behindFeed, Position.advance, lineFeeds, hst.line]
  · rw [pieces_feed, run_cons_of_silent hstep]

/-- A gap inside a line moves the place and nothing else. -/
theorem Stands.gap (hst : st.Stands true depth line lastLine) {text : List Char}
    (hp : pieces (text ++ rest) = ⟨.gap, text⟩ :: pieces rest) :
    ∃ next : Layout, next.Stands true depth (line + lineFeeds text) lastLine ∧
      st.run (pieces (text ++ rest)) = next.run (pieces rest) := by
  refine ⟨st.pass text, ⟨hst.lineOpen, hst.depth, ?_, hst.lastLine, by simp⟩, ?_⟩
  · simp [pass, Position.advance, hst.line]
  · rw [hp, run_cons_of_silent (step_gap st text)]

theorem Stands.space (hst : st.Stands true depth line lastLine) (hr : ∀ c ∈ rest.head?, Scan.isGap c = false) :
    ∃ next : Layout, next.Stands true depth line lastLine ∧
      st.run (pieces (' ' :: rest)) = next.run (pieces rest) := by
  have hp : pieces ([' '] ++ rest) = ⟨.gap, [' ']⟩ :: pieces rest :=
    pieces_blanks (by simp) (by simp [Scan.isGap]) hr
  exact hst.gap hp

theorem Stands.comment (hst : st.Stands true depth line lastLine) {body : List Char} (hb : '\x7d' ∉ body)
    (rest : List Char) :
    ∃ next : Layout, next.Stands true depth (line + lineFeeds body) lastLine ∧
      st.run (pieces ('\x7b' :: (body ++ '\x7d' :: rest))) = next.run (pieces rest) := by
  have hp := pieces_comment hb rest
  have happ : '\x7b' :: (body ++ '\x7d' :: rest) = ('\x7b' :: body ++ ['\x7d']) ++ rest := by simp
  rw [happ] at hp ⊢
  simpa [lineFeeds] using hst.gap hp

/-- The end of a line with content. -/
theorem Stands.lineEnd (hst : st.Stands true depth line lastLine) (rest : List Char) :
    ∃ (l : Lexeme) (next : Layout), l.token = .newline ∧ l.line = line ∧ next.Stands false depth (line + 1) line ∧
      ∀ ls, next.run (pieces rest) = .ok ls → st.run (pieces ('\n' :: rest)) = .ok (l :: ls) := by
  have hstep := step_feed st ['\n']
  rw [endLine_open hst.lineOpen] at hstep
  refine ⟨⟨.newline, .ofList ['\n'], st.position.covering ['\n']⟩,
    { st.behindFeed ['\n'] with lastLine := st.position.line }, rfl, hst.line,
    ⟨rfl, hst.depth, ?_, hst.line, fun _ => rfl⟩, fun ls hrun => ?_⟩
  · simp [behindFeed, Position.advance, lineFeeds, hst.line]
  · rw [pieces_feed]
    exact run_cons_ok.mpr ⟨_, _, ls, hstep, hrun, rfl⟩

/-- A further token of a line. -/
theorem Stands.next (hst : st.Stands true depth line lastLine) {t : Token} {text : List Char} (hs : Spells t text)
    (hends : ∀ c ∈ rest.head?, t.endsBefore c) :
    ∃ (l : Lexeme) (next : Layout), l.token = t ∧ l.text = .ofList text ∧ l.line = line ∧
      next.Stands true depth (line + lineFeeds text) line ∧
      ∀ ls, next.run (pieces rest) = .ok ls → st.run (pieces (text ++ rest)) = .ok (l :: ls) := by
  obtain ⟨hn, -, -, hu⟩ := hs.isContent
  have hstep := step_content st text hn hu
  rw [content_open hst.lineOpen] at hstep
  refine ⟨st.lexemeAt t text, st.behindContent text, rfl, rfl, hst.line,
    ⟨rfl, hst.depth, ?_, hst.line, by simp⟩, fun ls hrun => ?_⟩
  · simp [behindContent, Position.advance, hst.line]
  · rw [pieces_spelled hs hends]
    exact run_cons_ok.mpr ⟨_, _, ls, hstep, hrun, rfl⟩

/-- The first token of a line whose margin is behind. -/
theorem first_of_margin {t : Token} {text : List Char} {level : Nat} (hs : Spells t text)
    (hends : ∀ c ∈ rest.head?, t.endsBefore c) (hopen : st.lineOpen = false) (hdepth : st.depth = depth)
    (hline : st.position.line = line) (hmargin : IsMargin st.margin level) :
    ∃ (place : Position) (l : Lexeme) (next : Layout), place.line = line ∧ l.token = t ∧ l.text = .ofList text ∧
      l.line = line ∧ next.Stands true level (line + lineFeeds text) line ∧ ∀ ls, next.run (pieces rest) = .ok ls →
        st.run (pieces (text ++ rest)) = .ok (change place depth level ++ l :: ls) := by
  obtain ⟨hn, -, -, hu⟩ := hs.isContent
  have hstep := step_content st text hn hu
  rw [content_closed hopen (level_of_margin hmargin), hdepth] at hstep
  refine ⟨st.position, st.lexemeAt t text, { st.behindContent text with depth := level }, hline, rfl, rfl, hline,
    ⟨rfl, rfl, ?_, hline, by simp⟩, fun ls hrun => ?_⟩
  · simp [behindContent, Position.advance, hline]
  · rw [pieces_spelled hs hends]
    exact run_cons_ok.mpr ⟨_, _, ls, hstep, hrun, by simp⟩

/-- The margin and the first token of a line. -/
theorem Stands.first (hst : st.Stands false depth line lastLine) {t : Token} {margin text : List Char} {level : Nat}
    (hm : IsMargin margin level) (hs : Spells t text) (hends : ∀ c ∈ rest.head?, t.endsBefore c) :
    ∃ (place : Position) (l : Lexeme) (next : Layout), place.line = line ∧ l.token = t ∧ l.text = .ofList text ∧
      l.line = line ∧ next.Stands true level (line + lineFeeds text) line ∧ ∀ ls, next.run (pieces rest) = .ok ls →
        st.run (pieces (margin ++ (text ++ rest))) = .ok (change place depth level ++ l :: ls) := by
  by_cases hnil : margin = []
  · subst hnil
    exact first_of_margin hs hends hst.lineOpen hst.depth hst.line (by rw [hst.margin rfl]; exact hm)
  · have hgap : ∀ c ∈ margin, Scan.isGap c := by
      intro c hc
      rcases hm.blank c hc with rfl | rfl <;> decide
    have hfeeds : lineFeeds margin = 0 := by
      rw [lineFeeds, List.count_eq_zero]
      intro hc
      rcases hm.blank _ hc with h | h <;> exact absurd h (by decide)
    rw [pieces_blanks hnil hgap (hs.head_append rest), run_cons_of_silent (step_gap st margin)]
    refine first_of_margin hs hends hst.lineOpen hst.depth ?_ ?_
    · simp [pass, Position.advance, hst.line, hfeeds]
    · simpa [pass, hst.lineOpen, hst.margin rfl] using hm

end

/-! ### Tokens and lines -/

section

variable {depth line lastLine : Nat} {rest : List Char} {out : List (Token × Nat)}

/-- At the end of a text the open levels are closed. -/
theorem reads_nil : Reads false depth line lastLine [] (List.replicate depth (.dedent, lastLine)) := by
  intro st hst
  refine ⟨st.finish, by rw [pieces, run], ?_⟩
  simp [finish, hst.lineOpen, hst.depth, hst.lastLine, Lexeme.synthetic, Lexeme.tokenAndLine, Lexeme.line]

theorem reads_feed (h : Reads false depth (line + 1) lastLine rest out) :
    Reads false depth line lastLine ('\n' :: rest) out := by
  intro st hst
  obtain ⟨next, hnext, hrun⟩ := hst.feed rest
  rw [hrun]
  exact h next hnext

theorem reads_lineEnd (h : Reads false depth (line + 1) line rest out) :
    Reads true depth line lastLine ('\n' :: rest) ((.newline, line) :: out) := by
  intro st hst
  obtain ⟨l, next, htoken, hline, hnext, hrun⟩ := hst.lineEnd rest
  obtain ⟨ls, hls, hout⟩ := h next hnext
  exact ⟨l :: ls, hrun ls hls, by simp [Lexeme.tokenAndLine, htoken, hline, hout]⟩

/-- A space inside a line. -/
theorem reads_space (hr : ∀ c ∈ rest.head?, Scan.isGap c = false)
    (h : Reads true depth line lastLine rest out) : Reads true depth line lastLine (' ' :: rest) out := by
  intro st hst
  obtain ⟨next, hnext, hrun⟩ := hst.space hr
  rw [hrun]
  exact h next hnext

/-- A comment inside a line. -/
theorem reads_comment {body : List Char} (hb : '\x7d' ∉ body)
    (h : Reads true depth (line + lineFeeds body) lastLine rest out) :
    Reads true depth line lastLine ('\x7b' :: (body ++ '\x7d' :: rest)) out := by
  intro st hst
  obtain ⟨next, hnext, hrun⟩ := hst.comment hb rest
  rw [hrun]
  exact h next hnext

theorem reads_next {t : Token} {text : List Char} (hs : Spells t text)
    (hends : ∀ c ∈ rest.head?, t.endsBefore c)
    (h : Reads true depth (line + lineFeeds text) line rest out) :
    Reads true depth line lastLine (text ++ rest) ((t, line) :: out) := by
  intro st hst
  obtain ⟨l, next, htoken, -, hline, hnext, hrun⟩ := hst.next hs hends
  obtain ⟨ls, hls, hout⟩ := h next hnext
  exact ⟨l :: ls, hrun ls hls, by simp [Lexeme.tokenAndLine, htoken, hline, hout]⟩

theorem reads_first {t : Token} {margin text : List Char} {level : Nat} (hm : IsMargin margin level)
    (hs : Spells t text) (hends : ∀ c ∈ rest.head?, t.endsBefore c)
    (h : Reads true level (line + lineFeeds text) line rest out) :
    Reads false depth line lastLine (margin ++ (text ++ rest)) (shift line depth level ++ (t, line) :: out) := by
  intro st hst
  obtain ⟨place, l, next, hplace, htoken, -, hline, hnext, hrun⟩ := hst.first hm hs hends
  obtain ⟨ls, hls, hout⟩ := h next hnext
  refine ⟨_, hrun ls hls, ?_⟩
  simp [map_change, hplace, Lexeme.tokenAndLine, htoken, hline, ← hout]

end

/-- The lexemes of a text that reads as these tokens on these lines. -/
theorem lexemes_of_reads {source : String} {out : List (Token × Nat)}
    (h : Reads false 0 1 1 source.toList out) :
    ∃ ls, lexemes source = .ok ls ∧ ls.map Lexeme.tokenAndLine = out :=
  h start start_stands

end Layout

end Offside
