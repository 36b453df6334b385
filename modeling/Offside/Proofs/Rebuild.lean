import Offside.Lexeme.Rebuild
import Offside.Proofs.TextLayout

/-!
# Reading a rebuilt text again

The text rebuilt from the lexemes of a source is read piece by piece, in step with the source: `Follows` ties the
layout pass over the source, the pen that writes its lexemes and the layout pass over what the pen has written.
Every token comes back. Its line comes back too, with one exception: a source that ends in a literal over several
lines, without a line end, has its last line end and its closing dedents on the first line of the literal, while
the rebuilt text has them on the last.
-/

namespace Offside

namespace Pen

/-- All that a pen writes for some lexemes, as characters. -/
def written (pen : Pen) (ls : List Lexeme) : List Char :=
  (pen.writeAll ls).flatMap String.toList

@[simp] theorem written_nil (pen : Pen) : pen.written [] = [] := rfl

theorem written_cons (pen : Pen) (l : Lexeme) (ls : List Lexeme) :
    pen.written (l :: ls) = (pen.write l).1.toList ++ (pen.write l).2.written ls := by
  simp [written, writeAll]

theorem toList_rebuild (ls : List Lexeme) : (rebuild ls).toList = start.written ls := by
  rw [rebuild, String.toList_join, written]

theorem written_indents (pen : Pen) {shift : List Lexeme} (h : ∀ l ∈ shift, l.token = .indent) (ls : List Lexeme) :
    pen.written (shift ++ ls) = { pen with depth := pen.depth + shift.length }.written ls := by
  induction shift generalizing pen with
  | nil => rfl
  | cons l shift ih =>
    obtain ⟨hl, hshift⟩ := List.forall_mem_cons.mp h
    have hwrite : pen.write l = ("", { pen with depth := pen.depth + 1 }) := by rw [write, hl]
    rw [List.cons_append, written_cons, hwrite, ih _ hshift]
    simp [Nat.add_assoc, Nat.add_comm 1 shift.length]

theorem written_dedents (pen : Pen) {shift : List Lexeme} (h : ∀ l ∈ shift, l.token = .dedent) (ls : List Lexeme) :
    pen.written (shift ++ ls) = { pen with depth := pen.depth - shift.length }.written ls := by
  induction shift generalizing pen with
  | nil => rfl
  | cons l shift ih =>
    obtain ⟨hl, hshift⟩ := List.forall_mem_cons.mp h
    have hwrite : pen.write l = ("", { pen with depth := pen.depth - 1 }) := by rw [write, hl]
    rw [List.cons_append, written_cons, hwrite, ih _ hshift]
    simp [Nat.sub_sub, Nat.add_comm 1 shift.length]

theorem token_of_mem_replicate (n : Nat) (t : Token) (place : Position) :
    ∀ l ∈ List.replicate n (Lexeme.synthetic t place), l.token = t := by
  intro l hl
  rw [List.eq_of_mem_replicate hl]
  rfl

/-- Indents and dedents write nothing and bring the pen to the new depth. -/
theorem written_change (pen : Pen) (place : Position) (level : Nat) (ls : List Lexeme) :
    pen.written (Layout.change place pen.depth level ++ ls) = { pen with depth := level }.written ls := by
  rw [Layout.change, List.append_assoc, written_indents _ (token_of_mem_replicate _ _ place),
    written_dedents _ (token_of_mem_replicate _ _ place)]
  congr 2
  simp only [List.length_replicate]
  omega

/-- A comment is set apart by a space. -/
theorem toList_padding (pen : Pen) (line : Nat) :
    (pen.padding line).toList =
      if line ≤ pen.line then [] else ' ' :: '\x7b' :: (List.replicate (line - pen.line) '\n' ++ ['\x7d']) := by
  unfold padding
  split
  · rfl
  · simp [repeated]

/-- The first thing written for a lexeme that is no indent or dedent, on a line with content. -/
theorem head_written {pen : Pen} (h : pen.atLineStart = false) {l : Lexeme} (hi : l.token ≠ .indent)
    (hd : l.token ≠ .dedent) (ls : List Lexeme) :
    ∃ c cs, pen.written (l :: ls) = c :: cs ∧ (c = ' ' ∨ c = '\n') := by
  rw [written_cons]
  unfold write
  split
  · exact absurd ‹_› hi
  · exact absurd ‹_› hd
  · rw [String.toList_append, toList_padding]
    split
    · exact ⟨'\n', _, rfl, .inr rfl⟩
    · exact ⟨' ', _, rfl, .inl rfl⟩
  · rw [lead, if_neg (by simp [h]), String.toList_append, String.toList_append, toList_padding]
    split
    · exact ⟨' ', _, rfl, .inl rfl⟩
    · exact ⟨' ', _, rfl, .inl rfl⟩

/-- The pen behind a line end on a line. -/
def behindLineEnd (pen : Pen) (line : Nat) : Pen :=
  { pen with atLineStart := true, line := max pen.line line + 1 }

theorem written_newline (pen : Pen) {l : Lexeme} (h : l.token = .newline) (ls : List Lexeme) :
    pen.written (l :: ls) =
      (pen.padding l.line).toList ++ '\n' :: (pen.behindLineEnd l.line).written ls := by
  rw [written_cons]
  simp [write, h, behindLineEnd]

/-- The pen behind a token with text on a line. -/
def behindContent (pen : Pen) (line : Nat) (text : List Char) : Pen :=
  { pen with atLineStart := false, line := max pen.line line + lineFeeds text }

/-- A token with text: what leads to it, its text, and the rest. -/
theorem written_text (pen : Pen) {l : Lexeme} (h : l.token.isContent = true) (ls : List Lexeme) :
    pen.written (l :: ls) = (pen.lead l.line).toList ++
      ((textOf l).toList ++ (pen.behindContent l.line (textOf l).toList).written ls) := by
  obtain ⟨hn, hi, hd⟩ := Token.isContent_iff.mp h
  rw [written_cons]
  unfold write
  split
  · exact absurd ‹_› hi
  · exact absurd ‹_› hd
  · exact absurd ‹_› hn
  · simp [behindContent]

/-- A lexeme with the text that its token was read from. -/
theorem written_spelled (pen : Pen) {l : Lexeme} {text : List Char} (hs : Spells l.token text)
    (htext : l.text = .ofList text) (ls : List Lexeme) :
    pen.written (l :: ls) = (pen.lead l.line).toList ++ (text ++ (pen.behindContent l.line text).written ls) := by
  have hown : (textOf l).toList = text := by
    obtain ⟨c, cs, rfl, -⟩ := hs.head
    simp [textOf, htext]
  obtain ⟨hn, hi, hd, -⟩ := hs.isContent
  rw [written_text pen (Token.isContent_iff.mpr ⟨hn, hi, hd⟩), hown]

theorem written_content (pen : Pen) (st : Layout) {t : Token} {text : List Char} (h : Spells t text)
    (ls : List Lexeme) :
    pen.written (st.lexemeAt t text :: ls) = (pen.lead st.position.line).toList ++
      (text ++ (pen.behindContent st.position.line text).written ls) := by
  have hs : Spells (st.lexemeAt t text).token text := h
  exact written_spelled pen hs rfl ls

end Pen

open Layout

/-- The layout pass over a source and the pen that writes its lexemes: the pen has come no further than the pass,
and on an open line it is past the start of the last token. -/
structure Follows (st : Layout) (pen : Pen) : Prop where
  atLineStart : pen.atLineStart = !st.lineOpen
  depth : pen.depth = st.depth
  behind : pen.line ≤ st.position.line
  past : st.lineOpen = true → st.lastLine ≤ pen.line

/-- Whether the pieces behind a state end, but for gaps, in a token over several lines. If there is no token among
them, it is the one in front of them, and the pen is below its first line. -/
def Overhangs (st : Layout) (pen : Pen) (ps : List Piece) : Prop :=
  match (ps.filter (·.item ≠ .gap)).getLast? with
  | some p => p.item ≠ .token .newline ∧ '\n' ∈ p.text
  | none => st.lineOpen = true ∧ st.lastLine < pen.line

theorem overhangs_gap {st next : Layout} {pen : Pen} {p : Piece} (h : p.item = .gap) (ps : List Piece)
    (hopen : next.lineOpen = st.lineOpen) (hlast : next.lastLine = st.lastLine) :
    Overhangs st pen (p :: ps) ↔ Overhangs next pen ps := by
  simp [Overhangs, h, hopen, hlast]

/-- Behind a token the question is about that token until another one follows. -/
theorem overhangs_token {st next : Layout} {pen pen' : Pen} {p : Piece} (h : p.item ≠ .gap) (ps : List Piece)
    (hp : (p.item ≠ .token .newline ∧ '\n' ∈ p.text) ↔ (next.lineOpen = true ∧ next.lastLine < pen'.line)) :
    Overhangs st pen (p :: ps) ↔ Overhangs next pen' ps := by
  unfold Overhangs
  rw [List.filter_cons_of_pos (by simpa using h), List.getLast?_cons]
  cases (ps.filter (·.item ≠ .gap)).getLast? with
  | none => exact hp
  | some q => exact Iff.rfl

/-- The comment in front of a token takes the pass to the line of the token. -/
theorem Layout.Stands.padding {st : Layout} {pen : Pen} {depth lastLine : Nat}
    (hst : st.Stands true depth pen.line lastLine) (line : Nat) (rest : List Char) :
    ∃ next : Layout, next.Stands true depth (max pen.line line) lastLine ∧
      st.run (pieces ((pen.padding line).toList ++ rest)) = next.run (pieces rest) := by
  rw [Pen.toList_padding]
  split
  · rename_i hle
    exact ⟨st, by rwa [Nat.max_eq_left hle], rfl⟩
  · rename_i hlt
    have hline : pen.line + lineFeeds (List.replicate (line - pen.line) '\n') = max pen.line line := by
      simp only [lineFeeds, List.count_replicate_self]
      omega
    have hbody : '\x7d' ∉ List.replicate (line - pen.line) '\n' := by simp
    have hbrace : ∀ c ∈ ('\x7b' :: (List.replicate (line - pen.line) '\n' ++ '\x7d' :: rest)).head?,
        Scan.isGap c = false := by simp [Scan.isGap]
    rw [List.cons_append, List.cons_append, List.append_assoc, List.singleton_append]
    obtain ⟨behindSpace, hspace, hfirst⟩ := hst.space hbrace
    obtain ⟨next, hnext, hsecond⟩ := hspace.comment hbody rest
    rw [hline] at hnext
    exact ⟨next, hnext, hfirst.trans hsecond⟩

/-- Empty lines. -/
theorem Layout.Stands.feeds {st : Layout} {depth line lastLine : Nat} (hst : st.Stands false depth line lastLine)
    (n : Nat) (rest : List Char) :
    ∃ next : Layout, next.Stands false depth (line + n) lastLine ∧
      st.run (pieces (List.replicate n '\n' ++ rest)) = next.run (pieces rest) := by
  induction n generalizing st line with
  | zero => exact ⟨st, hst, rfl⟩
  | succ n ih =>
    obtain ⟨behindFeed, hfeed, hfirst⟩ := hst.feed (List.replicate n '\n' ++ rest)
    obtain ⟨next, hnext, hmore⟩ := ih hfeed
    exact ⟨next, by rwa [Nat.add_comm n 1, ← Nat.add_assoc], hfirst.trans hmore⟩

theorem reads_padding {pen : Pen} {depth lastLine line : Nat} {rest : List Char} {out : List (Token × Nat)}
    (h : Reads true depth (max pen.line line) lastLine rest out) :
    Reads true depth pen.line lastLine ((pen.padding line).toList ++ rest) out := by
  intro st hst
  obtain ⟨next, hnext, hrun⟩ := hst.padding line rest
  rw [hrun]
  exact h next hnext

theorem reads_feeds {depth line lastLine : Nat} {rest : List Char} {out : List (Token × Nat)} (n : Nat)
    (h : Reads false depth (line + n) lastLine rest out) :
    Reads false depth line lastLine (List.replicate n '\n' ++ rest) out := by
  intro st hst
  obtain ⟨next, hnext, hrun⟩ := hst.feeds n rest
  rw [hrun]
  exact h next hnext

theorem isMargin_tabs (level : Nat) : IsMargin (List.replicate level '\t') level where
  blank := fun c hc => .inr (List.eq_of_mem_replicate hc)
  columns_eq := by
    induction level with
    | zero => rfl
    | succ n ih =>
      rw [List.replicate_succ, columns, ih, if_pos rfl, Nat.mul_succ, Nat.add_comm]

/-- A token, with its line if it has a text of its own. -/
def ownLine (t : Token × Nat) : Token × Option Nat :=
  (t.1, if t.1.isContent then some t.2 else none)

/-- What is written for the lexemes of some pieces reads as the same tokens, and on the same lines unless the pieces end
in a literal over several lines. Tokens with a text of their own are always on the same lines. -/
structure ReadsAs (st : Layout) (pen : Pen) (ps : List Piece) (ls : List Lexeme) (out : List (Token × Nat)) : Prop where
  reads : Reads st.lineOpen st.depth pen.line st.lastLine (pen.written ls) out
  tokens : out.map Prod.fst = ls.map Lexeme.token
  lines : out = ls.map Lexeme.tokenAndLine ↔ ¬ Overhangs st pen ps
  ownLines : out.map ownLine = ls.map fun l => ownLine l.tokenAndLine

def ComesBack (st : Layout) (pen : Pen) (ps : List Piece) (ls : List Lexeme) : Prop :=
  ∃ out, ReadsAs st pen ps ls out

theorem comesBack_finish {st : Layout} {pen : Pen} (h : Follows st pen) : ComesBack st pen [] st.finish := by
  have hclosing : ∀ p : Pen, p.written
      (List.replicate st.depth (.synthetic .dedent ⟨st.position.offset, st.lastLine⟩)) = [] := by
    intro p
    have hwritten := p.written_dedents (Pen.token_of_mem_replicate st.depth _ ⟨st.position.offset, st.lastLine⟩) []
    rwa [List.append_nil, Pen.written_nil] at hwritten
  cases hopen : st.lineOpen with
  | false =>
    refine ⟨List.replicate st.depth (.dedent, st.lastLine), ?_, ?_, ?_, ?_⟩
    · simp only [finish, hopen, Bool.false_eq_true, if_false, List.nil_append]
      rw [hclosing]
      exact reads_nil
    · simp [finish, hopen, Lexeme.synthetic]
    · simp [finish, hopen, Lexeme.synthetic, Lexeme.tokenAndLine, Lexeme.line, Overhangs]
    · simp [finish, hopen, Lexeme.synthetic, Lexeme.tokenAndLine, ownLine, Token.isContent]
  | true =>
    have hpast := h.past hopen
    refine ⟨(.newline, pen.line) :: List.replicate st.depth (.dedent, pen.line), ?_, ?_, ?_, ?_⟩
    · simp only [finish, hopen, if_true, List.cons_append, List.nil_append]
      rw [Pen.written_newline _ rfl]
      refine reads_padding ?_
      rw [hclosing]
      have hline : max pen.line (Lexeme.synthetic .newline ⟨st.position.offset, st.lastLine⟩).line = pen.line :=
        Nat.max_eq_left hpast
      rw [hline]
      exact reads_lineEnd reads_nil
    · simp [finish, hopen, Lexeme.synthetic]
    · simp [finish, hopen, Lexeme.synthetic, Lexeme.tokenAndLine, Lexeme.line, Overhangs]
      constructor
      · intro heq
        omega
      · intro hle
        have heq : pen.line = st.lastLine := by omega
        simp [heq]
    · simp [finish, hopen, Lexeme.synthetic, Lexeme.tokenAndLine, ownLine, Token.isContent]

theorem comesBack_gap {st : Layout} {pen : Pen} {p : Piece} (hp : p.item = .gap) {ps : List Piece}
    {ls : List Lexeme} (h : ComesBack (st.pass p.text) pen ps ls) : ComesBack st pen (p :: ps) ls := by
  obtain ⟨out, hreads, htokens, hlines, hown⟩ := h
  have hover : Overhangs st pen (p :: ps) ↔ Overhangs (st.pass p.text) pen ps := overhangs_gap hp ps rfl rfl
  exact ⟨out, hreads, htokens, by rw [hlines, hover], hown⟩

theorem comesBack_feed_closed {st : Layout} {pen : Pen} {p : Piece} (hp : p.item = .token .newline)
    (hopen : st.lineOpen = false) {ps : List Piece} {ls : List Lexeme}
    (h : ComesBack (st.behindFeed p.text) pen ps ls) : ComesBack st pen (p :: ps) ls := by
  obtain ⟨out, hreads, htokens, hlines, hown⟩ := h
  have hover : Overhangs st pen (p :: ps) ↔ Overhangs (st.behindFeed p.text) pen ps :=
    overhangs_token (by simp [hp]) ps (by simp [hp, behindFeed])
  exact ⟨out, by rw [hopen]; exact hreads, htokens, by rw [hlines, hover], hown⟩

theorem comesBack_feed_open {st : Layout} {pen : Pen} (hf : Follows st pen) {p : Piece}
    (hp : p.item = .token .newline) (hopen : st.lineOpen = true) {ps : List Piece} {ls : List Lexeme}
    (h : ComesBack { st.behindFeed p.text with lastLine := st.position.line }
      (pen.behindLineEnd st.position.line) ps ls) :
    ComesBack st pen (p :: ps) (st.lexemeAt .newline p.text :: ls) := by
  obtain ⟨out, hreads, htokens, hlines, hown⟩ := h
  have hmax : max pen.line st.position.line = st.position.line := Nat.max_eq_right hf.behind
  refine ⟨(.newline, st.position.line) :: out, ?_, by simp [htokens, lexemeAt], ?_, ?_⟩
  · rw [Pen.written_newline _ rfl, hopen]
    refine reads_padding ?_
    have hline : (st.lexemeAt .newline p.text).line = st.position.line := rfl
    rw [hline, hmax]
    have hpen : (pen.behindLineEnd st.position.line).line = st.position.line + 1 := by
      rw [Pen.behindLineEnd, hmax]
    rw [hpen] at hreads
    exact reads_lineEnd hreads
  · have hover : Overhangs st pen (p :: ps) ↔ Overhangs { st.behindFeed p.text with lastLine := st.position.line }
        (pen.behindLineEnd st.position.line) ps :=
      overhangs_token (by simp [hp]) ps (by simp [hp, behindFeed])
    rw [hover, ← hlines]
    simp [lexemeAt, Lexeme.tokenAndLine, Lexeme.line, Position.covering]
  · rw [List.map_cons, List.map_cons, hown]
    rfl

theorem endsBefore_blank (t : Token) {c : Char} (h : c = ' ' ∨ c = '\n') : t.endsBefore c := by
  rcases h with rfl | rfl <;> cases t <;> rfl

theorem overhangs_content {st : Layout} {pen : Pen} (hle : pen.line ≤ st.position.line) {p : Piece} {t : Token}
    (hp : p.item = .token t) (hs : Spells t p.text) (ps : List Piece) (next : Layout) (hopen : next.lineOpen = true)
    (hlast : next.lastLine = st.position.line) :
    Overhangs st pen (p :: ps) ↔ Overhangs next (pen.behindContent st.position.line p.text) ps := by
  have hmax : max pen.line st.position.line = st.position.line := Nat.max_eq_right hle
  refine overhangs_token (by simp [hp]) ps ?_
  simp [hp, hs.isContent.1, hopen, hlast, Pen.behindContent, hmax, lineFeeds, List.count_pos_iff]

theorem comesBack_content_open {st : Layout} {pen : Pen} (hf : Follows st pen) {p : Piece} {t : Token}
    (hp : p.item = .token t) (hs : Spells t p.text) (hopen : st.lineOpen = true) {ps : List Piece}
    {ls : List Lexeme}
    (hhead : ∀ c ∈ ((pen.behindContent st.position.line p.text).written ls).head?, c = ' ' ∨ c = '\n')
    (h : ComesBack (st.behindContent p.text) (pen.behindContent st.position.line p.text) ps ls) :
    ComesBack st pen (p :: ps) (st.lexemeAt t p.text :: ls) := by
  obtain ⟨out, hreads, htokens, hlines, hown⟩ := h
  have hmax : max pen.line st.position.line = st.position.line := Nat.max_eq_right hf.behind
  refine ⟨(t, st.position.line) :: out, ?_, by simp [htokens, lexemeAt], ?_, ?_⟩
  · have hlead : (pen.lead st.position.line).toList = (pen.padding st.position.line).toList ++ [' '] := by
      simp [Pen.lead, hf.atLineStart, hopen]
    rw [Pen.written_content pen st hs, hlead, hopen, List.append_assoc, List.singleton_append]
    refine reads_padding (reads_space ?_ ?_)
    · exact hs.head_append _
    · rw [hmax]
      have hpen : (pen.behindContent st.position.line p.text).line =
          st.position.line + lineFeeds p.text := by rw [Pen.behindContent, hmax]
      rw [hpen] at hreads
      exact reads_next hs (fun c hc => endsBefore_blank t (hhead c hc)) hreads
  · have hover := overhangs_content hf.behind hp hs ps (st.behindContent p.text) rfl rfl
    rw [hover, ← hlines]
    simp [lexemeAt, Lexeme.tokenAndLine, Lexeme.line, Position.covering]
  · rw [List.map_cons, List.map_cons, hown]
    rfl

theorem comesBack_content_closed {st : Layout} {pen : Pen} (hf : Follows st pen) {p : Piece} {t : Token}
    (hp : p.item = .token t) (hs : Spells t p.text) (hopen : st.lineOpen = false) (level : Nat) {ps : List Piece}
    {ls : List Lexeme}
    (hhead : ∀ c ∈ (({ pen with depth := level }.behindContent st.position.line p.text).written ls).head?,
      c = ' ' ∨ c = '\n')
    (h : ComesBack { st.behindContent p.text with depth := level }
      ({ pen with depth := level }.behindContent st.position.line p.text) ps ls) :
    ComesBack st pen (p :: ps) (change st.position st.depth level ++ st.lexemeAt t p.text :: ls) := by
  obtain ⟨out, hreads, htokens, hlines, hown⟩ := h
  have hmax : max pen.line st.position.line = st.position.line := Nat.max_eq_right hf.behind
  refine ⟨shift st.position.line st.depth level ++ (t, st.position.line) :: out, ?_, ?_, ?_, ?_⟩
  · have hlead : ({ pen with depth := level }.lead st.position.line).toList =
        List.replicate (st.position.line - pen.line) '\n' ++ List.replicate level '\t' := by
      simp [Pen.lead, hf.atLineStart, hopen, Pen.repeated]
    rw [← hf.depth, Pen.written_change, Pen.written_content _ st hs, hlead, hopen, List.append_assoc, hf.depth]
    refine reads_feeds _ ?_
    rw [Nat.add_sub_cancel' hf.behind]
    have hpen : ({ pen with depth := level }.behindContent st.position.line p.text).line =
        st.position.line + lineFeeds p.text := by simp only [Pen.behindContent, hmax]
    rw [hpen] at hreads
    exact reads_first (isMargin_tabs level) hs (fun c hc => endsBefore_blank t (hhead c hc)) hreads
  · simp [htokens, lexemeAt, shift, change, Lexeme.synthetic]
  · have hover := overhangs_content hf.behind hp hs ps { st.behindContent p.text with depth := level } rfl rfl
    have hsame : Overhangs { st.behindContent p.text with depth := level }
        ({ pen with depth := level }.behindContent st.position.line p.text) ps =
        Overhangs { st.behindContent p.text with depth := level }
          (pen.behindContent st.position.line p.text) ps := rfl
    rw [hover, ← hsame, ← hlines, List.map_append, map_change, List.append_cancel_left_eq]
    simp [lexemeAt, Lexeme.tokenAndLine, Lexeme.line, Position.covering]
  · rw [List.map_append, List.map_append, List.map_cons, List.map_cons, hown, ← map_change, List.map_map]
    rfl

/-- On an open line the next lexeme is a token or the line end. -/
theorem head_of_open {cs : List Char} {ps : List Piece} (hps : ∀ p ∈ ps, p ∈ pieces cs) {st : Layout}
    {ls : List Lexeme} (hrun : st.run ps = .ok ls) (hopen : st.lineOpen = true) :
    ∃ l rest, ls = l :: rest ∧ l.token ≠ .indent ∧ l.token ≠ .dedent := by
  induction ps generalizing st ls with
  | nil =>
    rw [run, Except.ok.injEq] at hrun
    subst hrun
    simp [finish, hopen, Lexeme.synthetic]
  | cons p ps ih =>
    obtain ⟨head, next, rest, hstep, hrest, rfl⟩ := run_cons_ok.mp hrun
    rcases step_cases hstep with ⟨-, rfl, rfl⟩ | ⟨-, heq⟩ | ⟨t, hp, hn, hu, hcontent⟩
    · exact ih (fun q hq => hps q (by simp [hq])) hrest hopen
    · rw [endLine_open hopen, Prod.mk.injEq] at heq
      rw [heq.1]
      exact ⟨_, _, rfl, by simp, by simp⟩
    · have hs := spells_of_mem_pieces (hps p (by simp)) hp hn hu
      rcases content_cases hcontent with ⟨-, rfl, -⟩ | ⟨hclosed, -⟩
      · exact ⟨_, _, rfl, hs.isContent.2.1, hs.isContent.2.2.1⟩
      · exact absurd hopen (by simp [hclosed])

theorem head_written_of_open {cs : List Char} {ps : List Piece} (hps : ∀ p ∈ ps, p ∈ pieces cs) {st : Layout}
    {ls : List Lexeme} (hrun : st.run ps = .ok ls) (hopen : st.lineOpen = true) {pen : Pen}
    (hpen : pen.atLineStart = false) : ∀ c ∈ (pen.written ls).head?, c = ' ' ∨ c = '\n' := by
  obtain ⟨l, rest, rfl, hi, hd⟩ := head_of_open hps hrun hopen
  obtain ⟨c, cs, hcs, hc⟩ := Pen.head_written hpen hi hd rest
  intro d hd
  obtain rfl : c = d := by simpa [hcs] using hd
  exact hc

/-- The pieces of a source, from any state on that a pen follows. The induction is on the pieces; each kind of
piece moves the pass and the pen to states that follow each other again. -/
theorem comesBack_run {cs : List Char} {ps : List Piece} (hps : ∀ p ∈ ps, p ∈ pieces cs) {st : Layout} {pen : Pen}
    {ls : List Lexeme} (hrun : st.run ps = .ok ls) (hf : Follows st pen) : ComesBack st pen ps ls := by
  induction ps generalizing st pen ls with
  | nil =>
    rw [run, Except.ok.injEq] at hrun
    subst hrun
    exact comesBack_finish hf
  | cons p ps ih =>
    have hps' : ∀ q ∈ ps, q ∈ pieces cs := fun q hq => hps q (by simp [hq])
    obtain ⟨head, next, rest, hstep, hrest, rfl⟩ := run_cons_ok.mp hrun
    rcases step_cases hstep with ⟨hp, rfl, rfl⟩ | ⟨hp, heq⟩ | ⟨t, hp, hn, hu, hcontent⟩
    · refine comesBack_gap hp (ih hps' hrest ⟨hf.atLineStart, hf.depth, ?_, hf.past⟩)
      exact Nat.le_trans hf.behind (by simp [Layout.pass, Position.advance])
    · have htext : p.text = ['\n'] := feed_of_mem_pieces (hps p (by simp)) hp
      cases hopen : st.lineOpen with
      | false =>
        rw [endLine_closed hopen, Prod.mk.injEq] at heq
        obtain ⟨rfl, rfl⟩ := heq
        refine comesBack_feed_closed hp hopen (ih hps' hrest ⟨?_, hf.depth, ?_, by simp [behindFeed]⟩)
        · simpa [behindFeed, hopen] using hf.atLineStart
        · exact Nat.le_trans hf.behind (by simp [behindFeed, Position.advance])
      | true =>
        rw [endLine_open hopen, Prod.mk.injEq] at heq
        obtain ⟨rfl, rfl⟩ := heq
        refine comesBack_feed_open hf hp hopen (ih hps' hrest ⟨rfl, hf.depth, ?_, by simp [behindFeed]⟩)
        simp [Pen.behindLineEnd, Nat.max_eq_right hf.behind, behindFeed, Position.advance, htext, lineFeeds]
    · have hs := spells_of_mem_pieces (hps p (by simp)) hp hn hu
      rcases content_cases hcontent with ⟨hopen, rfl, rfl⟩ | ⟨hopen, level, -, rfl, rfl⟩
      · refine comesBack_content_open hf hp hs hopen (head_written_of_open hps' hrest rfl rfl)
          (ih hps' hrest ⟨rfl, hf.depth, ?_, fun _ => ?_⟩)
        · simp [Pen.behindContent, Nat.max_eq_right hf.behind, behindContent, Position.advance]
        · simp [Pen.behindContent, Nat.max_eq_right hf.behind, behindContent]
      · rw [List.append_assoc, List.singleton_append]
        refine comesBack_content_closed hf hp hs hopen level (head_written_of_open hps' hrest rfl rfl)
          (ih hps' hrest ⟨rfl, rfl, ?_, fun _ => ?_⟩)
        · simp [Pen.behindContent, Nat.max_eq_right hf.behind, behindContent, Position.advance]
        · simp [Pen.behindContent, Nat.max_eq_right hf.behind, behindContent]

/-- A source that ends, but for gaps, in a token over several lines. -/
def EndsInLiteral (source : String) : Prop :=
  ∃ p ∈ ((pieces source.toList).filter (·.item ≠ .gap)).getLast?, p.item ≠ .token .newline ∧ '\n' ∈ p.text

instance (source : String) : Decidable (EndsInLiteral source) :=
  decidable_of_iff (((pieces source.toList).filter (·.item ≠ .gap)).getLast?.any
    fun p => p.item ≠ .token .newline && '\n' ∈ p.text) (by simp [EndsInLiteral, Option.any_eq_true])

theorem overhangs_start (source : String) :
    Overhangs .start .start (pieces source.toList) ↔ EndsInLiteral source := by
  unfold Overhangs EndsInLiteral
  cases ((pieces source.toList).filter (·.item ≠ .gap)).getLast? with
  | none => simp [start]
  | some p => simp

/-- Reading a rebuilt text gives the same tokens. They are on the same lines exactly when the source does not end
in a literal over several lines. -/
theorem lexemes_rebuild {source : String} {ls : List Lexeme} (h : lexemes source = .ok ls) :
    ∃ again, lexemes (rebuild ls) = .ok again ∧ again.map Lexeme.token = ls.map Lexeme.token ∧
      (again.map Lexeme.tokenAndLine = ls.map Lexeme.tokenAndLine ↔ ¬ EndsInLiteral source) := by
  have hfollows : Follows .start .start := ⟨rfl, rfl, Nat.le_refl 1, by simp [start]⟩
  obtain ⟨out, hreads, htokens, hlines⟩ := comesBack_run (fun p hp => hp) h hfollows
  rw [← Pen.toList_rebuild] at hreads
  obtain ⟨again, hagain, rfl⟩ := lexemes_of_reads hreads
  refine ⟨again, hagain, ?_, ?_⟩
  · rw [← htokens, List.map_map]
    rfl
  · rw [hlines, overhangs_start]

/-- A nested line with a comment and a literal over several lines, both in front of a line end. -/
theorem lexemes_rebuild_nested :
    ∃ ls again, lexemes "f\n\t\x7bc\n\x7d g \"a\nb\" 'x'\n" = .ok ls ∧ lexemes (rebuild ls) = .ok again ∧
      again.map Lexeme.tokenAndLine = ls.map Lexeme.tokenAndLine := by
  obtain ⟨ls, hls⟩ := exists_eq_ok
    (show (lexemes "f\n\t\x7bc\n\x7d g \"a\nb\" 'x'\n").isOk = true by decide +kernel)
  obtain ⟨again, hagain, -, hlines⟩ := lexemes_rebuild hls
  exact ⟨ls, again, hls, hagain, hlines.mpr (by decide +kernel)⟩

/-- Without a line end behind the literal, the rebuilt text has the last line end one line further down. -/
theorem rebuild_moves_last_lineEnd :
    ∃ ls again, lexemes "\"a\nb\"" = .ok ls ∧ lexemes (rebuild ls) = .ok again ∧
      again.map Lexeme.tokenAndLine ≠ ls.map Lexeme.tokenAndLine := by
  refine ⟨[⟨.string "a\nb", "\"a\nb\"", ⟨⟨0, 5⟩, 1⟩⟩, ⟨.newline, "", ⟨⟨5, 5⟩, 1⟩⟩],
    [⟨.string "a\nb", "\"a\nb\"", ⟨⟨0, 5⟩, 1⟩⟩, ⟨.newline, "\n", ⟨⟨5, 6⟩, 2⟩⟩], ?_, ?_, ?_⟩
  · decide +kernel
  · decide +kernel
  · decide

end Offside
