import Offside.Proofs.CutShort
import Offside.Proofs.Tiling

/-!
# The first error of a source

A source without lexemes is refused at the first piece that cannot stand where it does. The source in front of the
error has lexemes, the line is counted by the line feeds in front of it, and what comes behind the refused piece plays
no part. The stretch ends between two characters, with one exception: a character literal that is not closed ends one
byte behind its quote, which may be inside a character of several bytes.
-/

namespace Offside

/-- An offset of a text that lies between two characters, or at one of its ends. -/
def IsBoundary (text : List Char) (offset : Nat) : Prop :=
  ∃ before behind, text = before ++ behind ∧ offset = byteSize before

/-- A character literal that is not closed, with its quote in front of a character of several bytes. -/
def LexError.SplitsCharacter (e : LexError) (behind : List Char) : Prop :=
  e.cause = .unclosed .character ∧ ∃ c rest, behind = '\'' :: c :: rest ∧ 1 < c.utf8Size

/-! ### Boundaries -/

theorem isBoundary_byteSize (before behind : List Char) : IsBoundary (before ++ behind) (byteSize before) :=
  ⟨before, behind, rfl, rfl⟩

theorem isBoundary_append (before behind : List Char) (offset : Nat) :
    IsBoundary (before ++ behind) (byteSize before + offset) ↔ IsBoundary behind offset := by
  constructor
  · rintro ⟨front, back, htext, hoffset⟩
    rcases List.append_eq_append_iff.mp htext with ⟨inside, rfl, hbehind⟩ | ⟨inside, rfl, hback⟩
    · rw [byteSize_append] at hoffset
      exact ⟨inside, back, hbehind, by omega⟩
    · rw [byteSize_append] at hoffset
      exact ⟨[], behind, rfl, by simp; omega⟩
  · rintro ⟨inside, back, rfl, rfl⟩
    exact ⟨before ++ inside, back, (List.append_assoc _ _ _).symm, (byteSize_append _ _).symm⟩

/-- One byte behind a quote the next character is over only if it has no more bytes. -/
theorem isBoundary_quote (c : Char) (rest : List Char) :
    IsBoundary ('\'' :: c :: rest) 2 ↔ ¬ 1 < c.utf8Size := by
  have hquote : '\''.utf8Size = 1 := by decide
  have hpos := c.utf8Size_pos
  constructor
  · rintro ⟨before, behind, htext, hsize⟩ hwide
    rcases before with _ | ⟨quote, _ | ⟨d, before⟩⟩
    · cases hsize
    · obtain ⟨rfl, -⟩ := List.cons.inj htext
      rw [byteSize_cons, byteSize_nil] at hsize
      omega
    · simp only [List.cons_append, List.cons.injEq] at htext
      obtain ⟨rfl, rfl, -⟩ := htext
      rw [byteSize_cons, byteSize_cons] at hsize
      omega
  · intro hnarrow
    refine ⟨['\'', c], rest, rfl, ?_⟩
    rw [byteSize_cons, byteSize_cons, byteSize_nil]
    omega

/-! ### Unclosed literals -/

theorem Piece.reach_le (p : Piece) : p.reach ≤ byteSize p.text := by
  unfold Piece.reach
  split
  · rename_i c d _ htext
    have hc := c.utf8Size_pos
    have hd := d.utf8Size_pos
    rw [htext, byteSize_cons, byteSize_cons, byteSize_nil]
    omega
  · exact Nat.le_refl _

theorem Piece.reach_eq {p : Piece} (h : p.item = .token (.unclosed .character) → p.text.length ≠ 2) :
    p.reach = byteSize p.text := by
  unfold Piece.reach
  split
  · rename_i hitem htext
    exact absurd (by rw [htext]; rfl) (h hitem)
  · rfl

namespace Scan

theorem closeCharacter_unclosed {body cs : List Char} {what : Unclosed}
    (h : (closeCharacter body cs).1.item = .token (.unclosed what)) :
    closeCharacter body cs = (⟨.token (.unclosed .character), '\'' :: body⟩, cs) := by
  unfold closeCharacter at h ⊢
  split at h
  · simp only [characterItem] at h
    split at h <;> cases h
  · rfl

/-- A character literal that is not closed is a quote with its inside, or a quote that no inside follows. -/
theorem afterApostrophe_unclosed {cs : List Char} {what : Unclosed}
    (h : (afterApostrophe cs).1.item = .token (.unclosed what)) :
    (∃ body rest, CharacterBody body ∧ cs = body ++ rest ∧ (afterApostrophe cs).1.text = '\'' :: body) ∨
      ((∀ body rest, CharacterBody body → cs ≠ body ++ rest) ∧ (afterApostrophe cs).1.text = ['\'']) := by
  by_cases hbody : ∃ body rest, CharacterBody body ∧ cs = body ++ rest
  · obtain ⟨body, rest, hbody, rfl⟩ := hbody
    rw [afterApostrophe_body hbody] at h ⊢
    rw [closeCharacter_unclosed h]
    exact .inl ⟨body, rest, hbody, rfl, rfl⟩
  · have halone : ∀ body rest, CharacterBody body → cs ≠ body ++ rest :=
      fun body rest h hcs => hbody ⟨body, rest, h, hcs⟩
    rw [afterApostrophe_alone halone]
    exact .inr ⟨halone, rfl⟩

theorem number_ne_unclosed (digits cs : List Char) (what : Unclosed) :
    (number digits cs).1.item ≠ .token (.unclosed what) := by
  have hinteger : ∀ magnitude, integerItem magnitude ≠ .token (.unclosed what) := by
    intro magnitude
    unfold integerItem
    split <;> simp
  unfold number
  split
  · split
    · simp
    · exact hinteger _
  · exact hinteger _

/-- Only behind a quote can a character literal be left open. -/
theorem cut_unclosed_character {c : Char} {cs : List Char} (h : (cut c cs).1.item = .token (.unclosed .character)) :
    c = '\'' ∧ cut c cs = afterApostrophe cs := by
  by_cases hquote : c = '\''
  · subst hquote
    exact ⟨rfl, by simp [cut, isGap]⟩
  unfold cut at h
  split at h
  · cases h
  split at h
  · cases h
  split at h
  · unfold afterBrace at h
    split at h <;> cases h
  split at h
  · simp only [afterQuote] at h
    split at h <;> cases h
  split at h
  · exact absurd h (number_ne_unclosed _ _ _)
  split at h
  · simp only [wordToken, Item.token.injEq] at h
    split at h <;> cases h
  split at h <;> cases h

/-- The bytes that an unclosed literal covers end between characters, unless a quote is followed by a character of
several bytes. -/
theorem isBoundary_reach {c : Char} {cs : List Char} {what : Unclosed}
    (h : (cut c cs).1.item = .token (.unclosed what)) :
    IsBoundary (c :: cs) (cut c cs).1.reach ↔
      ¬ (what = .character ∧ ∃ d ds, c :: cs = '\'' :: d :: ds ∧ 1 < d.utf8Size) := by
  have hwhole : (cut c cs).1.reach = byteSize (cut c cs).1.text → IsBoundary (c :: cs) (cut c cs).1.reach := by
    intro hreach
    rw [hreach, ← cut_append c cs]
    exact isBoundary_byteSize _ _
  by_cases hwhat : what = .character
  · subst hwhat
    obtain ⟨rfl, hcut⟩ := cut_unclosed_character h
    rw [hcut] at h hwhole ⊢
    rcases afterApostrophe_unclosed h with ⟨body, rest, hbody, rfl, htext⟩ | ⟨halone, htext⟩
    · cases hbody with
      | @plain d quote backslash =>
        have hreach : (afterApostrophe ([d] ++ rest)).1.reach = 2 := by rw [Piece.reach, h, htext]
        rw [hreach]
        simpa using isBoundary_quote d rest
      | escaped feed =>
        refine iff_of_true (hwhole (Piece.reach_eq fun _ => by rw [htext]; simp)) ?_
        rintro ⟨-, d, ds, hcs, hwide⟩
        obtain ⟨rfl, -⟩ := List.cons.inj (List.cons.inj hcs).2
        exact absurd hwide (by decide)
    · refine iff_of_true (hwhole (Piece.reach_eq fun _ => by rw [htext]; decide)) ?_
      rintro ⟨-, d, ds, hcs, hwide⟩
      have hbody : CharacterBody [d] := by
        constructor <;> rintro rfl <;> exact absurd hwide (by decide)
      exact halone [d] ds hbody (List.cons.inj hcs).2
  · refine iff_of_true (hwhole (Piece.reach_eq fun hitem => ?_)) fun hsplits => hwhat hsplits.1
    rw [h] at hitem
    cases hitem
    exact absurd rfl hwhat

end Scan

/-! ### Where the layout pass stands -/

/-- The pieces up to the last line end, none if there is no line end. -/
def throughLineEnd (ps : List Piece) : List Piece :=
  (ps.reverse.dropWhile (·.item ≠ .token .newline)).reverse

theorem throughLineEnd_feed (ps : List Piece) {p : Piece} (h : p.item = .token .newline) :
    throughLineEnd (ps ++ [p]) = ps ++ [p] := by
  simp [throughLineEnd, h]

theorem throughLineEnd_other (ps : List Piece) {p : Piece} (h : p.item ≠ .token .newline) :
    throughLineEnd (ps ++ [p]) = throughLineEnd ps := by
  simp [throughLineEnd, h]

theorem throughLineEnd_append_sinceLineEnd (ps : List Piece) : throughLineEnd ps ++ sinceLineEnd ps = ps := by
  rw [throughLineEnd, sinceLineEnd, ← List.reverse_append, List.takeWhile_append_dropWhile, List.reverse_reverse]

/-- The layout pass stands behind these pieces, and knows where their last line starts. -/
structure Locates (st : Layout) (front : List Piece) : Prop extends Tracks st front where
  position : st.position = Position.start.advance (textOf front)
  lineStart : st.lineStart = Position.start.advance (textOf (throughLineEnd front))

theorem locates_start : Locates .start [] :=
  ⟨tracks_start, rfl, rfl⟩

variable {st next : Layout} {front : List Piece} {p : Piece} {head : List Lexeme}

theorem Locates.step (h : Locates st front) (hstep : st.step p = .ok (head, next)) : Locates next (front ++ [p]) := by
  have hposition : next.position = Position.start.advance (textOf (front ++ [p])) := by
    rw [(Layout.step_places hstep).1, h.position, ← Position.advance_append]
    simp [textOf]
  rcases Layout.step_cases hstep with ⟨hp, rfl, rfl⟩ | ⟨hp, heq⟩ | ⟨t, hp, hn, hu, hcontent⟩
  · refine ⟨h.gap hp, hposition, ?_⟩
    rw [throughLineEnd_other front (by simp [hp])]
    exact h.lineStart
  · have hlineStart : next.lineStart = next.position := by
      cases hopen : st.lineOpen with
      | false =>
        rw [Layout.endLine_closed hopen, Prod.mk.injEq] at heq
        rw [heq.2]
        rfl
      | true =>
        rw [Layout.endLine_open hopen, Prod.mk.injEq] at heq
        rw [heq.2]
        rfl
    refine ⟨h.feed hp heq, hposition, ?_⟩
    rw [hlineStart, throughLineEnd_feed front hp, hposition]
  · have hthrough : throughLineEnd (front ++ [p]) = throughLineEnd front :=
      throughLineEnd_other front (by simp [hp, hn])
    rcases Layout.content_cases hcontent with ⟨-, rfl, rfl⟩ | ⟨-, level, -, rfl, rfl⟩
    · exact ⟨h.content p st.depth, hposition, by rw [hthrough]; exact h.lineStart⟩
    · exact ⟨h.content p level, hposition, by rw [hthrough]; exact h.lineStart⟩

/-! ### The piece that is refused -/

/-- A run that fails does so at one piece: the pieces in front of it can be laid out, and those behind it are not looked
at. -/
theorem exists_refused {ps : List Piece} {e : LexError} (h : Locates st front) (hrun : st.run ps = .error e) :
    ∃ mid p back last, ps = mid ++ p :: back ∧ Locates last (front ++ mid) ∧ last.step p = .error e ∧
      (∃ ls, st.run mid = .ok ls) ∧ st.run (mid ++ [p]) = .error e := by
  induction ps generalizing st front with
  | nil => cases hrun
  | cons p ps ih =>
    rcases Layout.run_cons_error.mp hrun with hstep | ⟨head, next, hstep, hrest⟩
    · refine ⟨[], p, ps, st, rfl, by rwa [List.append_nil], hstep, ⟨_, rfl⟩, ?_⟩
      exact Layout.run_cons_error.mpr (.inl hstep)
    · obtain ⟨mid, q, back, last, rfl, hlast, hrefused, ⟨ls, hls⟩, hshort⟩ := ih (h.step hstep) hrest
      rw [List.append_assoc] at hlast
      refine ⟨p :: mid, q, back, last, rfl, hlast, hrefused, ⟨head ++ ls, ?_⟩, ?_⟩
      · exact Layout.run_cons_ok.mpr ⟨head, next, ls, hstep, hls, rfl⟩
      · exact Layout.run_cons_error.mpr (.inr ⟨head, next, hstep, hshort⟩)

/-- What can be laid out can be laid out up to any piece. -/
theorem run_front {ps qs : List Piece} {ls : List Lexeme} (h : st.run (ps ++ qs) = .ok ls) :
    ∃ ms, st.run ps = .ok ms := by
  induction ps generalizing st ls with
  | nil => exact ⟨_, rfl⟩
  | cons p ps ih =>
    obtain ⟨head, next, rest, hstep, hrest, -⟩ := Layout.run_cons_ok.mp h
    obtain ⟨ms, hms⟩ := ih hrest
    exact ⟨head ++ ms, Layout.run_cons_ok.mpr ⟨head, next, ms, hstep, hms, rfl⟩⟩

theorem lexemes_front {source : String} {front back : List Piece} (h : pieces source.toList = front ++ back) :
    lexemes (.ofList (textOf front)) = Layout.start.run front := by
  rw [lexemes, String.toList_ofList, pieces_short h]

/-- A source is refused at a piece, `last` being the state in front of it. -/
structure Refused (source : String) (e : LexError) (front : List Piece) (p : Piece) (back : List Piece)
    (last : Layout) : Prop where
  tiling : pieces source.toList = front ++ p :: back
  locates : Locates last front
  step : last.step p = .error e
  accepted : ∃ ls, Layout.start.run front = .ok ls
  refused : Layout.start.run (front ++ [p]) = .error e

/-- An error is at a place, for so many bytes. The text in front of the place has lexemes, and from the place on `fault`
is all that it takes to have the error. -/
structure LexError.FirstAt (e : LexError) (before fault rest : List Char) (bytes : Nat) : Prop where
  location : e.location = (Position.start.advance before).spanning bytes
  bytes_le : bytes ≤ byteSize fault
  accepted : ∃ ls, lexemes (.ofList before) = .ok ls
  refused : lexemes (.ofList (before ++ fault)) = .error e
  boundary : IsBoundary (fault ++ rest) bytes ↔ ¬ e.SplitsCharacter (fault ++ rest)

namespace Refused

variable {source : String} {e : LexError} {back : List Piece} {last : Layout}

theorem source_eq (h : Refused source e front p back last) :
    source.toList = textOf front ++ p.text ++ textOf back := by
  rw [← flatMap_text_pieces source.toList, h.tiling]
  simp [textOf]

theorem lexemes_through (h : Refused source e front p back last) :
    lexemes (.ofList (textOf front ++ p.text)) = .error e := by
  have htiling : pieces source.toList = (front ++ [p]) ++ back := by simp [h.tiling]
  have hfront := (lexemes_front htiling).trans h.refused
  rwa [textOf_append, show textOf [p] = p.text by simp [textOf]] at hfront

/-- The piece itself is at fault. -/
theorem piece (h : Refused source e front p back last) {bytes : Nat}
    (hlocation : e.location = last.position.spanning bytes) (hbytes : bytes ≤ byteSize p.text)
    (hboundary : IsBoundary (p.text ++ textOf back) bytes ↔ ¬ e.SplitsCharacter (p.text ++ textOf back)) :
    e.FirstAt (textOf front) p.text (textOf back) bytes where
  location := by rw [hlocation, h.locates.position]
  bytes_le := hbytes
  accepted := by rw [lexemes_front h.tiling]; exact h.accepted
  refused := h.lexemes_through
  boundary := hboundary

/-- The margin of the line is at fault; the piece is the first token of the line. -/
theorem margin (h : Refused source e front p back last) (hopen : last.lineOpen = false)
    (he : e = ⟨.unevenIndent (columns last.leading), last.lineStart.covering last.leading⟩) :
    e.FirstAt (textOf (throughLineEnd front)) (textOf (sinceLineEnd front) ++ p.text) (textOf back)
      (byteSize last.leading) := by
  have hsplit := throughLineEnd_append_sinceLineEnd front
  obtain ⟨inner, hinner⟩ : ∃ inner, textOf (sinceLineEnd front) = last.leading ++ inner := by
    obtain ⟨inner, hinner⟩ : last.leading <+: last.margin := List.takeWhile_prefix _
    exact ⟨inner, by rw [← h.locates.margin hopen, hinner]⟩
  refine ⟨?_, ?_, ?_, ?_, ?_⟩
  · rw [he, ← h.locates.lineStart]
    rfl
  · rw [hinner, byteSize_append, byteSize_append, Nat.add_assoc]
    exact Nat.le_add_right _ _
  · obtain ⟨ls, hls⟩ := h.accepted
    rw [← hsplit] at hls
    obtain ⟨ms, hms⟩ := run_front hls
    have htiling : pieces source.toList = throughLineEnd front ++ (sinceLineEnd front ++ p :: back) := by
      rw [← List.append_assoc, hsplit, h.tiling]
    exact ⟨ms, (lexemes_front htiling).trans hms⟩
  · rw [← List.append_assoc, ← textOf_append, hsplit]
    exact h.lexemes_through
  · refine iff_of_true ?_ fun hsplits => ?_
    · rw [hinner, List.append_assoc, List.append_assoc]
      exact isBoundary_byteSize _ _
    · rw [he] at hsplits
      exact nomatch hsplits.1

end Refused

theorem refused_of_error {source : String} {e : LexError} (h : lexemes source = .error e) :
    ∃ front p back last, Refused source e front p back last := by
  obtain ⟨front, p, back, last, htiling, hlast, hstep, haccepted, hrefused⟩ := exists_refused locates_start h
  exact ⟨front, p, back, last, htiling, hlast, hstep, haccepted, hrefused⟩

theorem exists_firstAt {source : String} {e : LexError} (h : lexemes source = .error e) :
    ∃ before fault rest bytes, source.toList = before ++ fault ++ rest ∧ e.FirstAt before fault rest bytes := by
  obtain ⟨front, p, back, last, href⟩ := refused_of_error h
  rcases Layout.step_error_cases href.step with ⟨hp, rfl⟩ | ⟨what, hp, rfl⟩ | ⟨hopen, he⟩
  · refine ⟨_, _, _, byteSize p.text, href.source_eq, href.piece rfl (Nat.le_refl _) ?_⟩
    refine iff_of_true (isBoundary_byteSize _ _) fun hsplits => ?_
    have hcause := hsplits.1
    simp only [LexCause.ofMalformed] at hcause
    split at hcause <;> cases hcause
  · refine ⟨_, _, _, p.reach, href.source_eq, href.piece rfl p.reach_le ?_⟩
    obtain ⟨c, cs, hcut⟩ := exists_cut_of_pieces href.tiling
    have htext : p.text ++ textOf back = c :: cs := by
      have happ := Scan.cut_append c cs
      rwa [hcut] at happ
    have hitem : (Scan.cut c cs).1.item = .token (.unclosed what) := by rw [hcut, hp]
    have hreach := Scan.isBoundary_reach hitem
    rw [hcut, ← htext] at hreach
    simpa [LexError.SplitsCharacter] using hreach
  · refine ⟨_, _, _, byteSize last.leading, ?_, href.margin hopen he⟩
    rw [← List.append_assoc, ← textOf_append, throughLineEnd_append_sinceLineEnd]
    exact href.source_eq

/-- An error of a source is the first one, and it is where it says. The text in front of its stretch has lexemes, and up
to some point behind its start the text has the same error, whatever follows. The line is that of its start, by the line
feeds in front of it and by the table of the source. The stretch lies in the source, between characters, unless it is a character literal that is not closed in front of a
character of several bytes. -/
theorem lexError_is_first {source : String} {e : LexError} (h : lexemes source = .error e) :
    ∃ before fault rest, source.toList = before ++ fault ++ rest ∧
      e.location.span.start = byteSize before ∧ e.location.line = 1 + lineFeeds before ∧
      e.location.line = (LineTable.ofText source).lineOf e.location.span.start ∧
      e.location.span.start ≤ e.location.span.stop ∧ e.location.span.stop ≤ byteSize (before ++ fault) ∧
      (IsBoundary source.toList e.location.span.stop ↔ ¬ e.SplitsCharacter (fault ++ rest)) ∧
      (∃ ls, lexemes (.ofList before) = .ok ls) ∧ lexemes (.ofList (before ++ fault)) = .error e := by
  obtain ⟨before, fault, rest, bytes, hsource, hfirst⟩ := exists_firstAt h
  have hstart : e.location.span.start = byteSize before := by
    rw [hfirst.location]
    exact Nat.zero_add _
  have hstop : e.location.span.stop = byteSize before + bytes := by
    rw [hfirst.location, ← Nat.zero_add (byteSize before)]
    rfl
  have hline : e.location.line = 1 + lineFeeds before := by
    rw [hfirst.location]
    rfl
  have honLine : OnLine source.toList e.location.span.start e.location.line :=
    ⟨before, fault ++ rest, by rw [hsource, List.append_assoc], hstart, hline⟩
  have hbytes := hfirst.bytes_le
  refine ⟨before, fault, rest, hsource, hstart, hline, honLine.eq_lineOf, by omega, ?_, ?_, hfirst.accepted,
    hfirst.refused⟩
  · rw [byteSize_append]
    omega
  · rw [hsource, hstop, List.append_assoc, isBoundary_append]
    exact hfirst.boundary

namespace Example

/-- Two columns in front of the second line with content, behind a comment with a character of two bytes. -/
def uneven : String :=
  "\x7bé\n\x7d a\n  b"

end Example

theorem lexError_is_first_uneven :
    lexemes Example.uneven = .error ⟨.unevenIndent 2, ⟨⟨8, 10⟩, 3⟩⟩ ∧
      ∃ before fault rest, Example.uneven.toList = before ++ fault ++ rest ∧ 8 = byteSize before ∧
        3 = 1 + lineFeeds before ∧ 3 = (LineTable.ofText Example.uneven).lineOf 8 ∧
        IsBoundary Example.uneven.toList 10 ∧
        (∃ ls, lexemes (.ofList before) = .ok ls) ∧
        lexemes (.ofList (before ++ fault)) = .error ⟨.unevenIndent 2, ⟨⟨8, 10⟩, 3⟩⟩ := by
  have herror : lexemes Example.uneven = .error ⟨.unevenIndent 2, ⟨⟨8, 10⟩, 3⟩⟩ := by decide +kernel
  obtain ⟨before, fault, rest, hsource, hstart, hline, htable, -, -, hboundary, haccepted, hrefused⟩ :=
    lexError_is_first herror
  have hwhole : IsBoundary Example.uneven.toList 10 := hboundary.mpr fun hsplits => nomatch hsplits.1
  exact ⟨herror, before, fault, rest, hsource, hstart, hline, htable, hwhole, haccepted, hrefused⟩

/-- The literal ends behind the first of the two bytes of its character. -/
theorem unclosed_character_ends_inside :
    lexemes "'é" = .error ⟨.unclosed .character, ⟨⟨0, 2⟩, 1⟩⟩ ∧ ¬ IsBoundary "'é".toList 2 := by
  refine ⟨by decide +kernel, fun hboundary => ?_⟩
  exact (isBoundary_quote 'é' []).mp hboundary (by decide)

end Offside
