import Offside.Proofs.Blocks

/-!
# Raw tokens and lexemes

The layout pass against the tokens that the scanner cuts off. It refuses a source only for a piece that is no whole
token, or for the leading blanks of a line with content. Otherwise it keeps every token with its text and its stretch,
keeps a line end exactly behind content, and adds one line end exactly if the last line has content and no end.
-/

namespace Offside

/-- A token as it is cut off, without a line. -/
structure RawToken where
  token : Token
  text : String
  span : Span
  deriving DecidableEq, Repr

def Lexeme.raw (l : Lexeme) : RawToken :=
  ⟨l.token, l.text, l.span⟩

/-- Whether a piece holds a token that is no line end. -/
def Piece.isContent (p : Piece) : Bool :=
  match p.item with
  | .token t => t.isContent
  | _ => false

def hasContent (ps : List Piece) : Bool :=
  ps.any Piece.isContent

/-- The token of a piece, behind the pieces in `front`. -/
def Piece.raw? (front : List Piece) (p : Piece) : Option RawToken :=
  match p.item with
  | .token t => some ⟨t, .ofList p.text, ⟨byteSize (textOf front), byteSize (textOf front) + byteSize p.text⟩⟩
  | _ => none

/-- The tokens of the pieces that are to be kept, which may depend on the pieces in front of them. -/
def rawTokens (keep : List Piece → Piece → Bool) : List Piece → List Piece → List RawToken
  | _, [] => []
  | front, p :: ps => (if keep front p then (p.raw? front).toList else []) ++ rawTokens keep (front ++ [p]) ps

/-- A line end with content in front of it, on its line. -/
def endsContent (front : List Piece) (p : Piece) : Bool :=
  p.item = .token .newline && hasContent (sinceLineEnd front)

/-- The line end that is missing behind these pieces. -/
def missingLineEnd (ps : List Piece) : List RawToken :=
  if hasContent (sinceLineEnd ps) then [⟨.newline, "", .point (byteSize (textOf ps))⟩] else []

@[simp] theorem hasContent_append (ps qs : List Piece) : hasContent (ps ++ qs) = (hasContent ps || hasContent qs) :=
  List.any_append

theorem Piece.of_raw? {front : List Piece} {p : Piece} {r : RawToken} (h : p.raw? front = some r) :
    p.item = .token r.token ∧ r.text = .ofList p.text := by
  unfold Piece.raw? at h
  split at h
  · rename_i hp
    cases h
    exact ⟨hp, rfl⟩
  · cases h

/-- A choice among the tokens that are kept is a choice among the pieces. -/
theorem filter_rawTokens (choose : RawToken → Bool) {keep keep' : List Piece → Piece → Bool} {ps : List Piece}
    (h : ∀ front, ∀ p ∈ ps, ∀ r, p.raw? front = some r → keep' front p = (keep front p && choose r))
    (front : List Piece) : (rawTokens keep front ps).filter choose = rawTokens keep' front ps := by
  induction ps generalizing front with
  | nil => rfl
  | cons p ps ih =>
    obtain ⟨hp, hps⟩ := List.forall_mem_cons.mp fun q hq front => h front q hq
    rw [rawTokens, rawTokens, List.filter_append, ih fun front q hq => hps q hq front]
    congr 1
    cases hraw : p.raw? front with
    | none => simp
    | some r =>
      rw [hp front r hraw]
      cases keep front p <;> cases hr : choose r <;> simp [hr]

/-! ### What the pass knows -/

/-- The layout pass stands behind these pieces and knows whether the line has content. -/
structure Attends (st : Layout) (front : List Piece) : Prop extends Tracks st front where
  lineOpen : st.lineOpen = hasContent (sinceLineEnd front)

theorem attends_start : Attends .start [] :=
  ⟨tracks_start, rfl⟩

variable {st next : Layout} {front : List Piece} {p : Piece} {head : List Lexeme}

theorem Piece.isContent_of_token {t : Token} (hp : p.item = .token t) : p.isContent = t.isContent := by
  rw [Piece.isContent, hp]

/-- A piece that is no line end goes on with the line. -/
theorem hasContent_sinceLineEnd (front : List Piece) (hp : p.item ≠ .token .newline) :
    hasContent (sinceLineEnd (front ++ [p])) = (hasContent (sinceLineEnd front) || p.isContent) := by
  rw [sinceLineEnd_other front hp, hasContent_append]
  simp [hasContent]

theorem Attends.step (h : Attends st front) (hcontent : ∀ t, p.item = .token t → t ≠ .newline → p.isContent = true)
    (hstep : st.step p = .ok (head, next)) : Attends next (front ++ [p]) := by
  rcases Layout.step_cases hstep with ⟨hp, rfl, rfl⟩ | ⟨hp, heq⟩ | ⟨t, hp, hn, hu, hacts⟩
  · refine ⟨h.gap hp, ?_⟩
    rw [hasContent_sinceLineEnd front (by simp [hp]), ← h.lineOpen]
    simp [Layout.pass, Piece.isContent, hp]
  · refine ⟨h.feed hp heq, ?_⟩
    rw [sinceLineEnd_feed front hp]
    cases hopen : st.lineOpen with
    | false =>
      rw [Layout.endLine_closed hopen, Prod.mk.injEq] at heq
      rw [heq.2]
      rfl
    | true =>
      rw [Layout.endLine_open hopen, Prod.mk.injEq] at heq
      rw [heq.2]
      rfl
  · have hopen : hasContent (sinceLineEnd (front ++ [p])) = true := by
      rw [hasContent_sinceLineEnd front (by simp [hp, hn]), hcontent t hp hn, Bool.or_true]
    rcases Layout.content_cases hacts with ⟨-, rfl, rfl⟩ | ⟨-, level, -, rfl, rfl⟩
    · exact ⟨h.content p st.depth, hopen.symm⟩
    · exact ⟨h.content p level, hopen.symm⟩

/-! ### What is refused -/

/-- What the layout pass asks of a piece: it is a gap or a whole token, and if it is the first content of its line, the
leading blanks make up whole levels. -/
structure Accepted (front : List Piece) (p : Piece) (back : List Piece) : Prop where
  matched : p.item ≠ .malformed
  closed : ∀ what, p.item ≠ .token (.unclosed what)
  level : p.isContent = true → hasContent (sinceLineEnd front) = false →
    columns (leadingBlanks front (p :: back)) % indentWidth = 0

theorem Layout.exists_level : (∃ level, st.level = .ok level) ↔ columns st.leading % indentWidth = 0 := by
  unfold Layout.level
  by_cases h : columns st.leading % indentWidth = 0 <;> simp [h]

theorem step_ok_iff {cs : List Char} (hmem : p ∈ pieces cs) (h : Attends st front) (back : List Piece) :
    (∃ head next, st.step p = .ok (head, next)) ↔ Accepted front p back := by
  constructor
  · rintro ⟨head, next, hstep⟩
    rcases Layout.step_cases hstep with ⟨hp, -, -⟩ | ⟨hp, -⟩ | ⟨t, hp, hn, hu, hacts⟩
    · exact ⟨by simp [hp], by simp [hp], by simp [Piece.isContent, hp]⟩
    · exact ⟨by simp [hp], by simp [hp], by simp [Piece.isContent, hp, Token.isContent]⟩
    · refine ⟨by simp [hp], by simpa [hp] using hu, fun _ hfirst => ?_⟩
      have hopen : st.lineOpen = false := h.lineOpen.trans hfirst
      rcases Layout.content_cases hacts with ⟨hopen', -, -⟩ | ⟨-, level, hlevel, -, -⟩
      · rw [hopen] at hopen'
        cases hopen'
      · rw [leadingBlanks_eq_leading h.toTracks hopen (spells_of_mem_pieces hmem hp hn hu)]
        exact Layout.exists_level.mp ⟨level, hlevel⟩
  · rintro ⟨hmatched, hclosed, hlevel⟩
    obtain ⟨item, text⟩ := p
    cases item with
    | gap => exact ⟨_, _, Layout.step_gap st text⟩
    | malformed => exact absurd rfl hmatched
    | token t =>
      by_cases hn : t = .newline
      · subst hn
        exact ⟨_, _, Layout.step_feed st text⟩
      have hu : ∀ what, t ≠ .unclosed what := fun what ht => hclosed what (congrArg Item.token ht)
      have hspells := spells_of_mem_pieces hmem rfl hn hu
      have hstep := Layout.step_content st text hn hu
      cases hopen : st.lineOpen with
      | true =>
        rw [Layout.content_open hopen] at hstep
        exact ⟨_, _, hstep⟩
      | false =>
        have heven := hlevel (isText_lexemeAt st hspells).1 (h.lineOpen.symm.trans hopen)
        rw [leadingBlanks_eq_leading h.toTracks hopen hspells] at heven
        obtain ⟨level, hlevel⟩ := Layout.exists_level.mpr heven
        rw [Layout.content_closed hopen hlevel] at hstep
        exact ⟨_, _, hstep⟩

/-- Tokens of a text that a line may hold are its content. -/
theorem isContent_of_step {cs : List Char} (hmem : p ∈ pieces cs) (hstep : st.step p = .ok (head, next)) (t : Token)
    (hp : p.item = .token t) (hn : t ≠ .newline) : p.isContent = true := by
  rcases Layout.step_cases hstep with ⟨hp', -, -⟩ | ⟨hp', -⟩ | ⟨t', hp', -, hu, -⟩
  · simp [hp'] at hp
  · exact absurd (Item.token.inj (hp.symm.trans hp')) hn
  · obtain rfl := Item.token.inj (hp.symm.trans hp')
    rw [Piece.isContent_of_token hp]
    exact (isText_lexemeAt st (spells_of_mem_pieces hmem hp hn hu)).1

/-- A run ends well if every piece is accepted where it stands. -/
theorem run_ok_iff {cs : List Char} {ps : List Piece} (hps : ∀ p ∈ ps, p ∈ pieces cs) (h : Attends st front) :
    (∃ ls, st.run ps = .ok ls) ↔ ∀ mid p back, ps = mid ++ p :: back → Accepted (front ++ mid) p back := by
  induction ps generalizing st front with
  | nil =>
    refine ⟨fun _ mid p back heq => absurd heq (by simp), fun _ => ⟨_, rfl⟩⟩
  | cons p ps ih =>
    obtain ⟨hp, hrest⟩ := List.forall_mem_cons.mp hps
    constructor
    · rintro ⟨ls, hrun⟩ mid q back heq
      obtain ⟨head, next, rest, hstep, hrun, -⟩ := Layout.run_cons_ok.mp hrun
      cases mid with
      | nil =>
        obtain ⟨rfl, rfl⟩ := List.cons.inj heq
        rw [List.append_nil]
        exact (step_ok_iff hp h ps).mp ⟨head, next, hstep⟩
      | cons first mid =>
        obtain ⟨rfl, rfl⟩ := List.cons.inj heq
        have haccepted := (ih hrest (h.step (isContent_of_step hp hstep) hstep)).mp ⟨rest, hrun⟩ mid q back rfl
        rwa [List.append_assoc, List.singleton_append] at haccepted
    · intro haccepted
      have hfirst := haccepted [] p ps rfl
      rw [List.append_nil] at hfirst
      obtain ⟨head, next, hstep⟩ := (step_ok_iff hp h ps).mpr hfirst
      have hnext : Attends next (front ++ [p]) := h.step (isContent_of_step hp hstep) hstep
      obtain ⟨rest, hrun⟩ := (ih hrest hnext).mpr fun mid q back heq => by
        rw [List.append_assoc, List.singleton_append]
        exact haccepted (p :: mid) q back (by rw [heq]; rfl)
      exact ⟨head ++ rest, Layout.run_cons_ok.mpr ⟨head, next, rest, hstep, hrun, rfl⟩⟩

/-! ### What is kept -/

/-- A lexeme that is no change of level. -/
def Lexeme.isLevel (l : Lexeme) : Bool :=
  l.token = .indent || l.token = .dedent

theorem of_isLevel {l : Lexeme} (h : l.isLevel = true) : l.token = .indent ∨ l.token = .dedent := by
  simpa [Lexeme.isLevel] using h

theorem filter_change (place : Position) (depth level : Nat) :
    (Layout.change place depth level).filter (fun l => !l.isLevel) = [] := by
  rw [List.filter_eq_nil_iff]
  intro l hl
  rcases oneWay_change place depth level with h | h <;> simp [Lexeme.isLevel, h l hl]

/-- The layout pass keeps a token, and of line ends those behind content. -/
def kept (front : List Piece) (p : Piece) : Bool :=
  p.isContent || endsContent front p

theorem kept_newline (hp : p.item = .token .newline) : kept front p = endsContent front p := by
  simp [kept, Piece.isContent, hp, Token.isContent]

theorem kept_step {cs : List Char} (hmem : p ∈ pieces cs) (h : Attends st front)
    (hstep : st.step p = .ok (head, next)) :
    (head.filter fun l => !l.isLevel).map Lexeme.raw = if kept front p then (p.raw? front).toList else [] := by
  have hspan : ∀ t text, (st.lexemeAt t text).raw =
      ⟨t, .ofList text, ⟨byteSize (textOf front), byteSize (textOf front) + byteSize text⟩⟩ := by
    intro t text
    rw [← h.offset]
    rfl
  rcases Layout.step_cases hstep with ⟨hp, rfl, -⟩ | ⟨hp, heq⟩ | ⟨t, hp, hn, hu, hacts⟩
  · simp [kept, endsContent, Piece.isContent, hp]
  · have hkept : kept front p = st.lineOpen := by
      rw [kept_newline hp, endsContent, hp, h.lineOpen]
      simp
    rw [hkept]
    cases hopen : st.lineOpen with
    | false =>
      rw [Layout.endLine_closed hopen, Prod.mk.injEq] at heq
      simp [heq.1]
    | true =>
      rw [Layout.endLine_open hopen, Prod.mk.injEq] at heq
      have hlexeme : head = [st.lexemeAt .newline p.text] := heq.1
      simpa [hlexeme, Lexeme.isLevel, Layout.lexemeAt, Piece.raw?, hp] using hspan .newline p.text
  · have hcontent := isContent_of_step hmem hstep t hp hn
    obtain ⟨-, hi, hd, -⟩ := (spells_of_mem_pieces hmem hp hn hu).isContent
    have hlexeme : ([st.lexemeAt t p.text].filter fun l => !l.isLevel).map Lexeme.raw =
        (p.raw? front).toList := by
      simpa [Lexeme.isLevel, Layout.lexemeAt, hi, hd, Piece.raw?, hp] using hspan t p.text
    rw [kept, hcontent, Bool.true_or, if_pos rfl, ← hlexeme]
    rcases Layout.content_cases hacts with ⟨-, rfl, -⟩ | ⟨-, level, -, rfl, -⟩
    · rfl
    · rw [List.filter_append, filter_change, List.nil_append]

theorem kept_finish (h : Attends st front) :
    (st.finish.filter fun l => !l.isLevel).map Lexeme.raw = missingLineEnd front := by
  rw [missingLineEnd, ← h.lineOpen, ← h.offset]
  cases hopen : st.lineOpen <;>
    simp [Layout.finish, hopen, Lexeme.isLevel, Lexeme.synthetic, Lexeme.raw, Lexeme.span]

theorem kept_run {cs : List Char} {ps : List Piece} (hps : ∀ p ∈ ps, p ∈ pieces cs) (h : Attends st front)
    {ls : List Lexeme} (hrun : st.run ps = .ok ls) :
    (ls.filter fun l => !l.isLevel).map Lexeme.raw = rawTokens kept front ps ++ missingLineEnd (front ++ ps) := by
  induction ps generalizing st front ls with
  | nil =>
    cases hrun
    rw [List.append_nil]
    exact kept_finish h
  | cons p ps ih =>
    obtain ⟨hp, hrest⟩ := List.forall_mem_cons.mp hps
    obtain ⟨head, next, rest, hstep, hnext, rfl⟩ := Layout.run_cons_ok.mp hrun
    have htail := ih hrest (h.step (isContent_of_step hp hstep) hstep) hnext
    rw [List.filter_append, List.map_append, kept_step hp h hstep, htail, rawTokens, List.append_assoc,
      List.append_assoc, List.singleton_append]

theorem rawTokens_none (front ps : List Piece) : rawTokens (fun _ _ => false) front ps = [] := by
  induction ps generalizing front with
  | nil => rfl
  | cons p ps ih => simpa [rawTokens] using ih (front ++ [p])

/-- A choice of lexemes by token, text and stretch that takes no change of level is a choice among the pieces, and among
what is added at the end. -/
theorem chosen_lexemes {source : String} {ls : List Lexeme} (hls : lexemes source = .ok ls)
    (choose : RawToken → Bool) (keep : List Piece → Piece → Bool)
    (hlevel : ∀ l : Lexeme, l.isLevel = true → choose l.raw = false)
    (hkeep : ∀ front, ∀ p ∈ pieces source.toList, ∀ r, p.raw? front = some r →
      keep front p = (kept front p && choose r)) :
    (ls.filter fun l => choose l.raw).map Lexeme.raw =
      rawTokens keep [] (pieces source.toList) ++ (missingLineEnd (pieces source.toList)).filter choose := by
  have hfilter : (ls.filter fun l => choose l.raw) = (ls.filter fun l => !l.isLevel).filter fun l => choose l.raw := by
    rw [List.filter_filter]
    congr 1
    funext l
    cases hl : l.isLevel with
    | false => simp
    | true => simp [hlevel l hl]
  have hkept := kept_run (fun _ hp => hp) attends_start hls
  rw [List.nil_append] at hkept
  rw [hfilter, ← filter_rawTokens choose hkeep, ← List.filter_append, ← hkept, List.filter_map]
  rfl

/-- A source has lexemes exactly if every piece is accepted. -/
theorem exists_lexemes_iff (source : String) : (∃ ls, lexemes source = .ok ls) ↔
    (∀ p ∈ pieces source.toList, p.item ≠ .malformed) ∧
    (∀ p ∈ pieces source.toList, ∀ what, p.item ≠ .token (.unclosed what)) ∧
    ∀ front p back, pieces source.toList = front ++ p :: back → p.isContent = true →
      hasContent (sinceLineEnd front) = false → columns (leadingBlanks front (p :: back)) % indentWidth = 0 := by
  have hpieces : ∀ p ∈ pieces source.toList, p ∈ pieces source.toList := fun _ hp => hp
  rw [lexemes, run_ok_iff hpieces attends_start]
  constructor
  · intro h
    refine ⟨fun p hp => ?_, fun p hp => ?_, fun front p back heq => (h front p back heq).level⟩
    · obtain ⟨front, back, heq⟩ := List.append_of_mem hp
      exact (h front p back heq).matched
    · obtain ⟨front, back, heq⟩ := List.append_of_mem hp
      exact (h front p back heq).closed
  · rintro ⟨hmatched, hclosed, hlevel⟩ front p back heq
    have hp : p ∈ pieces source.toList := by simp [heq]
    exact ⟨hmatched p hp, hclosed p hp, hlevel front p back heq⟩

section

variable {source : String} {ls : List Lexeme}

theorem content_lexemes (hls : lexemes source = .ok ls) : (ls.filter fun l => l.token.isContent).map Lexeme.raw =
    rawTokens (fun _ p => p.isContent) [] (pieces source.toList) := by
  refine (chosen_lexemes hls (fun r => r.token.isContent) (fun _ p => p.isContent) ?_ ?_).trans ?_
  · intro l hl
    rcases of_isLevel hl with ht | ht <;> simp [Lexeme.raw, ht, Token.isContent]
  · intro front p _ r hr
    obtain ⟨hp, -⟩ := Piece.of_raw? hr
    rw [kept, Piece.isContent_of_token hp]
    cases hr : r.token.isContent <;> simp
  · simp [missingLineEnd, Token.isContent]

theorem lineEnds_with_text (hls : lexemes source = .ok ls) :
    (ls.filter fun l => l.token = .newline && l.text ≠ "").map Lexeme.raw =
      rawTokens endsContent [] (pieces source.toList) := by
  refine (chosen_lexemes hls (fun r => r.token = .newline && r.text ≠ "") endsContent ?_ ?_).trans ?_
  · intro l hl
    rcases of_isLevel hl with ht | ht <;> simp [Lexeme.raw, ht]
  · intro front p hmem r hr
    obtain ⟨hp, htext⟩ := Piece.of_raw? hr
    by_cases hn : r.token = .newline
    · rw [hn] at hp
      rw [kept_newline hp, htext, feed_of_mem_pieces hmem hp, hn]
      simp
    · simp [endsContent, hp, hn]
  · simp [missingLineEnd]

/-- A line end without a text is no piece of the source. -/
theorem lineEnds_without_text (hls : lexemes source = .ok ls) :
    (ls.filter fun l => l.token = .newline && l.text = "").map Lexeme.raw = missingLineEnd (pieces source.toList) := by
  refine (chosen_lexemes hls (fun r => r.token = .newline && r.text = "") (fun _ _ => false) ?_ ?_).trans ?_
  · intro l hl
    rcases of_isLevel hl with ht | ht <;> simp [Lexeme.raw, ht]
  · intro front p hmem r hr
    obtain ⟨hp, htext⟩ := Piece.of_raw? hr
    by_cases hn : r.token = .newline
    · rw [hn] at hp
      rw [htext, feed_of_mem_pieces hmem hp]
      simp
    · simp [hn]
  · rw [rawTokens_none, List.nil_append]
    simp [missingLineEnd]

end

/-- The layout pass against the raw tokens. A source has lexemes exactly if all of it is cut into gaps and whole tokens,
and on every line the first content stands behind blanks of whole levels. Then the lexemes with content are the tokens
that are no line ends, in order and with their texts and stretches; the line ends that have a text are those with
content in front of them on their line; and one line end without a text is added exactly if the last line has content
and no end. -/
theorem lexemes_iff_rawTokens (source : String) :
    ((∃ ls, lexemes source = .ok ls) ↔
      (∀ p ∈ pieces source.toList, p.item ≠ .malformed) ∧
      (∀ p ∈ pieces source.toList, ∀ what, p.item ≠ .token (.unclosed what)) ∧
      ∀ front p back, pieces source.toList = front ++ p :: back → p.isContent = true →
        hasContent (sinceLineEnd front) = false → columns (leadingBlanks front (p :: back)) % indentWidth = 0) ∧
    ∀ ls, lexemes source = .ok ls →
      (ls.filter fun l => l.token.isContent).map Lexeme.raw =
        rawTokens (fun _ p => p.isContent) [] (pieces source.toList) ∧
      (ls.filter fun l => l.token = .newline && l.text ≠ "").map Lexeme.raw =
        rawTokens endsContent [] (pieces source.toList) ∧
      (ls.filter fun l => l.token = .newline && l.text = "").map Lexeme.raw =
        missingLineEnd (pieces source.toList) :=
  ⟨exists_lexemes_iff source, fun _ hls => ⟨content_lexemes hls, lineEnds_with_text hls, lineEnds_without_text hls⟩⟩

/-- A comment and an empty line, a line of two tokens, a margin of two columns in front of nothing but a comment, and at
one level a literal over two lines with no line end behind it. -/
theorem lexemes_iff_rawTokens_scattered :
    ∃ ls, lexemes "\x7bc\x7d\n\na b\n  \x7bd\x7d\n\t\"e\nf\"" = .ok ls ∧
      (ls.filter fun l => l.token.isContent).map Lexeme.raw =
        [⟨.name "a", "a", ⟨5, 6⟩⟩, ⟨.name "b", "b", ⟨7, 8⟩⟩, ⟨.string "e\nf", "\"e\nf\"", ⟨16, 21⟩⟩] ∧
      (ls.filter fun l => l.token = .newline && l.text ≠ "").map Lexeme.raw = [⟨.newline, "\n", ⟨8, 9⟩⟩] ∧
      (ls.filter fun l => l.token = .newline && l.text = "").map Lexeme.raw = [⟨.newline, "", ⟨21, 21⟩⟩] := by
  obtain ⟨ls, hls⟩ := exists_eq_ok
    (show (lexemes "\x7bc\x7d\n\na b\n  \x7bd\x7d\n\t\"e\nf\"").isOk = true by decide +kernel)
  obtain ⟨hcontent, hends, hmissing⟩ := (lexemes_iff_rawTokens _).2 ls hls
  exact ⟨ls, hls, hcontent.trans (by decide +kernel), hends.trans (by decide +kernel),
    hmissing.trans (by decide +kernel)⟩

end Offside
