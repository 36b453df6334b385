import Offside.Lexeme.Basic
import Offside.Proofs.Attempt

/-!
# Steps of the layout pass

What one piece does to the state of the layout pass: an equation for each kind of piece, for runs that are put
together, and the converse for runs that are taken apart. Nothing else about the pass needs its definition.
-/

namespace Offside.Layout

/-- A run taken apart at its first piece. -/
theorem run_cons_ok {st : Layout} {p : Piece} {ps : List Piece} {ls : List Lexeme} :
    st.run (p :: ps) = .ok ls ↔
      ∃ head next rest, st.step p = .ok (head, next) ∧ next.run ps = .ok rest ∧ ls = head ++ rest := by
  simp only [run, bind_eq_ok, pure_eq_ok]
  constructor
  · rintro ⟨⟨head, next⟩, hstep, rest, hrun, rfl⟩
    exact ⟨head, next, rest, hstep, hrun, rfl⟩
  · rintro ⟨head, next, rest, hstep, hrun, rfl⟩
    exact ⟨(head, next), hstep, rest, hrun, rfl⟩

/-- A run fails at its first piece or behind it. -/
theorem run_cons_error {st : Layout} {p : Piece} {ps : List Piece} {e : LexError} :
    st.run (p :: ps) = .error e ↔
      st.step p = .error e ∨ ∃ head next, st.step p = .ok (head, next) ∧ next.run ps = .error e := by
  simp only [run, bind_eq_error]
  constructor
  · rintro (hstep | ⟨⟨head, next⟩, hstep, hrun | ⟨rest, -, hpure⟩⟩)
    · exact .inl hstep
    · exact .inr ⟨head, next, hstep, hrun⟩
    · cases hpure
  · rintro (hstep | ⟨head, next, hstep, hrun⟩)
    · exact .inl hstep
    · exact .inr ⟨(head, next), hstep, .inl hrun⟩

/-- The three ways in which a piece is accepted. -/
theorem step_cases {st next : Layout} {p : Piece} {head : List Lexeme} (h : st.step p = .ok (head, next)) :
    (p.item = .gap ∧ head = [] ∧ next = st.pass p.text) ∨
    (p.item = .token .newline ∧ (head, next) = st.endLine p.text) ∨
    (∃ t, p.item = .token t ∧ t ≠ .newline ∧ (∀ what, t ≠ .unclosed what) ∧
      st.content t p.text = .ok (head, next)) := by
  unfold step at h
  split at h
  · rename_i hitem
    simp only [Except.ok.injEq, Prod.mk.injEq] at h
    exact .inl ⟨hitem, h.1.symm, h.2.symm⟩
  · exact absurd h (by simp)
  · exact absurd h (by simp)
  · rename_i hitem
    simp only [Except.ok.injEq] at h
    exact .inr (.inl ⟨hitem, h.symm⟩)
  · rename_i t hunclosed hnewline hitem
    exact .inr (.inr ⟨t, hitem, hnewline, hunclosed, h⟩)

/-- The three ways in which a piece is refused. -/
theorem step_error_cases {st : Layout} {p : Piece} {e : LexError} (h : st.step p = .error e) :
    (p.item = .malformed ∧ e = ⟨.ofMalformed p.text, st.position.covering p.text⟩) ∨
    (∃ what, p.item = .token (.unclosed what) ∧ e = ⟨.unclosed what, st.position.spanning p.reach⟩) ∨
    (st.lineOpen = false ∧ e = ⟨.unevenIndent (columns st.leading), st.lineStart.covering st.leading⟩) := by
  unfold step at h
  split at h
  · cases h
  · rename_i hitem
    exact .inl ⟨hitem, (Except.error.inj h).symm⟩
  · rename_i what hitem
    exact .inr (.inl ⟨what, hitem, (Except.error.inj h).symm⟩)
  · cases h
  · rw [content] at h
    split at h
    · cases h
    · rename_i hopen
      rcases bind_eq_error.mp h with hlevel | ⟨level, -, hpure⟩
      · simp only [level] at hlevel
        split at hlevel
        · cases hlevel
        · exact .inr (.inr ⟨by simpa using hopen, (Except.error.inj hlevel).symm⟩)
      · cases hpure

theorem step_gap (st : Layout) (text : List Char) : st.step ⟨.gap, text⟩ = .ok ([], st.pass text) := rfl

theorem step_feed (st : Layout) (text : List Char) :
    st.step ⟨.token .newline, text⟩ = .ok (st.endLine text) := rfl

theorem step_content (st : Layout) {t : Token} (text : List Char) (hn : t ≠ .newline)
    (hu : ∀ what, t ≠ .unclosed what) : st.step ⟨.token t, text⟩ = st.content t text := by
  cases t with
  | newline => exact absurd rfl hn
  | unclosed what => exact absurd rfl (hu what)
  | _ => rfl

/-- A piece that yields no lexeme only moves the state. -/
theorem run_cons_of_silent {st next : Layout} {p : Piece} (h : st.step p = .ok ([], next)) (ps : List Piece) :
    st.run (p :: ps) = next.run ps := by
  rw [run, h]
  change (next.run ps >>= fun rest => pure ([] ++ rest)) = next.run ps
  cases next.run ps <;> rfl

/-- The state behind a line end. -/
def behindFeed (st : Layout) (text : List Char) : Layout :=
  let next := st.position.advance text
  { st with position := next, lineOpen := false, lineStart := next, margin := [] }

theorem endLine_closed {st : Layout} (h : st.lineOpen = false) (text : List Char) :
    st.endLine text = ([], st.behindFeed text) := by
  rw [endLine, if_neg (by simp [h])]
  rfl

theorem endLine_open {st : Layout} (h : st.lineOpen = true) (text : List Char) :
    st.endLine text = ([⟨.newline, .ofList text, st.position.covering text⟩],
      { st.behindFeed text with lastLine := st.position.line }) := by
  rw [endLine, if_pos h]
  rfl

/-- The lexeme of a token that starts here. -/
def lexemeAt (st : Layout) (t : Token) (text : List Char) : Lexeme :=
  ⟨t, .ofList text, st.position.covering text⟩

/-- The state behind a token with text that leaves the depth as it is. -/
def behindContent (st : Layout) (text : List Char) : Layout :=
  { st with position := st.position.advance text, lineOpen := true, lastLine := st.position.line }

theorem content_open {st : Layout} (h : st.lineOpen = true) (t : Token) (text : List Char) :
    st.content t text = .ok ([st.lexemeAt t text], st.behindContent text) := by
  rw [content, if_pos h]
  rfl

theorem content_closed {st : Layout} (h : st.lineOpen = false) {level : Nat} (hl : st.level = .ok level)
    (t : Token) (text : List Char) :
    st.content t text = .ok (change st.position st.depth level ++ [st.lexemeAt t text],
      { st.behindContent text with depth := level }) := by
  rw [content, if_neg (by simp [h]), hl]
  rfl

/-- The first token of a line has a level; the others need none. -/
theorem content_cases {st next : Layout} {t : Token} {text : List Char} {head : List Lexeme}
    (h : st.content t text = .ok (head, next)) :
    (st.lineOpen = true ∧ head = [st.lexemeAt t text] ∧ next = st.behindContent text) ∨
    (st.lineOpen = false ∧ ∃ level, st.level = .ok level ∧
      head = change st.position st.depth level ++ [st.lexemeAt t text] ∧
      next = { st.behindContent text with depth := level }) := by
  cases hopen : st.lineOpen with
  | true =>
    rw [content_open hopen, Except.ok.injEq, Prod.mk.injEq] at h
    exact .inl ⟨rfl, h.1.symm, h.2.symm⟩
  | false =>
    rw [content, if_neg (by simp [hopen])] at h
    obtain ⟨level, hlevel, h⟩ := bind_eq_ok.mp h
    rw [pure_eq_ok, Prod.mk.injEq] at h
    exact .inr ⟨rfl, level, hlevel, h.1.symm, h.2.symm⟩

end Offside.Layout
