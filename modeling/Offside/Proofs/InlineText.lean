import Offside.Proofs.TextLayout

/-!
# Texts that are written in rows

Rules for a writer that puts down one row after the other, each with its margin. `Yields` says which tokens come of
the rest of a text, whatever lines it stands on. `Inline` is for the inside of a row: a text that reads as the same
tokens wherever it stands, as long as the character behind it is none that could extend its last token.
-/

namespace Offside

/-- Whether a character ends every token in front of it. -/
def isDelimiter (c : Char) : Bool :=
  !c.isAlphanum && c ≠ '.' && c ≠ '=' && c ≠ '>'

theorem Token.endsBefore_of_isDelimiter (t : Token) {c : Char} (h : isDelimiter c = true) : t.endsBefore c = true := by
  have hdigit : c.isAlphanum = false → c.isDigit = false := by simp [Char.isAlphanum]
  simp only [isDelimiter, Bool.and_eq_true, Bool.not_eq_true', ne_eq, decide_not] at h
  cases t <;> simp_all [Token.endsBefore]

namespace Layout

/-- The tokens that lead from one depth to another. -/
def shiftTokens (depth level : Nat) : List Token :=
  List.replicate (level - depth) .indent ++ List.replicate (depth - level) .dedent

/-- The tokens that a text gives rise to. -/
def Yields (isOpen : Bool) (depth : Nat) (text : List Char) (ts : List Token) : Prop :=
  ∀ line lastLine, ∃ out, Reads isOpen depth line lastLine text out ∧ out.map Prod.fst = ts

section

variable {depth level : Nat} {rest : List Char} {us : List Token}

theorem yields_nil : Yields false depth [] (List.replicate depth .dedent) :=
  fun _ _ => ⟨_, reads_nil, by simp⟩

theorem yields_feed (h : Yields false depth rest us) : Yields false depth ('\n' :: rest) us := by
  intro line lastLine
  obtain ⟨out, hout, hus⟩ := h (line + 1) lastLine
  exact ⟨out, reads_feed hout, hus⟩

theorem yields_lineEnd (h : Yields false depth rest us) : Yields true depth ('\n' :: rest) (.newline :: us) := by
  intro line lastLine
  obtain ⟨out, hout, rfl⟩ := h (line + 1) line
  exact ⟨_, reads_lineEnd hout, rfl⟩

theorem yields_space (hrest : ∀ c ∈ rest.head?, Scan.isGap c = false) (h : Yields true depth rest us) :
    Yields true depth (' ' :: rest) us := by
  intro line lastLine
  obtain ⟨out, hout, hus⟩ := h line lastLine
  exact ⟨out, reads_space hrest hout, hus⟩

theorem yields_comment {body : List Char} (hbody : '\x7d' ∉ body) (h : Yields true depth rest us) :
    Yields true depth ('\x7b' :: (body ++ '\x7d' :: rest)) us := by
  intro line lastLine
  obtain ⟨out, hout, hus⟩ := h (line + lineFeeds body) lastLine
  exact ⟨out, reads_comment hbody hout, hus⟩

/-- Where the next token may stand: on a line with content, or behind the margin of a new one. -/
inductive Entry : Bool → Nat → Nat → List Char → List Token → Prop where
  | next (depth : Nat) : Entry true depth depth [] []
  | first (depth : Nat) {level : Nat} {margin : List Char} (h : IsMargin margin level) :
      Entry false depth level margin (shiftTokens depth level)

theorem yields_token {isOpen : Bool} {margin : List Char} {shift : List Token}
    (hentry : Entry isOpen depth level margin shift) {t : Token} {text : List Char} (hs : Spells t text)
    (hends : ∀ c ∈ rest.head?, t.endsBefore c) (h : Yields true level rest us) :
    Yields isOpen depth (margin ++ (text ++ rest)) (shift ++ t :: us) := by
  intro line lastLine
  obtain ⟨out, hout, rfl⟩ := h (line + lineFeeds text) line
  cases hentry with
  | next =>
    rw [List.nil_append, List.nil_append]
    exact ⟨_, reads_next hs hends hout, rfl⟩
  | first _ hmargin =>
    refine ⟨_, reads_first hmargin hs hends hout, ?_⟩
    simp [Layout.shift, shiftTokens]

end

end Layout

/-- A text that reads as these tokens wherever it stands in a row. -/
structure Inline (text : List Char) (ts : List Token) : Prop where
  starts : ∃ c cs, text = c :: cs ∧ Scan.isGap c = false ∧ c ≠ '=' ∧ c ≠ '>'
  reads : ∀ {isOpen : Bool} {depth level : Nat} {margin : List Char} {shift : List Token},
    Layout.Entry isOpen depth level margin shift → ∀ {rest : List Char} {us : List Token},
      (∀ c ∈ rest.head?, isDelimiter c = true) → Layout.Yields true level rest us →
        Layout.Yields isOpen depth (margin ++ (text ++ rest)) (shift ++ (ts ++ us))

namespace Inline

open Layout

variable {a b : List Char} {ts us : List Token}

/-- The rest of a row that the text is put in front of. -/
theorem next (h : Inline a ts) {depth : Nat} {rest : List Char} (hrest : ∀ c ∈ rest.head?, isDelimiter c = true)
    (hyields : Yields true depth rest us) : Yields true depth (a ++ rest) (ts ++ us) := by
  simpa using h.reads (.next depth) hrest hyields

theorem head_append (h : Inline a ts) (rest : List Char) :
    ∀ c ∈ (a ++ rest).head?, Scan.isGap c = false ∧ c ≠ '=' ∧ c ≠ '>' := by
  obtain ⟨c, cs, rfl, hc⟩ := h.starts
  rintro d ⟨⟩
  exact hc

theorem token {t : Token} (hs : Spells t a) (hstart : ∀ c ∈ a.head?, c ≠ '=' ∧ c ≠ '>') : Inline a [t] where
  starts := by
    obtain ⟨c, cs, rfl, hgap, -⟩ := hs.head
    exact ⟨c, cs, rfl, hgap, hstart c rfl⟩
  reads := fun hentry _ _ hrest hyields =>
    yields_token hentry hs (fun c hc => t.endsBefore_of_isDelimiter (hrest c hc)) hyields

/-- One text directly behind another, which its first character ends. -/
theorem append (ha : Inline a ts) (hb : Inline b us) (hstart : ∀ c ∈ b.head?, isDelimiter c = true) :
    Inline (a ++ b) (ts ++ us) where
  starts := by
    obtain ⟨c, cs, rfl, hc⟩ := ha.starts
    exact ⟨c, _, rfl, hc⟩
  reads := by
    intro isOpen depth level margin shift hentry rest vs hrest hyields
    have hhead : ∀ c ∈ (b ++ rest).head?, isDelimiter c = true := by
      obtain ⟨c, cs, rfl, -⟩ := hb.starts
      exact hstart
    simpa using ha.reads hentry hhead (hb.next hrest hyields)

/-- A mark directly in front of a text. -/
theorem behind {m : Mark} (hstart : ∀ c ∈ m.spelling.toList.head?, c ≠ '=' ∧ c ≠ '>') (hb : Inline b us) :
    Inline (m.spelling.toList ++ b) (.mark m :: us) where
  starts := by
    obtain ⟨c, cs, hcs, hgap, -⟩ := (Spells.mark m).head
    rw [hcs] at hstart ⊢
    exact ⟨c, _, rfl, hgap, hstart c rfl⟩
  reads := by
    intro isOpen depth level margin shift hentry rest vs hrest hyields
    have hends : ∀ c ∈ (b ++ rest).head?, (Token.mark m).endsBefore c = true := by
      intro c hc
      simpa [Token.endsBefore] using (hb.head_append rest c hc).2
    simpa using yields_token hentry (.mark m) hends (hb.next hrest hyields)

theorem spaced (ha : Inline a ts) (hb : Inline b us) : Inline (a ++ ' ' :: b) (ts ++ us) where
  starts := by
    obtain ⟨c, cs, rfl, hc⟩ := ha.starts
    exact ⟨c, _, rfl, hc⟩
  reads := by
    intro isOpen depth level margin shift hentry rest vs hrest hyields
    have hgap : ∀ c ∈ (b ++ rest).head?, Scan.isGap c = false := fun c hc => (hb.head_append rest c hc).1
    have hspace := yields_space hgap (hb.next hrest hyields)
    have hdelimiter : ∀ c ∈ (' ' :: (b ++ rest)).head?, isDelimiter c = true := by
      rintro c ⟨⟩
      rfl
    simpa using ha.reads hentry hdelimiter hspace

/-- A mark with a space on either side between two texts. -/
theorem operator (ha : Inline a ts) (m : Mark) (hb : Inline b us) :
    Inline (a ++ ' ' :: (m.spelling.toList ++ ' ' :: b)) (ts ++ .mark m :: us) where
  starts := by
    obtain ⟨c, cs, rfl, hc⟩ := ha.starts
    exact ⟨c, _, rfl, hc⟩
  reads := by
    intro isOpen depth level margin shift hentry rest vs hrest hyields
    have hgap : ∀ c ∈ (b ++ rest).head?, Scan.isGap c = false := fun c hc => (hb.head_append rest c hc).1
    have hright := yields_space hgap (hb.next hrest hyields)
    have hmark := yields_token (.next level) (.mark m) (by rintro c ⟨⟩; rfl) hright
    have hgap : ∀ c ∈ (m.spelling.toList ++ ' ' :: (b ++ rest)).head?, Scan.isGap c = false := by
      obtain ⟨c, cs, hcs, hc, -⟩ := (Spells.mark m).head
      rw [hcs]
      rintro d ⟨⟩
      exact hc
    have hleft := yields_space hgap (by simpa using hmark)
    have hdelimiter : ∀ c ∈ (' ' :: (m.spelling.toList ++ ' ' :: (b ++ rest))).head?, isDelimiter c = true := by
      rintro c ⟨⟩
      rfl
    simpa using ha.reads hentry hdelimiter hleft

end Inline

end Offside
