import Offside.Proofs.Blocks
import Offside.Proofs.Strict.Basic

/-!
# Strict scanning and layout

The inside of a literal is a stretch of its text, and the margin of a line is a stretch of the source, from the place
behind the last line end to the first token. Levels are opened and closed one at a time. All of it is always defined:
the layout pass knows of its offsets that they lie between pieces of the source, the start of the line first.
-/

namespace Offside.Strict

open Scan

/-! ### Literals -/

/-- The text of a literal without the quotes at its ends. -/
def unquoted (text : List Char) : Option (List Char) := do
  slice text 1 (← sub (byteSize text) 1)

def afterQuote (cs : List Char) : Option Cut :=
  match stringBody cs with
  | (body, '"' :: rest) =>
    (unquoted ('"' :: body ++ ['"'])).map fun inner =>
      (⟨.token (.string (.ofList (unescape inner))), '"' :: body ++ ['"']⟩, rest)
  | (body, rest) => some (⟨.token (.unclosed .string), '"' :: body⟩, rest)

/-- A closed literal if a quote follows its inside, otherwise the opening quote with the inside. -/
def closeCharacter (body rest : List Char) : Option Cut :=
  match rest with
  | '\'' :: rest =>
    (unquoted ('\'' :: body ++ ['\''])).map fun inner => (⟨characterItem inner, '\'' :: body ++ ['\'']⟩, rest)
  | rest => some (⟨.token (.unclosed .character), '\'' :: body⟩, rest)

def afterApostrophe : List Char → Option Cut
  | '\\' :: c :: cs =>
    if c = '\n' then some (⟨.token (.unclosed .character), ['\'']⟩, '\\' :: c :: cs)
    else closeCharacter ['\\', c] cs
  | c :: cs =>
    if c = '\'' ∨ c = '\\' then some (⟨.token (.unclosed .character), ['\'']⟩, c :: cs)
    else closeCharacter [c] cs
  | [] => some (⟨.token (.unclosed .character), ['\'']⟩, [])

/-- The longest piece at the start of a text that is not empty. Only literals need more than a look at it. -/
def cut (c : Char) (cs : List Char) : Option Cut :=
  if c = '"' then afterQuote cs
  else if c = '\'' then afterApostrophe cs
  else some (Scan.cut c cs)

/-- The pieces of a text, at most `count` of them. -/
def pieces : Nat → List Char → Option (List Piece)
  | _, [] => some []
  | 0, _ :: _ => none
  | count + 1, c :: cs => do
    let (p, rest) ← cut c cs
    return p :: (← pieces count rest)

theorem unquoted_append {quote : Char} (h : quote.utf8Size = 1) (body : List Char) :
    unquoted (quote :: body ++ [quote]) = some body := by
  have hstop : sub (byteSize (quote :: body ++ [quote])) 1 = some (byteSize ([quote] ++ body)) := by
    simp [sub, h, Nat.add_comm]
  have hslice := slice_append [quote] body [quote]
  rw [show byteSize [quote] = 1 by simp [h]] at hslice
  rw [unquoted, hstop]
  exact hslice

theorem afterQuote_eq (cs : List Char) : afterQuote cs = some (Scan.afterQuote cs) := by
  unfold afterQuote Scan.afterQuote
  obtain ⟨body, rest⟩ := stringBody cs
  dsimp only
  split
  · rename_i heq
    obtain ⟨rfl, rfl⟩ := Prod.mk.inj heq
    rw [unquoted_append (by decide)]
    rfl
  · rename_i hrest heq
    obtain ⟨rfl, rfl⟩ := Prod.mk.inj heq
    split
    · exact (hrest _ rfl).elim
    · rfl

theorem closeCharacter_eq (body rest : List Char) :
    closeCharacter body rest = some (Scan.closeCharacter body rest) := by
  unfold closeCharacter
  split
  · rw [unquoted_append (by decide)]
    rfl
  · rename_i hrest
    unfold Scan.closeCharacter
    split
    · exact (hrest _ rfl).elim
    · rfl

theorem afterApostrophe_eq (cs : List Char) : afterApostrophe cs = some (Scan.afterApostrophe cs) := by
  unfold afterApostrophe
  split
  · rw [Scan.afterApostrophe, closeCharacter_eq, apply_ite some]
  · rename_i hescape
    rw [Scan.afterApostrophe.eq_2 _ _ hescape, closeCharacter_eq, apply_ite some]
  · rfl

theorem cut_eq (c : Char) (cs : List Char) : cut c cs = some (Scan.cut c cs) := by
  unfold cut
  split
  · rename_i hc
    rw [afterQuote_eq, hc]
    rfl
  split
  · rename_i hc
    rw [afterApostrophe_eq, hc]
    rfl
  · rfl

/-- Every literal of a text has an inside. -/
theorem pieces_eq {count : Nat} {cs : List Char} (h : cs.length ≤ count) :
    pieces count cs = some (Offside.pieces cs) := by
  induction count generalizing cs with
  | zero =>
    rw [List.length_eq_zero_iff.mp (Nat.le_zero.mp h), pieces, Offside.pieces]
  | succ count ih =>
    cases cs with
    | nil => rw [pieces, Offside.pieces]
    | cons c cs =>
      have hshort := cut_rest_length c cs
      rw [pieces, cut_eq, Offside.pieces]
      generalize Scan.cut c cs = found at hshort
      obtain ⟨p, rest⟩ := found
      have hrest : rest.length ≤ count := by simp only [List.length_cons] at h hshort; omega
      simp [ih hrest]

/-! ### Levels -/

/-- The levels at which a line stands, by the text in front of its first token. -/
def level (source : List Char) (st : Layout) : Option (Except LexError Nat) := do
  let margin ← slice source st.lineStart.offset st.position.offset
  return Layout.level { st with margin := margin }

/-- The tokens that lead to a level, one level at a time and in at most `rounds` steps. -/
def shift (place : Position) (level : Nat) : Nat → Nat → Option (List Lexeme)
  | 0, depth => if depth = level then some [] else none
  | rounds + 1, depth =>
    if depth < level then do
      return .synthetic .indent place :: (← shift place level rounds (depth + 1))
    else if level < depth then do
      let lower ← sub depth 1
      return .synthetic .dedent place :: (← shift place level rounds lower)
    else some []

/-- A token with text. The first one of a line settles the depth. -/
def content (source : List Char) (st : Layout) (token : Token) (text : List Char) :
    Option (Except LexError (List Lexeme × Layout)) :=
  if st.lineOpen then some (.ok ([st.lexemeAt token text], st.behindContent text))
  else do
    match ← level source st with
    | .error e => return .error e
    | .ok level =>
      let shifted ← shift st.position level (st.depth + level) st.depth
      return .ok (shifted ++ [st.lexemeAt token text], { st.behindContent text with depth := level })

/-- One piece: the lexemes it gives rise to, and the state behind it. -/
def step (source : List Char) (st : Layout) (p : Piece) : Option (Except LexError (List Lexeme × Layout)) :=
  match p.item with
  | .gap | .malformed | .token (.unclosed _) | .token .newline => some (st.step p)
  | .token token => content source st token p.text

def layOut (source : List Char) (st : Layout) : List Piece → Option (Except LexError (List Lexeme))
  | [] => some (.ok st.finish)
  | p :: ps => do
    match ← step source st p with
    | .error e => return .error e
    | .ok (ls, next) => return (← layOut source next ps).map (ls ++ ·)

/-- The lexemes of a source text. -/
def lexemes (source : String) : Option (Except LexError (List Lexeme)) := do
  let ps ← pieces source.toList.length source.toList
  layOut source.toList .start ps

theorem shift_eq (place : Position) {level rounds depth : Nat} (h : depth ≤ level + rounds ∧ level ≤ depth + rounds) :
    shift place level rounds depth = some (Layout.change place depth level) := by
  induction rounds generalizing depth with
  | zero =>
    obtain rfl : depth = level := by omega
    simp [shift, Layout.change]
  | succ rounds ih =>
    rw [shift]
    split
    · rename_i hlt
      rw [ih (by omega)]
      simp only [Layout.change, show level - depth = level - (depth + 1) + 1 by omega,
        show depth + 1 - level = 0 by omega, show depth - level = 0 by omega, List.replicate_succ]
      rfl
    split
    · rename_i hlt
      rw [sub_of_le (by omega), Option.bind_eq_bind, Option.bind_some, ih (by omega)]
      simp only [Layout.change, show depth - level = depth - 1 - level + 1 by omega,
        show level - (depth - 1) = 0 by omega, show level - depth = 0 by omega, List.replicate_succ]
      rfl
    · obtain rfl : depth = level := by omega
      simp [Layout.change]

/-- The layout pass stands behind these pieces, and its line starts between two of them, behind the last line end. -/
structure Follows (st : Layout) (front : List Piece) : Prop extends Tracks st front where
  start : ∃ before, textOf front = before ++ textOf (sinceLineEnd front) ∧ st.lineStart.offset = byteSize before

theorem follows_start : Follows .start [] where
  toTracks := tracks_start
  start := ⟨[], rfl, rfl⟩

/-- A piece that is no line end leaves the start of the line where it is. -/
theorem Follows.stay {st next : Layout} {front : List Piece} {p : Piece} (h : Follows st front)
    (hp : p.item ≠ .token .newline) (hstart : next.lineStart = st.lineStart) (htracks : Tracks next (front ++ [p])) :
    Follows next (front ++ [p]) where
  toTracks := htracks
  start := by
    obtain ⟨before, htext, hoffset⟩ := h.start
    refine ⟨before, ?_, by rw [hstart, hoffset]⟩
    rw [sinceLineEnd_other front hp, textOf_append, textOf_append, htext, List.append_assoc]

theorem Follows.feed {st next : Layout} {front : List Piece} {p : Piece} (h : Follows st front)
    (hp : p.item = .token .newline) {head : List Lexeme} (heq : (head, next) = st.endLine p.text) :
    Follows next (front ++ [p]) where
  toTracks := h.toTracks.feed hp heq
  start := by
    have hnext : next.lineStart = next.position := by
      unfold Layout.endLine at heq
      dsimp only at heq
      split at heq <;> simp only [Prod.mk.injEq] at heq <;> rw [heq.2]
    refine ⟨textOf (front ++ [p]), ?_, ?_⟩
    · rw [sinceLineEnd_feed front hp]
      exact (List.append_nil _).symm
    · rw [hnext]
      exact (h.toTracks.feed hp heq).offset

variable {source : List Char} {st : Layout} {front : List Piece}

theorem level_eq (h : Follows st front) (hopen : st.lineOpen = false) {back : List Char}
    (hsource : source = textOf front ++ back) : level source st = some st.level := by
  obtain ⟨before, htext, hoffset⟩ := h.start
  have hslice := slice_append before (textOf (sinceLineEnd front)) back
  rw [← htext, ← hsource, ← hoffset, ← h.offset, ← h.margin hopen] at hslice
  rw [level, hslice]
  rfl

theorem content_eq (h : Follows st front) {back : List Char} (hsource : source = textOf front ++ back) (t : Token)
    (text : List Char) : content source st t text = some (st.content t text) := by
  unfold content
  cases hopen : st.lineOpen with
  | true => rw [if_pos rfl, Layout.content_open hopen]
  | false =>
    rw [if_neg (by simp), level_eq h hopen hsource, Option.bind_eq_bind, Option.bind_some]
    cases hlevel : st.level with
    | error e =>
      rw [Layout.content, if_neg (by simp [hopen]), hlevel]
      rfl
    | ok level =>
      rw [Layout.content_closed hopen hlevel]
      dsimp only
      rw [shift_eq st.position (by omega)]
      rfl

theorem step_eq (h : Follows st front) {back : List Char} (hsource : source = textOf front ++ back) (p : Piece) :
    step source st p = some (st.step p) := by
  unfold step
  split
  · rfl
  · rfl
  · rfl
  · rfl
  · rename_i t hunclosed hnewline hitem
    rw [content_eq h hsource, Layout.step, hitem]
    split <;> simp_all

/-- The state behind a piece that was accepted still knows where its line starts. -/
theorem Follows.step (h : Follows st front) {p : Piece} {head : List Lexeme} {next : Layout}
    (hstep : st.step p = .ok (head, next)) : Follows next (front ++ [p]) := by
  rcases Layout.step_cases hstep with ⟨hp, rfl, rfl⟩ | ⟨hp, heq⟩ | ⟨t, hp, hn, hu, hcontent⟩
  · exact h.stay (by simp [hp]) rfl (h.gap hp)
  · exact h.feed hp heq
  · have hother : p.item ≠ .token .newline := by simp [hp, hn]
    rcases Layout.content_cases hcontent with ⟨-, rfl, rfl⟩ | ⟨-, level, -, rfl, rfl⟩
    · exact h.stay hother rfl (h.content p st.depth)
    · exact h.stay hother rfl (h.content p level)

theorem layOut_eq {ps : List Piece} (h : Follows st front) (hsource : source = textOf (front ++ ps)) :
    layOut source st ps = some (st.run ps) := by
  induction ps generalizing st front with
  | nil => rfl
  | cons p ps ih =>
    rw [layOut, step_eq h (hsource.trans (textOf_append front (p :: ps))), Layout.run, Option.bind_eq_bind,
      Option.bind_some]
    cases hstep : st.step p with
    | error e => rfl
    | ok result =>
      obtain ⟨head, next⟩ := result
      have hnext := ih (h.step hstep) (by rw [hsource, List.append_assoc]; rfl)
      simp only [hnext]
      change _ = some (next.run ps >>= fun rest => pure (head ++ rest))
      cases next.run ps <;> rfl

/-- Scanning and layout stay inside the domains of their operations, whatever the source. -/
theorem lexemes_eq (source : String) : lexemes source = some (Offside.lexemes source) := by
  rw [lexemes, pieces_eq (Nat.le_refl _), Option.bind_eq_bind, Option.bind_some, Offside.lexemes]
  exact layOut_eq follows_start (flatMap_text_pieces source.toList).symm

end Offside.Strict
