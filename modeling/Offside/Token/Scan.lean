import Offside.Decimal.Reading
import Offside.Location
import Offside.Token.Basic

/-!
# Scanning

A source text is cut into pieces: gaps (blanks and comments), tokens, and malformed stretches. At each place
the longest piece is taken, a keyword before a name of the same length. The pieces put together are the
text again, whatever it holds.
-/

namespace Offside

/-- What a piece of a text is. -/
inductive Item where
  /-- Blanks or a comment. -/
  | gap
  | token (token : Token)
  /-- A character that starts no token, or a literal whose value is refused. -/
  | malformed
  deriving DecidableEq, Repr

/-- A piece of a text. -/
structure Piece where
  item : Item
  text : List Char
  deriving DecidableEq, Repr

/-- The bytes that a piece covers. A character literal without its closing quote covers its opening quote and
one byte behind it, which may be only the first byte of a character; an escape is covered whole. -/
def Piece.reach (p : Piece) : Nat :=
  match p.item, p.text with
  | .token (.unclosed .character), [_, _] => 2
  | _, text => byteSize text

/-- The largest magnitude of an integer literal, which is that of the least integer. -/
def magnitudeLimit : Nat := 2147483648

namespace Scan

/-- The characters between tokens that are no comment and no line end. -/
def isGap (c : Char) : Bool :=
  c = ' ' || c = '\t' || c = '\r' || c = '\x0c'

/-- Resolves the escapes inside a literal. An unknown escape stands for itself. -/
def unescape : List Char → List Char
  | '\\' :: 'n' :: cs => '\n' :: unescape cs
  | '\\' :: 't' :: cs => '\t' :: unescape cs
  | '\\' :: '\\' :: cs => '\\' :: unescape cs
  | '\\' :: '"' :: cs => '"' :: unescape cs
  | '\\' :: '\'' :: cs => '\'' :: unescape cs
  | '\\' :: c :: cs => '\\' :: c :: unescape cs
  | c :: cs => c :: unescape cs
  | [] => []

/-- The inside of a string literal and what follows it. A backslash takes the next character with it unless
that is a line feed; the inside ends before a quote and before any other backslash. -/
def stringBody : List Char → List Char × List Char
  | [] => ([], [])
  | '\\' :: c :: cs =>
    if c = '\n' then ([], '\\' :: c :: cs)
    else
      let (body, rest) := stringBody cs
      ('\\' :: c :: body, rest)
  | c :: cs =>
    if c = '"' ∨ c = '\\' then ([], c :: cs)
    else
      let (body, rest) := stringBody cs
      (c :: body, rest)

/-- A piece and the text behind it. -/
abbrev Cut := Piece × List Char

def afterQuote (cs : List Char) : Cut :=
  let (body, rest) := stringBody cs
  match rest with
  | '"' :: rest => (⟨.token (.string (.ofList (unescape body))), '"' :: body ++ ['"']⟩, rest)
  | rest => (⟨.token (.unclosed .string), '"' :: body⟩, rest)

/-- The item of a character literal with this inside: exactly one character has to be left of it. -/
def characterItem (body : List Char) : Item :=
  match unescape body with
  | [c] => .token (.character c)
  | _ => .malformed

/-- A closed literal if a quote follows its inside, otherwise the opening quote with the inside. -/
def closeCharacter (body rest : List Char) : Cut :=
  match rest with
  | '\'' :: rest => (⟨characterItem body, '\'' :: body ++ ['\'']⟩, rest)
  | rest => (⟨.token (.unclosed .character), '\'' :: body⟩, rest)

def afterApostrophe : List Char → Cut
  | '\\' :: c :: cs =>
    if c = '\n' then (⟨.token (.unclosed .character), ['\'']⟩, '\\' :: c :: cs)
    else closeCharacter ['\\', c] cs
  | c :: cs =>
    if c = '\'' ∨ c = '\\' then (⟨.token (.unclosed .character), ['\'']⟩, c :: cs)
    else closeCharacter [c] cs
  | [] => (⟨.token (.unclosed .character), ['\'']⟩, [])

def afterBrace (cs : List Char) : Cut :=
  let body := cs.takeWhile (· ≠ '\x7d')
  match cs.dropWhile (· ≠ '\x7d') with
  | [] => (⟨.token (.unclosed .comment), '\x7b' :: body⟩, [])
  | close :: rest => (⟨.gap, '\x7b' :: body ++ [close]⟩, rest)

/-- The item of an integer literal, whose magnitude is refused above the limit. -/
def integerItem (magnitude : Nat) : Item :=
  if magnitude ≤ magnitudeLimit then .token (.integer magnitude) else .malformed

/-- A number starts with these digits. A point belongs to it only if a digit follows the point. -/
def number (digits rest : List Char) : Cut :=
  match rest with
  | '.' :: d :: more =>
    if d.isDigit then
      (⟨.token (.real (Decimal.ofParts digits (d :: more.takeWhile Char.isDigit))),
        digits ++ '.' :: d :: more.takeWhile Char.isDigit⟩, more.dropWhile Char.isDigit)
    else (⟨integerItem (Decimal.digitsValue digits), digits⟩, rest)
  | _ => (⟨integerItem (Decimal.digitsValue digits), digits⟩, rest)

/-- The token that letters and digits make up. -/
def wordToken (word : String) : Token :=
  match Keyword.ofSpelling? word with
  | some keyword => .keyword keyword
  | none => .name word

/-- The mark at a place, with the characters behind it. -/
def mark? : List Char → Option (Mark × List Char)
  | ':' :: '=' :: cs => some (.assign, cs)
  | ':' :: cs => some (.colon, cs)
  | '=' :: '=' :: cs => some (.equalEqual, cs)
  | '=' :: cs => some (.equal, cs)
  | '<' :: '>' :: cs => some (.notEqual, cs)
  | '<' :: '=' :: cs => some (.lessEqual, cs)
  | '<' :: cs => some (.less, cs)
  | '>' :: '=' :: cs => some (.greaterEqual, cs)
  | '>' :: cs => some (.greater, cs)
  | '+' :: cs => some (.plus, cs)
  | '-' :: cs => some (.minus, cs)
  | '*' :: cs => some (.star, cs)
  | '/' :: cs => some (.slash, cs)
  | '%' :: cs => some (.percent, cs)
  | '(' :: cs => some (.openParen, cs)
  | ')' :: cs => some (.closeParen, cs)
  | '[' :: cs => some (.openBracket, cs)
  | ']' :: cs => some (.closeBracket, cs)
  | ',' :: cs => some (.comma, cs)
  | ';' :: cs => some (.semicolon, cs)
  | _ => none

/-- The longest piece at the start of a text that is not empty. -/
def cut (c : Char) (cs : List Char) : Cut :=
  if isGap c then (⟨.gap, c :: cs.takeWhile isGap⟩, cs.dropWhile isGap)
  else if c = '\n' then (⟨.token .newline, [c]⟩, cs)
  else if c = '\x7b' then afterBrace cs
  else if c = '"' then afterQuote cs
  else if c = '\'' then afterApostrophe cs
  else if c.isDigit then number (c :: cs.takeWhile Char.isDigit) (cs.dropWhile Char.isDigit)
  else if c.isAlpha then
    let letters := c :: cs.takeWhile Char.isAlphanum
    (⟨.token (wordToken (.ofList letters)), letters⟩, cs.dropWhile Char.isAlphanum)
  else match mark? (c :: cs) with
    | some (mark, rest) => (⟨.token (.mark mark), mark.spelling.toList⟩, rest)
    | none => (⟨.malformed, [c]⟩, cs)

theorem stringBody_append (cs : List Char) : (stringBody cs).1 ++ (stringBody cs).2 = cs := by
  fun_induction stringBody cs <;> simp_all

theorem number_append (digits rest : List Char) :
    (number digits rest).1.text ++ (number digits rest).2 = digits ++ rest := by
  unfold number
  split
  · split <;> simp
  · rfl

theorem afterQuote_append (cs : List Char) :
    (afterQuote cs).1.text ++ (afterQuote cs).2 = '"' :: cs := by
  have h := stringBody_append cs
  unfold afterQuote
  generalize stringBody cs = s at h
  obtain ⟨body, rest⟩ := s
  simp only at h
  subst h
  dsimp only
  split <;> simp

theorem closeCharacter_append (body rest : List Char) :
    (closeCharacter body rest).1.text ++ (closeCharacter body rest).2 = '\'' :: body ++ rest := by
  unfold closeCharacter
  split <;> simp

theorem afterApostrophe_append (cs : List Char) :
    (afterApostrophe cs).1.text ++ (afterApostrophe cs).2 = '\'' :: cs := by
  unfold afterApostrophe
  split
  · split
    · rfl
    · simp [closeCharacter_append]
  · split
    · rfl
    · simp [closeCharacter_append]
  · rfl

theorem afterBrace_append (cs : List Char) :
    (afterBrace cs).1.text ++ (afterBrace cs).2 = '\x7b' :: cs := by
  have h := List.takeWhile_append_dropWhile (p := (· ≠ '\x7d')) (l := cs)
  unfold afterBrace
  split
  · rename_i hd
    rw [hd] at h
    simpa using h
  · rename_i close rest hd
    rw [hd] at h
    simpa using h

theorem mark?_append {cs rest : List Char} {mark : Mark} (h : mark? cs = some (mark, rest)) :
    mark.spelling.toList ++ rest = cs := by
  unfold mark? at h
  split at h <;> simp_all <;> obtain ⟨rfl, rfl⟩ := h <;> rfl

/-- A piece and the text behind it are the text. -/
theorem cut_append (c : Char) (cs : List Char) :
    (cut c cs).1.text ++ (cut c cs).2 = c :: cs := by
  unfold cut
  split
  · simp
  split
  · simp
  split
  · rename_i h
    rw [afterBrace_append, h]
  split
  · rename_i h
    rw [afterQuote_append, h]
  split
  · rename_i h
    rw [afterApostrophe_append, h]
  split
  · simp [number_append]
  split
  · simp
  split
  · rename_i h
    exact mark?_append h
  · rfl

/-- A piece is not empty. -/
theorem cut_text_ne_nil (c : Char) (cs : List Char) : (cut c cs).1.text ≠ [] := by
  unfold cut
  split
  · simp
  split
  · simp
  split
  · unfold afterBrace
    split <;> simp
  split
  · simp only [afterQuote]
    split <;> simp
  split
  · unfold afterApostrophe closeCharacter
    repeat' split
    all_goals simp
  split
  · unfold number
    repeat' split
    all_goals simp
  split
  · simp
  split
  · rename_i mark rest h
    cases mark <;> simp [Mark.spelling]
  · simp

/-- The text behind a piece is shorter than the text. -/
theorem cut_rest_length (c : Char) (cs : List Char) : (cut c cs).2.length < (c :: cs).length := by
  rw [← cut_append c cs, List.length_append]
  have := List.length_pos_iff.mpr (cut_text_ne_nil c cs)
  omega

end Scan

/-- The pieces of a text in order. -/
def pieces : List Char → List Piece
  | [] => []
  | c :: cs => (Scan.cut c cs).1 :: pieces (Scan.cut c cs).2
termination_by cs => cs.length
decreasing_by exact Scan.cut_rest_length c cs

/-- The pieces tile the text: none of its characters is lost or repeated. -/
theorem flatMap_text_pieces (cs : List Char) : (pieces cs).flatMap Piece.text = cs := by
  fun_induction pieces cs with
  | case1 => rfl
  | case2 c cs ih => rw [List.flatMap_cons, ih, Scan.cut_append]

end Offside
