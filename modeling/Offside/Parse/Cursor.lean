import Offside.Parse.Error

/-!
# Reading through lexemes

A cursor stands in front of the lexemes that are still to be read. What is read from a cursor comes with the
cursor behind it, which is strictly further on; every recursion of the grammar ends for this reason.
-/

namespace Offside.Parse

/-- A place in a list of lexemes. -/
structure Cursor where
  ahead : List Lexeme
  /-- The span of the lexeme in front of the cursor. -/
  last : Span
  /-- Where the end of the input is reported. -/
  finish : Location
  deriving DecidableEq, Repr

/-- Reading leads from one cursor to another in the same list: at least one lexeme lies between the two, and the
second cursor remembers the last of them. -/
def Cursor.Passes (c d : Cursor) : Prop :=
  ∃ front l, c.ahead = front ++ l :: d.ahead ∧ d.last = l.span ∧ d.finish = c.finish

namespace Cursor.Passes

variable {c d e : Cursor}

theorem trans (h : c.Passes d) (h' : d.Passes e) : c.Passes e := by
  obtain ⟨front, l, hahead, -, hfinish⟩ := h
  obtain ⟨more, m, hahead', hlast', hfinish'⟩ := h'
  exact ⟨front ++ l :: more, m, by rw [hahead, hahead']; simp, hlast', hfinish'.trans hfinish⟩

theorem shorter (h : c.Passes d) : d.ahead.length < c.ahead.length := by
  obtain ⟨front, l, hahead, -⟩ := h
  rw [hahead, List.length_append, List.length_cons]
  omega

end Cursor.Passes

/-- Something read from a cursor. -/
structure Reading (α : Type) (c : Cursor) where
  value : α
  next : Cursor
  passes : c.Passes next

/-- An attempt to read from a cursor. -/
abbrev Attempt (α : Type) (c : Cursor) := Except SyntaxError (Reading α c)

namespace Reading

variable {α β : Type} {c : Cursor}

theorem shorter (r : Reading α c) : r.next.ahead.length < c.ahead.length :=
  r.passes.shorter

/-- The cursor of a second reading behind a first, with a value made from both. -/
def andThen (r : Reading α c) (s : Reading β r.next) {γ : Type} (value : γ) : Reading γ c :=
  ⟨value, s.next, r.passes.trans s.passes⟩

def map (f : α → β) (r : Reading α c) : Reading β c :=
  ⟨f r.value, r.next, r.passes⟩

end Reading

namespace Cursor

def ofLexemes (ls : List Lexeme) : Cursor :=
  ⟨ls, ⟨0, 0⟩, match ls.getLast? with
    | some l => ⟨.point l.span.stop, l.line⟩
    | none => ⟨⟨0, 0⟩, 1⟩⟩

/-- An error at the next lexeme, or at the end of the input. -/
def fault (c : Cursor) (cause : SyntaxCause) : SyntaxError :=
  match c.ahead with
  | l :: _ => .atLexeme l cause
  | [] => ⟨cause, "end of input", c.finish⟩

def fail (c : Cursor) {α : Type} (cause : SyntaxCause) : Except SyntaxError α :=
  .error (c.fault cause)

/-- The next token. -/
def token? (c : Cursor) : Option Token :=
  c.ahead.head?.map Lexeme.token

/-- The next lexeme and the cursor behind it. -/
def next? (c : Cursor) : Option (Reading Lexeme c) :=
  match h : c.ahead with
  | [] => none
  | l :: rest => some ⟨l, ⟨rest, l.span, c.finish⟩, [], l, h, rfl, rfl⟩

/-- The next lexeme if its token is the given one. -/
def eat? (c : Cursor) (token : Token) : Option (Reading Lexeme c) :=
  match c.next? with
  | some r => if r.value.token = token then some r else none
  | none => none

/-- The next lexeme, whose token has to be the given one. -/
def expect (c : Cursor) (token : Token) (what : Expected) : Attempt Lexeme c :=
  match c.eat? token with
  | some r => .ok r
  | none => c.fail (.expected what)

def expectMark (c : Cursor) (mark : Mark) (what : Expected) : Attempt Lexeme c :=
  c.expect (.mark mark) what

def expectWord (c : Cursor) (word : Keyword) (what : Expected) : Attempt Lexeme c :=
  c.expect (.keyword word) what

def expectLineEnd (c : Cursor) : Attempt Lexeme c :=
  c.expect .newline .lineEnd

/-- A name, with the place where it stands. -/
def expectName (c : Cursor) (what : Expected) : Attempt (String × Lexeme) c :=
  match c.next? with
  | none => c.fail (.expected what)
  | some r =>
    match r.value.token with
    | .name name => .ok (r.map fun l => (name, l))
    | .keyword word => c.fail (.reserved what (.keyword word))
    | _ => c.fail (.expected what)

end Cursor

end Offside.Parse
