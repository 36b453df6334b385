/-!
# Places in a source text

A span is a stretch of a text by its byte offsets, the end excluded; a line is counted from one. The line
table of a text finds the line of an offset and the stretch of a line.
-/

namespace Offside

/-- The bytes of a text. -/
def byteSize : List Char → Nat
  | [] => 0
  | c :: cs => c.utf8Size + byteSize cs

@[simp] theorem byteSize_nil : byteSize [] = 0 := rfl

@[simp] theorem byteSize_cons (c : Char) (cs : List Char) :
    byteSize (c :: cs) = c.utf8Size + byteSize cs := rfl

@[simp] theorem byteSize_append (as bs : List Char) :
    byteSize (as ++ bs) = byteSize as + byteSize bs := by
  induction as with
  | nil => simp
  | cons c cs ih => simp [ih, Nat.add_assoc]

/-- The line feeds of a text. -/
def lineFeeds (cs : List Char) : Nat :=
  cs.count '\n'

@[simp] theorem lineFeeds_nil : lineFeeds [] = 0 := rfl

@[simp] theorem lineFeeds_append (as bs : List Char) :
    lineFeeds (as ++ bs) = lineFeeds as + lineFeeds bs := by
  simp [lineFeeds]

/-- A stretch of a text from the byte `start` up to the byte `stop`, which is not part of it. -/
structure Span where
  start : Nat
  stop : Nat
  deriving DecidableEq, Repr, Inhabited

namespace Span

/-- The empty stretch at an offset. -/
def point (offset : Nat) : Span :=
  ⟨offset, offset⟩

/-- The least stretch that covers two. -/
def merge (a b : Span) : Span :=
  ⟨min a.start b.start, max a.stop b.stop⟩

def text (s : Span) : String :=
  toString s.start ++ ".." ++ toString s.stop

end Span

/-- Where something stands: its stretch of the text and the line on which it starts. -/
structure Location where
  span : Span
  line : Nat
  deriving DecidableEq, Repr, Inhabited

/-- A place between two characters: the bytes before it and the line it is on. -/
structure Position where
  offset : Nat
  line : Nat
  deriving DecidableEq, Repr

namespace Position

/-- The start of a text. -/
def start : Position :=
  ⟨0, 1⟩

/-- The place behind a stretch of text. -/
def advance (p : Position) (text : List Char) : Position :=
  ⟨p.offset + byteSize text, p.line + lineFeeds text⟩

/-- The location of a stretch of text that starts here. -/
def covering (p : Position) (text : List Char) : Location :=
  ⟨⟨p.offset, p.offset + byteSize text⟩, p.line⟩

/-- The location of so many bytes that start here. -/
def spanning (p : Position) (bytes : Nat) : Location :=
  ⟨⟨p.offset, p.offset + bytes⟩, p.line⟩

@[simp] theorem advance_nil (p : Position) : p.advance [] = p := rfl

theorem advance_append (p : Position) (as bs : List Char) :
    p.advance (as ++ bs) = (p.advance as).advance bs := by
  simp [advance, Nat.add_assoc]

end Position

/-- The offsets at which the lines of a text start. -/
structure LineTable where
  starts : List Nat
  /-- The bytes of the whole text. -/
  size : Nat
  deriving DecidableEq, Repr

namespace LineTable

/-- The offsets just behind each line feed, for a text that starts at `offset`. -/
def startsFrom (offset : Nat) : List Char → List Nat
  | [] => []
  | c :: cs =>
    let next := offset + c.utf8Size
    if c = '\n' then next :: startsFrom next cs else startsFrom next cs

def ofText (text : String) : LineTable :=
  ⟨0 :: startsFrom 0 text.toList, byteSize text.toList⟩

/-- The line of an offset: the number of lines that start no later. -/
def lineOf (t : LineTable) (offset : Nat) : Nat :=
  t.starts.countP (· ≤ offset)

/-- The offset at which a line starts, or the end of the text for a line that does not exist. -/
def lineStart (t : LineTable) (line : Nat) : Nat :=
  if line = 0 then t.size else t.starts[line - 1]?.getD t.size

/-- A line without the line feed that ends it; empty, at the end of the text, for a line that does not
exist. -/
def lineSpan (t : LineTable) (line : Nat) : Span :=
  let start := t.lineStart line
  let stop := match t.starts[line]? with
    | some next => next - 1
    | none => t.size
  ⟨start, max start stop⟩

end LineTable

end Offside
