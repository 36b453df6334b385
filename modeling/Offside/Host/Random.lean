/-!
# Random numbers

A reproducible stream of 32-bit words. A seed is spread over eight key words; the words of the stream come in
blocks of sixteen, each of them a mix of the key and the number of the block.
-/

namespace Offside

/-- Four words that are mixed side by side. -/
structure Row where
  a : UInt32
  b : UInt32
  c : UInt32
  d : UInt32
  deriving DecidableEq, Repr

/-- A word with its bits moved up, those that leave at the top coming back at the bottom. -/
def rotateLeft (word : UInt32) (bits : UInt32) : UInt32 :=
  (word <<< bits) ||| (word >>> (32 - bits))

def rotateRight (word : UInt32) (bits : UInt32) : UInt32 :=
  (word >>> bits) ||| (word <<< (32 - bits))

namespace Row

def zip (f : UInt32 → UInt32 → UInt32) (x y : Row) : Row :=
  ⟨f x.a y.a, f x.b y.b, f x.c y.c, f x.d y.d⟩

def add : Row → Row → Row :=
  zip (· + ·)

/-- Adds bits without carrying and moves the result up. -/
def stir (bits : UInt32) : Row → Row → Row :=
  zip fun u v => rotateLeft (u ^^^ v) bits

/-- The row from its second word on, with the first word behind. -/
def turn (x : Row) : Row :=
  ⟨x.b, x.c, x.d, x.a⟩

def toList (x : Row) : List UInt32 :=
  [x.a, x.b, x.c, x.d]

end Row

/-- Sixteen words in four rows. -/
structure Block where
  first : Row
  second : Row
  third : Row
  fourth : Row
  deriving DecidableEq, Repr

namespace Block

/-- Mixes the four columns. -/
def mixColumns (x : Block) : Block :=
  let first := x.first.add x.second
  let fourth := x.fourth.stir 16 first
  let third := x.third.add fourth
  let second := x.second.stir 12 third
  let first := first.add second
  let fourth := fourth.stir 8 first
  let third := third.add fourth
  let second := second.stir 7 third
  ⟨first, second, third, fourth⟩

/-- Mixes the columns and then the diagonals. -/
def round (x : Block) : Block :=
  let y := x.mixColumns
  let z := mixColumns ⟨y.first, y.second.turn, y.third.turn.turn, y.fourth.turn.turn.turn⟩
  ⟨z.first, z.second.turn.turn.turn, z.third.turn.turn, z.fourth.turn⟩

def add (x y : Block) : Block :=
  ⟨x.first.add y.first, x.second.add y.second, x.third.add y.third, x.fourth.add y.fourth⟩

def toList (x : Block) : List UInt32 :=
  x.first.toList ++ x.second.toList ++ x.third.toList ++ x.fourth.toList

/-- The block that a key gives for a number: twelve rounds, two at a time, added to what they start from. -/
def ofKey (low high : Row) (number : Nat) : Block :=
  let start : Block :=
    ⟨⟨0x61707865, 0x3320646e, 0x79622d32, 0x6b206574⟩, low, high,
      ⟨number.toUInt32, (number >>> 32).toUInt32, 0, 0⟩⟩
  start.round.round.round.round.round.round.add start

end Block

/-- A stream of random words, of which the first `drawn` are used up. -/
structure Random where
  low : Row
  high : Row
  drawn : Nat
  deriving DecidableEq, Repr

namespace Random

/-- The step from one state of the seed to the next. -/
def advance (state : UInt64) : UInt64 :=
  state * 6364136223846793005 + 11634580027462260723

/-- The key word that a state of the seed gives. -/
def keyWord (state : UInt64) : UInt32 :=
  rotateRight (((state >>> 18) ^^^ state) >>> 27).toUInt32 (state >>> 59).toUInt32

/-- The first states of a seed. -/
def states : Nat → UInt64 → List UInt64
  | 0, _ => []
  | n + 1, state => advance state :: states n (advance state)

def ofSeed (seed : UInt64) : Random :=
  match (states 8 seed).map keyWord with
  | [a, b, c, d, e, f, g, h] => ⟨⟨a, b, c, d⟩, ⟨e, f, g, h⟩, 0⟩
  | _ => ⟨⟨0, 0, 0, 0⟩, ⟨0, 0, 0, 0⟩, 0⟩

/-- The word at an index of the stream. -/
def word (r : Random) (index : Nat) : UInt32 :=
  ((Block.ofKey r.low r.high (index / 16)).toList[index % 16]?).getD 0

/-- The next number, and the stream behind it. -/
def next (r : Random) : Int32 × Random :=
  ((r.word r.drawn).toInt32, ⟨r.low, r.high, r.drawn + 1⟩)

end Random

end Offside
