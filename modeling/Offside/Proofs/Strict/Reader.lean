import Offside.Parse.Stmt
import Offside.Proofs.CursorTokens
import Offside.Proofs.Strict.Basic

/-!
# Reading by position

A reader here knows the list of all lexemes and a place in it, a plain number. The place moves on by one for each lexeme
that is taken, and is set back when a reading is given up; it must not pass the end of the list. `Meets` says that such
a reader does, from the place of a cursor, what an attempt does from the cursor: it has an answer, with the same value
or error, and ends at the place of the cursor behind.
-/

namespace Offside.Strict

open Parse

/-- Reads from a list of lexemes at a place. Outside of the domain of an operation there is no answer. -/
def Reader (α : Type) := List Lexeme → Nat → Option (Except SyntaxError (α × Nat))

namespace Reader

variable {α β : Type}

/-- The second reader goes on where the first has come to. -/
protected def bind (p : Reader α) (q : α → Reader β) : Reader β :=
  fun ls place =>
    match p ls place with
    | none => none
    | some (.error e) => some (.error e)
    | some (.ok (a, next)) => q a ls next

instance : Monad Reader where
  pure a := fun _ place => some (.ok (a, place))
  bind := Reader.bind

def undefined : Reader α :=
  fun _ _ => none

/-- The answer of something that reads nothing. -/
def lift (x : Except SyntaxError α) : Reader α :=
  fun _ place => some (x.map fun a => (a, place))

def place : Reader Nat :=
  fun _ place => some (.ok (place, place))

/-- The lexeme at the place, if there is one. -/
def peek : Reader (Option Lexeme) :=
  fun ls place => some (.ok (ls[place]?, place))

/-- Moves behind the lexeme at the place. -/
def move : Reader Unit :=
  fun ls place => if place < ls.length then some (.ok ((), place + 1)) else none

/-- Sets the place. -/
def goTo (start : Nat) : Reader Unit :=
  fun ls _ => if start ≤ ls.length then some (.ok ((), start)) else none

/-- The lexemes before the place. -/
def taken : Reader (List Lexeme) :=
  fun ls place => (front ls place).map fun before => .ok (before, place)

def atEnd : Reader Bool :=
  fun ls place => some (.ok (decide (ls.length ≤ place), place))

/-- An error at the place. -/
def fail (cause : SyntaxCause) : Reader α :=
  fun ls place =>
    match ls[place]? with
    | some l => some (.error (.atLexeme l cause))
    | none => some (.error ⟨cause, "end of input", (Cursor.ofLexemes ls).finish⟩)

/-- Turns an error into a value. -/
def attempt (p : Reader α) : Reader (Except SyntaxError α) :=
  fun ls place =>
    match p ls place with
    | none => none
    | some (.error e) => some (.ok (.error e, place))
    | some (.ok (a, next)) => some (.ok (.ok a, next))

/-- Takes a token if it is next. -/
def eat (token : Token) : Reader Bool := do
  match ← peek with
  | some l =>
    if l.token = token then do
      move
      return true
    else return false
  | none => return false

/-- Whether a token is next. -/
def isNext (token : Token) : Reader Bool := do
  return (← peek).map Lexeme.token = some token

/-- What the next token stands for. -/
def pick (meaning : Token → Option α) (cause : Option Token → SyntaxCause) : Reader α := do
  match ← peek with
  | some l =>
    match meaning l.token with
    | some a => do
      move
      return a
    | none => fail (cause (some l.token))
  | none => fail (cause none)

/-- What the next token stands for, if anything. -/
def pick? (meaning : Token → Option α) : Reader (Option α) := do
  match ← peek with
  | some l =>
    match meaning l.token with
    | some a => do
      move
      return some a
    | none => return none
  | none => return none

/-- Takes a token, which has to be next. -/
def expect (token : Token) (what : Expected) : Reader Lexeme := do
  match ← peek with
  | some l =>
    if l.token = token then do
      move
      return l
    else fail (.expected what)
  | none => fail (.expected what)

def expectMark (mark : Mark) (what : Expected) : Reader Lexeme :=
  expect (.mark mark) what

def expectWord (word : Keyword) (what : Expected) : Reader Lexeme :=
  expect (.keyword word) what

def expectLineEnd : Reader Lexeme :=
  expect .newline .lineEnd

def expectName (what : Expected) : Reader (String × Lexeme) := do
  match ← peek with
  | some l =>
    match l.token with
    | .name name => do
      move
      return (name, l)
    | .keyword word => fail (.reserved what (.keyword word))
    | _ => fail (.expected what)
  | none => fail (.expected what)

/-- The place of something that starts with a lexeme and ends here. -/
def placeFrom (first : Lexeme) : Reader Location := do
  let before ← taken
  return ⟨first.span.merge ((before.getLast?.map Lexeme.span).getD first.span), first.line⟩

/-- A recursive reader, with as many steps for each lexeme of the list as it needs at most. -/
def within (steps : Nat) (p : Nat → Reader α) : Reader α :=
  fun ls => p (steps * (ls.length + 1)) ls

end Reader

open Reader

variable {α β : Type} {ls : List Lexeme} {c d e : Cursor}

/-! ### Cursors in a list -/

/-- The lexemes before a cursor. -/
def position (ls : List Lexeme) (c : Cursor) : Nat :=
  ls.length - c.ahead.length

/-- A cursor stands in a list of lexemes. -/
structure Stands (ls : List Lexeme) (c : Cursor) : Prop where
  before : ∃ front, ls = front ++ c.ahead ∧ ∀ l ∈ front.getLast?, c.last = l.span
  finish : c.finish = (Cursor.ofLexemes ls).finish

theorem stands_ofLexemes (ls : List Lexeme) : Stands ls (.ofLexemes ls) where
  before := ⟨[], rfl, nofun⟩
  finish := rfl

theorem Stands.passes (h : Stands ls c) (hpasses : c.Passes d) : Stands ls d := by
  obtain ⟨front, hls, -⟩ := h.before
  obtain ⟨more, l, hahead, hlast, hfinish⟩ := hpasses
  refine ⟨⟨front ++ more ++ [l], ?_, ?_⟩, hfinish.trans h.finish⟩
  · rw [hls, hahead]
    simp
  · intro l' hl'
    rw [List.getLast?_concat, Option.mem_some_iff] at hl'
    rw [hlast, hl']

theorem Stands.next (h : Stands ls c) (r : Reading α c) : Stands ls r.next :=
  h.passes r.passes

theorem position_eq {front : List Lexeme} (h : ls = front ++ c.ahead) : position ls c = front.length := by
  rw [position, h, List.length_append, Nat.add_sub_cancel]

theorem position_le : position ls c ≤ ls.length :=
  Nat.sub_le _ _

theorem Stands.lookup (h : Stands ls c) : ls[position ls c]? = c.ahead.head? := by
  obtain ⟨front, hls, -⟩ := h.before
  rw [position_eq hls, hls, List.getElem?_append_right (Nat.le_refl _), Nat.sub_self, List.head?_eq_getElem?]

/-- What is read behind a cursor ends with the last lexeme before the next one. -/
theorem Stands.last (h : Stands ls c) (hpasses : c.Passes d) :
    (ls.take (position ls d)).getLast?.map Lexeme.span = some d.last := by
  obtain ⟨front, hls, -⟩ := h.before
  obtain ⟨more, l, hahead, hlast, -⟩ := hpasses
  have hlist : ls = (front ++ more ++ [l]) ++ d.ahead := by
    rw [hls, hahead]
    simp
  rw [position_eq hlist, hlist, List.take_left, List.getLast?_concat, hlast]
  rfl

theorem position_next (h : Stands ls c) {r : Reading Lexeme c} (hr : c.next? = some r) :
    position ls r.next = position ls c + 1 ∧ position ls c < ls.length := by
  obtain ⟨front, hls, -⟩ := h.before
  have hahead := Cursor.ahead_of_next? hr
  have hnext : ls = (front ++ [r.value]) ++ r.next.ahead := by
    rw [hls, hahead]
    simp
  rw [position_eq hls, position_eq hnext, hls, hahead]
  simp

theorem head?_of_next? {r : Reading Lexeme c} (hr : c.next? = some r) : c.ahead.head? = some r.value := by
  rw [Cursor.ahead_of_next? hr]
  rfl

theorem head?_of_next?_none (h : c.next? = none) : c.ahead.head? = none := by
  unfold Cursor.next? at h
  split at h
  · rename_i hahead
    rw [hahead]
    rfl
  · cases h

/-! ### Readers and attempts -/

/-- A reader does at the place of a cursor what an attempt says. -/
def Meets (ls : List Lexeme) (p : Reader α) (c : Cursor) (x : Except SyntaxError (Reading α d)) : Prop :=
  p ls (position ls c) = some (x.map fun r => (r.value, position ls r.next))

variable {p : Reader α} {q : α → Reader β} {y : Except SyntaxError (Reading β e)}

theorem bind_of_ok {place next : Nat} {a : α} (h : p ls place = some (.ok (a, next))) :
    (p >>= q) ls place = q a ls next := by
  change p.bind q ls place = _
  rw [Reader.bind, h]

theorem bind_of_error {place : Nat} {e : SyntaxError} (h : p ls place = some (.error e)) :
    (p >>= q) ls place = some (.error e) := by
  change p.bind q ls place = _
  rw [Reader.bind, h]

theorem Meets.bind {x : Attempt α d} {next : Reading α d → Except SyntaxError (Reading β e)} (hd : Stands ls d)
    (h : Meets ls p c x) (hnext : ∀ r, x = .ok r → Stands ls r.next → Meets ls (q r.value) r.next (next r)) :
    Meets ls (p >>= q) c (x >>= next) := by
  cases x with
  | error e => exact bind_of_error h
  | ok r => exact (bind_of_ok h).trans (hnext r rfl (hd.next r))

/-- A reading may be seen from an earlier cursor. -/
theorem Meets.widen {x : Attempt α c} {wide : Reading α c → Reading α e} (h : Meets ls p c x)
    (hwide : ∀ r, (wide r).value = r.value ∧ (wide r).next = r.next) :
    Meets ls p c (x >>= fun r => pure (wide r)) := by
  refine h.trans ?_
  cases x with
  | error e => rfl
  | ok r =>
    change _ = some (Except.ok ((wide r).value, position ls (wide r).next))
    rw [(hwide r).1, (hwide r).2]
    rfl

theorem meets_fail (hc : Stands ls c) (cause : SyntaxCause) :
    Meets ls (fail cause : Reader α) c (c.fail cause : Except SyntaxError (Reading α d)) := by
  unfold Meets Reader.fail Cursor.fail Cursor.fault
  rw [hc.lookup]
  cases hahead : c.ahead with
  | nil => rw [← hc.finish]; rfl
  | cons l rest => rfl

theorem meets_lift {x : Except SyntaxError α} {next : α → Except SyntaxError (Reading β e)}
    (hnext : ∀ a, x = .ok a → Meets ls (q a) c (next a)) : Meets ls (lift x >>= q) c (x >>= next) := by
  cases x with
  | error e => rfl
  | ok a => exact hnext a rfl

theorem peek_of_none (hc : Stands ls c) (h : c.next? = none) :
    peek ls (position ls c) = some (.ok (none, position ls c)) := by
  rw [peek, hc.lookup, head?_of_next?_none h]

theorem peek_of_some (hc : Stands ls c) {r : Reading Lexeme c} (h : c.next? = some r) :
    peek ls (position ls c) = some (.ok (some r.value, position ls c)) := by
  rw [peek, hc.lookup, head?_of_next? h]

/-- A lexeme that is next can be moved over: the place stays in the list. -/
theorem move_of_some (hc : Stands ls c) {r : Reading Lexeme c} (h : c.next? = some r) :
    move ls (position ls c) = some (.ok ((), position ls r.next)) := by
  obtain ⟨hnext, hlt⟩ := position_next hc h
  rw [move, if_pos hlt, hnext]

theorem meets_peek_none {q : Option Lexeme → Reader β} (hc : Stands ls c) (h : c.next? = none)
    (hq : Meets ls (q none) c y) : Meets ls (peek >>= q) c y :=
  (bind_of_ok (peek_of_none hc h)).trans hq

theorem meets_peek_some {q : Option Lexeme → Reader β} (hc : Stands ls c) {r : Reading Lexeme c} (h : c.next? = some r)
    (hq : Meets ls (q (some r.value)) c y) : Meets ls (peek >>= q) c y :=
  (bind_of_ok (peek_of_some hc h)).trans hq

theorem meets_move {q : Unit → Reader β} (hc : Stands ls c) {r : Reading Lexeme c} (h : c.next? = some r)
    (hq : Meets ls (q ()) r.next y) : Meets ls (move >>= q) c y :=
  (bind_of_ok (move_of_some hc h)).trans hq

theorem eat_of_some {t : Token} (hc : Stands ls c) {r : Reading Lexeme c} (h : c.eat? t = some r) :
    eat t ls (position ls c) = some (.ok (true, position ls r.next)) := by
  obtain ⟨hnext, htoken⟩ := Cursor.next?_of_eat? h
  rw [eat, bind_of_ok (peek_of_some hc hnext)]
  dsimp only
  rw [if_pos htoken]
  exact bind_of_ok (move_of_some hc hnext)

theorem eat_of_none {t : Token} (hc : Stands ls c) (h : c.eat? t = none) :
    eat t ls (position ls c) = some (.ok (false, position ls c)) := by
  cases hnext : c.next? with
  | none => exact bind_of_ok (peek_of_none hc hnext)
  | some r =>
    rw [eat, bind_of_ok (peek_of_some hc hnext)]
    dsimp only
    rw [if_neg (Cursor.token_ne_of_eat? h hnext)]
    rfl

theorem meets_eat_some {q : Bool → Reader β} {t : Token} (hc : Stands ls c) {r : Reading Lexeme c}
    (h : c.eat? t = some r) (hq : Meets ls (q true) r.next y) : Meets ls (eat t >>= q) c y :=
  (bind_of_ok (eat_of_some hc h)).trans hq

theorem meets_eat_none {q : Bool → Reader β} {t : Token} (hc : Stands ls c) (h : c.eat? t = none)
    (hq : Meets ls (q false) c y) : Meets ls (eat t >>= q) c y :=
  (bind_of_ok (eat_of_none hc h)).trans hq

theorem meets_expect (hc : Stands ls c) (t : Token) (what : Expected) :
    Meets ls (expect t what) c (c.expect t what) := by
  unfold expect Cursor.expect
  cases heat : c.eat? t with
  | some r =>
    obtain ⟨hnext, htoken⟩ := Cursor.next?_of_eat? heat
    apply meets_peek_some hc hnext
    dsimp only
    rw [if_pos htoken]
    exact meets_move hc hnext rfl
  | none =>
    cases hnext : c.next? with
    | none => exact meets_peek_none hc hnext (meets_fail hc _)
    | some r =>
      apply meets_peek_some hc hnext
      dsimp only
      rw [if_neg (Cursor.token_ne_of_eat? heat hnext)]
      exact meets_fail hc _

theorem meets_isNext {q : Bool → Reader β} {t : Token} (hc : Stands ls c) (hq : Meets ls (q (c.eat? t).isSome) c y) :
    Meets ls (isNext t >>= q) c y := by
  have hisNext : isNext t ls (position ls c) = some (.ok ((c.eat? t).isSome, position ls c)) := by
    cases hnext : c.next? with
    | none =>
      rw [isNext, bind_of_ok (peek_of_none hc hnext), Cursor.eat?, hnext]
      rfl
    | some r =>
      rw [isNext, bind_of_ok (peek_of_some hc hnext), Cursor.eat?, hnext]
      by_cases htoken : r.value.token = t <;> simp [htoken] <;> rfl
  exact (bind_of_ok hisNext).trans hq

theorem meets_pick?_some {meaning : Token → Option α} {q : Option α → Reader β} (hc : Stands ls c) {r : Reading α c}
    (h : operator? meaning c = some r) (hq : Meets ls (q (some r.value)) r.next y) :
    Meets ls (pick? meaning >>= q) c y := by
  unfold operator? at h
  split at h
  · cases h
  · rename_i l hnext
    split at h
    · rename_i a hmeaning
      cases h
      have hpick : pick? meaning ls (position ls c) = some (.ok (some a, position ls l.next)) := by
        rw [pick?, bind_of_ok (peek_of_some hc hnext)]
        dsimp only
        rw [hmeaning]
        exact bind_of_ok (move_of_some hc hnext)
      exact (bind_of_ok hpick).trans hq
    · cases h

theorem meets_pick?_none {meaning : Token → Option α} {q : Option α → Reader β} (hc : Stands ls c)
    (h : operator? meaning c = none) (hq : Meets ls (q none) c y) : Meets ls (pick? meaning >>= q) c y := by
  have hpick : pick? meaning ls (position ls c) = some (.ok (none, position ls c)) := by
    unfold operator? at h
    split at h
    · rename_i hnext
      exact bind_of_ok (peek_of_none hc hnext)
    · rename_i l hnext
      split at h
      · cases h
      · rename_i hmeaning
        rw [pick?, bind_of_ok (peek_of_some hc hnext)]
        dsimp only
        rw [hmeaning]
        rfl
  exact (bind_of_ok hpick).trans hq

theorem meets_expectName (hc : Stands ls c) (what : Expected) :
    Meets ls (expectName what) c (c.expectName what) := by
  unfold expectName Cursor.expectName
  cases hnext : c.next? with
  | none => exact meets_peek_none hc hnext (meets_fail hc _)
  | some r =>
    apply meets_peek_some hc hnext
    dsimp only
    cases r.value.token with
    | name name => exact meets_move hc hnext rfl
    | _ => exact meets_fail hc _

/-- Lexemes were taken from one cursor to another, so there is a last one and its span ends the place. -/
theorem meets_placeFrom {q : Location → Reader β} (hc : Stands ls c) (hpasses : c.Passes d) (first : Lexeme)
    (hq : Meets ls (q (placeOf first d)) d y) : Meets ls (placeFrom first >>= q) d y := by
  have hplace : placeFrom first ls (position ls d) = some (.ok (placeOf first d, position ls d)) := by
    have htaken : taken ls (position ls d) = some (.ok (ls.take (position ls d), position ls d)) := by
      rw [taken, front_of_le position_le]
      rfl
    rw [placeFrom, bind_of_ok htaken, hc.last hpasses]
    rfl
  exact (bind_of_ok hplace).trans hq

theorem atEnd_eq (hc : Stands ls c) : atEnd ls (position ls c) = some (.ok (c.ahead.isEmpty, position ls c)) := by
  obtain ⟨front, hls, -⟩ := hc.before
  have hsize : decide (ls.length ≤ position ls c) = c.ahead.isEmpty := by
    rw [position_eq hls, hls, List.length_append]
    cases c.ahead <;> simp
  rw [atEnd, hsize]

theorem meets_atEnd {q : Bool → Reader β} (hc : Stands ls c) (hq : Meets ls (q c.ahead.isEmpty) c y) :
    Meets ls (atEnd >>= q) c y :=
  (bind_of_ok (atEnd_eq hc)).trans hq

theorem meets_attempt_ok {q : Except SyntaxError α → Reader β} {r : Reading α d} (h : Meets ls p c (.ok r))
    (hq : Meets ls (q (.ok r.value)) r.next y) : Meets ls (attempt p >>= q) c y := by
  have hattempt : attempt p ls (position ls c) = some (.ok (.ok r.value, position ls r.next)) := by
    unfold Meets at h
    rw [attempt, h]
    rfl
  exact (bind_of_ok hattempt).trans hq

theorem meets_attempt_error {q : Except SyntaxError α → Reader β} {error : SyntaxError}
    (h : Meets ls p c (.error error : Except SyntaxError (Reading α d))) (hq : Meets ls (q (.error error)) c y) :
    Meets ls (attempt p >>= q) c y := by
  have hattempt : attempt p ls (position ls c) = some (.ok (.error error, position ls c)) := by
    unfold Meets at h
    rw [attempt, h]
    rfl
  exact (bind_of_ok hattempt).trans hq

/-- The place of a cursor can be gone back to. -/
theorem meets_goTo {q : Unit → Reader β} (hq : Meets ls (q ()) c y) : Meets ls (goTo (position ls c) >>= q) d y := by
  have hgoTo : goTo (position ls c) ls (position ls d) = some (.ok ((), position ls c)) := by
    rw [goTo, if_pos position_le]
  exact (bind_of_ok hgoTo).trans hq

/-- The steps of a recursive reader suffice if they do for each lexeme ahead. -/
theorem Meets.within {steps : Nat} {p : Nat → Reader α} {x : Except SyntaxError (Reading α d)} (hc : Stands ls c)
    (h : ∀ fuel, steps * (c.ahead.length + 1) ≤ fuel → Meets ls (p fuel) c x) :
    Meets ls (within steps p) c x := by
  apply h
  obtain ⟨front, hls, -⟩ := hc.before
  apply Nat.mul_le_mul_left
  rw [hls, List.length_append]
  omega

end Offside.Strict
