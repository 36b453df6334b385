import Offside.Proofs.ParseExpr
import Offside.Proofs.Strict.ReadProgram

/-!
# Reading goes forward

Every reader of the grammar moves on: what it reads ends at a later place than it starts, and not behind the end of the
list. This holds in any list, also in one that is cut off or has lost some of its tokens, and from any place in it. It
is said of the cursors and of the readers that count places, which take a number of steps that is fixed beforehand and
may set their place back; the steps suffice, so that reading a list always ends, with a program or with an error.
-/

namespace Offside.Strict

open Reader
open Parse (Cursor Reading Attempt bare)

variable {α : Type} {ls : List Lexeme} {place : Nat}

/-! ### Cursors by place -/

/-- The cursor at a place of a list. -/
def cursorAt (ls : List Lexeme) (place : Nat) : Cursor :=
  ⟨ls.drop place, ((ls.take place).getLast?.map Lexeme.span).getD ⟨0, 0⟩, (Cursor.ofLexemes ls).finish⟩

theorem stands_cursorAt (ls : List Lexeme) (place : Nat) : Stands ls (cursorAt ls place) where
  before := by
    refine ⟨ls.take place, (List.take_append_drop place ls).symm, fun l hl => ?_⟩
    rw [cursorAt, Option.mem_def.mp hl]
    rfl
  finish := rfl

theorem position_cursorAt (h : place ≤ ls.length) : position ls (cursorAt ls place) = place := by
  rw [position, cursorAt, List.length_drop]
  omega

/-- A cursor that is reached is the one at its place. -/
theorem eq_cursorAt {c d : Cursor} (hc : Stands ls c) (h : c.Passes d) : d = cursorAt ls (position ls d) := by
  have hd := hc.passes h
  obtain ⟨front, hls, -⟩ := hd.before
  have hahead : d.ahead = ls.drop (position ls d) := by
    rw [position_eq hls]
    conv => rhs; rw [hls]
    exact List.drop_left.symm
  have hlast := hc.last h
  obtain ⟨ahead, last, finish⟩ := d
  rw [cursorAt, hlast, ← hd.finish, ← hahead]
  rfl

/-! ### Moving on -/

/-- A reader does at a place what an attempt does at the cursor there, and has an answer in any case. With a value it
comes to a later place of the list, where the cursor behind the attempt stands. -/
inductive Advances (ls : List Lexeme) (place : Nat) (p : Reader α) : Attempt α (cursorAt ls place) → Prop where
  | ok {r : Reading α (cursorAt ls place)} {next : Nat} (forward : place < next) (inside : next ≤ ls.length)
      (behind : r.next = cursorAt ls next) (answer : p ls place = some (.ok (r.value, next))) :
      Advances ls place p (.ok r)
  | error {e : SyntaxError} (answer : p ls place = some (.error e)) : Advances ls place p (.error e)

theorem Meets.advances {p : Reader α} {x : Attempt α (cursorAt ls place)} (hplace : place ≤ ls.length)
    (h : Meets ls p (cursorAt ls place) x) : Advances ls place p x := by
  rw [Meets, position_cursorAt hplace] at h
  cases x with
  | error e => exact .error h
  | ok r =>
    have hshorter := r.shorter
    have hlength : (cursorAt ls place).ahead.length = ls.length - place := List.length_drop
    refine .ok ?_ position_le (eq_cursorAt (stands_cursorAt ls place) r.passes) h
    rw [position]
    omega

/-! ### Readers that call themselves -/

section

variable {c : Cursor}

theorem meets_factor (hc : Stands ls c) : Meets ls (within 3 factor) c (Parse.factor c) := by
  apply Meets.within hc
  intro fuel hfuel
  exact (expr_meets ls fuel).factor hc (by omega)

theorem meets_product (hc : Stands ls c) : Meets ls (within 3 product) c (Parse.product c) := by
  apply Meets.within hc
  intro fuel hfuel
  exact (expr_meets ls fuel).product hc (by omega)

theorem meets_statement (hc : Stands ls c) (defined : List String) :
    Meets ls (within 2 (statement defined)) c (Parse.statement defined c) := by
  apply Meets.within hc
  intro fuel hfuel
  exact (stmt_meets ls defined fuel).statement hc (by omega)

theorem meets_block (hc : Stands ls c) (defined : List String) :
    Meets ls (within 2 (block defined)) c (Parse.block defined c) := by
  apply Meets.within hc
  intro fuel hfuel
  exact (stmt_meets ls defined fuel).block hc (by omega)

end

/-- From any place of any list, each reader of the grammar that gives a value comes to a later place and stays in the
list; a section and a call are read from behind the word or the name that they start with. So a list has no more
functions than lexemes, and reading one after the other ends: with a program, at the end of the list, or with an
error. -/
theorem readers_advance (ls : List Lexeme) (defined : List String) (place : Nat) (hplace : place ≤ ls.length) :
    Advances ls place (function defined) (Parse.function defined (cursorAt ls place)) ∧
    Advances ls place parameters (Parse.parameters (cursorAt ls place)) ∧
    Advances ls place constantLine (Parse.constantLine (cursorAt ls place)) ∧
    Advances ls place variableLine (Parse.variableLine (cursorAt ls place)) ∧
    (∀ kind, Advances ls place (declarations kind) (kind.read (cursorAt ls place))) ∧
    Advances ls place dataType (Parse.dataType (cursorAt ls place)) ∧
    Advances ls place (within 2 (statement defined)) (Parse.statement defined (cursorAt ls place)) ∧
    Advances ls place (within 2 (block defined)) (Parse.block defined (cursorAt ls place)) ∧
    Advances ls place callArguments (Parse.callArguments (cursorAt ls place)) ∧
    Advances ls place arguments (Parse.arguments (cursorAt ls place)) ∧
    Advances ls place literal (Parse.literal (cursorAt ls place)) ∧
    Advances ls place comparison (Parse.comparison (cursorAt ls place)) ∧
    Advances ls place expr (Parse.sum (cursorAt ls place)) ∧
    Advances ls place (within 3 product) (Parse.product (cursorAt ls place)) ∧
    Advances ls place (within 3 factor) (Parse.factor (cursorAt ls place)) ∧
    functions (Parse.definedNames ls) (ls.length + 1) .empty ls 0 =
      some ((Program.ofLexemes ls).map fun program => (program, ls.length)) := by
  have hc := stands_cursorAt ls place
  refine ⟨(meets_function hc defined).advances hplace, (meets_parameters hc).advances hplace,
    (meets_constantLine hc).advances hplace, (meets_variableLine hc).advances hplace,
    fun kind => (meets_declarations hc kind).advances hplace, (meets_dataType hc).advances hplace,
    (meets_statement hc defined).advances hplace, (meets_block hc defined).advances hplace,
    (meets_callArguments hc).advances hplace, (meets_arguments hc).advances hplace,
    (meets_literal hc).advances hplace, (meets_comparison hc).advances hplace, (meets_expr hc).advances hplace,
    (meets_product hc).advances hplace, (meets_factor hc).advances hplace, ?_⟩
  have hstart : position ls (.ofLexemes ls) = 0 := Nat.sub_self _
  have hfunctions := functions_eq (stands_ofLexemes ls) (Parse.definedNames ls) .empty (Nat.lt_succ_self _)
  rw [hstart] at hfunctions
  exact hfunctions

/-- The line `(a) * 2` behind the name of a function. -/
def Example.bareProduct : List Lexeme :=
  bare [.mark .openParen, .name "a", .mark .closeParen, .mark .star, .integer 2, .newline, .dedent]

/-- The place comes behind the closing parenthesis, is set back to the start and then moves on to the line end. -/
theorem readers_advance_bareProduct :
    ∃ args next, 0 < next ∧ next ≤ 7 ∧ callArguments Example.bareProduct 0 = some (.ok (args, next)) := by
  obtain ⟨-, -, -, -, -, -, -, -, hcall, -⟩ := readers_advance Example.bareProduct [] 0 (by decide)
  have hok : (Parse.callArguments (cursorAt Example.bareProduct 0)).isOk = true := by decide +kernel
  obtain ⟨r, hr⟩ := exists_eq_ok hok
  rw [hr] at hcall
  cases hcall with
  | ok forward inside behind answer => exact ⟨_, _, forward, inside, answer⟩

end Offside.Strict
