import Offside.Proofs.FaultOrigins
import Offside.Proofs.ParsePlaces
import Offside.Proofs.Rebuild
import Offside.Proofs.SourceTokens
import Offside.Proofs.Spans

/-!
# The program of a rebuilt text

A text that is rebuilt from the lexemes of a program is read as the same program, on the same lines. Only the stretches
of bytes differ, since blanks and comments are written anew, and no execution shows those.
-/

namespace Offside

open Parse Grammar Layout

/-- A rebuilt text has lexemes of the same outline. This holds of all texts, also where the last line end moves. -/
theorem outline_rebuild {source : String} {ls : List Lexeme} (h : lexemes source = .ok ls) :
    ∃ again, lexemes (rebuild ls) = .ok again ∧ again.map Lexeme.outline = ls.map Lexeme.outline := by
  have hfollows : Follows .start .start := ⟨rfl, rfl, Nat.le_refl 1, by simp [start]⟩
  obtain ⟨out, hreads, -, -, hlines⟩ := comesBack_run (fun p hp => hp) h hfollows
  rw [← Pen.toList_rebuild] at hreads
  obtain ⟨again, hagain, rfl⟩ := lexemes_of_reads hreads
  -- The outline says no more than the token and its own line.
  have houtline : Lexeme.outline =
      (fun t => ⟨t.1, "", ⟨⟨0, 0⟩, t.2.getD 0⟩⟩) ∘ ownLine ∘ Lexeme.tokenAndLine := by
    funext l
    cases hcontent : l.token.isContent <;> simp [Lexeme.outline, ownLine, Lexeme.tokenAndLine, hcontent]
  refine ⟨again, hagain, ?_⟩
  rw [houtline, ← List.map_map, ← List.map_map, hlines, List.map_map]
  rfl

/-- The functions of a program stand in its lexemes. -/
theorem Program.functionsAt {ls : List Lexeme} {p : Program} (h : Program.ofLexemes ls = .ok p)
    (hblocks : ¬ [.indent, .dedent] <:+: ls.map Lexeme.token) :
    FunctionsAt (namesFunction (ls.map Lexeme.token)) ls p.functions := by
  obtain ⟨fs, hfs, hfunctions⟩ := functions_placed h hblocks
  rw [isCallable_definedNames] at hfunctions
  rw [hfs]
  exact hfunctions

/-- Lexemes of the same outline are read as the same program, but for the spans. -/
theorem Program.ofLexemes_outline {ls again : List Lexeme} {p : Program}
    (houtline : again.map Lexeme.outline = ls.map Lexeme.outline) (h : Program.ofLexemes ls = .ok p)
    (hblocks : ¬ [.indent, .dedent] <:+: ls.map Lexeme.token) :
    ∃ q, Program.ofLexemes again = .ok q ∧ q.unspanned = p.unspanned := by
  have htokens : again.map Lexeme.token = ls.map Lexeme.token := by
    rw [← Lexeme.map_token_outline again, houtline, Lexeme.map_token_outline]
  obtain ⟨hfunctions, hdistinct⟩ := Program.ofLexemes_sound h hblocks
  have hnames : p.unplaced.functions.map Function.name = p.functions.map Function.name := by
    simp [Program.unplaced, Function.unplaced]
  rw [← htokens, ← hnames] at hfunctions
  obtain ⟨q, hq, htree⟩ := Program.ofLexemes_complete hfunctions (hnames ▸ hdistinct)
  have hplaced := Program.functionsAt hq (htokens ▸ hblocks)
  rw [htokens] at hplaced
  exact ⟨q, hq, congrArg Program.mk (hplaced.unspanned_unique (Program.functionsAt h hblocks) houtline htree)⟩

/-- Programs that a session does not tell apart. Under the same settings it starts on the same machine; and on any
machine a run, and a call of a function, ends in the same way, with the same slots and on the same machine. The machine
holds the input and the output. -/
structure Program.RunsLike (q p : Program) : Prop where
  start : ∀ settings host, ∃ machine,
    Session.start q settings host = ⟨q, settings, machine⟩ ∧ Session.start p settings host = ⟨p, settings, machine⟩
  run : ∀ settings machine fuel, ∃ outcome left,
    Session.run fuel ⟨q, settings, machine⟩ = (outcome, ⟨q, settings, left⟩) ∧
      Session.run fuel ⟨p, settings, machine⟩ = (outcome, ⟨p, settings, left⟩)
  call : ∀ settings machine fuel name slots, ∃ outcome taken left,
    Session.call fuel ⟨q, settings, machine⟩ name slots = (outcome, taken, ⟨q, settings, left⟩) ∧
      Session.call fuel ⟨p, settings, machine⟩ name slots = (outcome, taken, ⟨p, settings, left⟩)

theorem Program.runsLike_of_unspanned {q p : Program} (h : q.unspanned = p.unspanned) : q.RunsLike p where
  start settings host := by
    cases hseed : settings.seed with
    | none => exact ⟨⟨host, 0⟩, by simp [Session.start, Session.configure, hseed]⟩
    | some seed => exact ⟨⟨host.reseed seed, 0⟩, by simp [Session.start, Session.configure, hseed]⟩
  run settings machine fuel := by
    have hexecute : Session.execute q settings fuel = Session.execute p settings fuel := by
      rw [← Session.execute_unspanned q, h, Session.execute_unspanned]
    obtain ⟨⟨outcome, left⟩, hleft⟩ : ∃ ended, Session.execute p settings fuel machine = ended := ⟨_, rfl⟩
    exact ⟨Session.flushed outcome left.host, left, by rw [Session.run, hexecute, hleft], by rw [Session.run, hleft]⟩
  call settings machine fuel name slots := by
    have hnamed : Session.callNamed q settings.maxDepth fuel name = Session.callNamed p settings.maxDepth fuel name := by
      rw [← Session.callNamed_unspanned q, h, Session.callNamed_unspanned]
    obtain ⟨⟨outcome, taken, left⟩, hleft⟩ : ∃ ended,
        Session.callNamed p settings.maxDepth fuel name ⟨slots, machine⟩ = ended := ⟨_, rfl⟩
    exact ⟨outcome, taken, left, by rw [Session.call, hnamed, hleft], by rw [Session.call, hleft]⟩

/-- Rebuilding the text of a program changes nothing but spans. The rebuilt text has lexemes, they are read as a program
with the same functions, declarations and statements on the same lines, and the two programs run alike: they give the
same output and the same result, and a fault is on the same line. -/
theorem Program.ofLexemes_rebuild {source : String} {ls : List Lexeme} {p : Program} (h : lexemes source = .ok ls)
    (hp : Program.ofLexemes ls = .ok p) :
    ∃ again q, lexemes (rebuild ls) = .ok again ∧ Program.ofLexemes again = .ok q ∧ q.unspanned = p.unspanned ∧
      q.RunsLike p := by
  obtain ⟨again, hagain, houtline⟩ := outline_rebuild h
  obtain ⟨q, hq, hspans⟩ := Program.ofLexemes_outline houtline hp (sourced_lexemes h).blocks
  exact ⟨again, q, hagain, hq, hspans, Program.runsLike_of_unspanned hspans⟩

/-- A program with comments and lines without content, which ends in a literal over two lines and fails before it. -/
def scatteredSource : String :=
  "\n".intercalate [
    "\x7b over",
    "two lines \x7d define main()",
    "",
    "    variables n: integer   from 0 to 9",
    "  \x7b a margin of its own \x7d",
    "    n := \x7b at least",
    "      zero \x7d n - 1",
    "    Write \"a",
    "b\""]

/-- The rebuilt program, too, fails where a number below the range is stored, on the line on which the source has it. -/
theorem Program.ofLexemes_rebuild_scattered : ∃ ls p again q, lexemes scatteredSource = .ok ls ∧
    Program.ofLexemes ls = .ok p ∧ lexemes (rebuild ls) = .ok again ∧ Program.ofLexemes again = .ok q ∧
    q.unspanned = p.unspanned ∧ Example.faultOf q = some (.outOfRange, some 6) := by
  obtain ⟨ls, p, hls, hp, hfault⟩ : ∃ ls p, lexemes scatteredSource = .ok ls ∧ Program.ofLexemes ls = .ok p ∧
      Example.faultOf p = some (.outOfRange, some 6) := exists_program (by decide +kernel)
  obtain ⟨again, q, hagain, hq, hspans, hruns⟩ := Program.ofLexemes_rebuild hls hp
  have hsame : Example.faultOf q = Example.faultOf p := by
    obtain ⟨machine, hstart, hstart'⟩ := hruns.start ⟨none, none, 3⟩ (.start (.ofText "") (.ofSeed 0))
    obtain ⟨outcome, left, hrun, hrun'⟩ := hruns.run ⟨none, none, 3⟩ machine 20
    rw [Example.faultOf, Example.faultOf, hstart, hstart', hrun, hrun']
  exact ⟨ls, p, again, q, hls, hp, hagain, hq, hspans, hsame.trans hfault⟩

end Offside
