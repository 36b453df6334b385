import Offside.Proofs.RebuiltProgram
import Offside.Proofs.Statements
import Offside.Proofs.Tiling

/-!
# Stretches nest as the tree does

A statement and a function reach from their first lexeme to their last, and the last one may be the end of a block,
which the layout places further down. Since the lexemes of a source are in order, what is derived from a part of some
lexemes lies inside what is derived from all of them, and what is derived from later ones lies behind.
-/

namespace Offside

open Grammar

/-- A stretch lies inside another one. -/
structure Span.Within (inner outer : Span) : Prop where
  start : outer.start ≤ inner.start
  ordered : inner.start ≤ inner.stop
  stop : inner.stop ≤ outer.stop

/-- A stretch ends where another one starts, or before. -/
def Span.Precedes (a b : Span) : Prop :=
  a.stop ≤ b.start

/-- A place is in a source: its stretch is inside it, and its line is that of its start, by the line feeds in front of it
and by the table of the source. -/
structure Location.FoundIn (source : String) (place : Location) : Prop where
  within : place.span.Within ⟨0, byteSize source.toList⟩
  line : OnLine source.toList place.span.start place.line
  table : place.line = (LineTable.ofText source).lineOf place.span.start

/-- The statements directly inside a function. -/
def Function.inside (f : Function) : List Stmt :=
  match f.body with
  | .user body => body
  | .builtin _ => []

theorem Program.has_of_inside {p : Program} {f : Function} {s : Stmt} (hf : f ∈ p.functions) (hs : s ∈ f.inside) :
    p.Has s := by
  unfold Function.inside at hs
  cases hbody : f.body with
  | user body => exact .body hf hbody (by simpa only [hbody] using hs)
  | builtin => simp [hbody] at hs

/-! ### Lexemes in order -/

/-- Lexemes one behind the other. -/
structure InOrder (ls : List Lexeme) : Prop where
  each : ∀ l ∈ ls, l.span.start ≤ l.span.stop
  pairwise : ls.Pairwise fun a b => a.span.Precedes b.span

section

variable {ls ms : List Lexeme}

theorem InOrder.sublist (h : InOrder ls) (hms : ms.Sublist ls) : InOrder ms where
  each l hl := h.each l (hms.subset hl)
  pairwise := h.pairwise.sublist hms

theorem inOrder_lexemes {source : String} (h : lexemes source = .ok ls) : InOrder ls where
  each l hl := by
    obtain ⟨before, behind, -, hstart, hstop⟩ := (foundIn_lexemes h l hl).covers
    omega
  pairwise := (ordered_lexemes h).imp And.left

theorem InOrder.stop_le {first l : Lexeme} (h : InOrder (first :: ls)) (hl : l ∈ first :: ls) :
    l.span.stop ≤ (ls.getLastD first).span.stop := by
  induction ls generalizing first l with
  | nil =>
    obtain rfl := List.mem_singleton.mp hl
    exact Nat.le_refl _
  | cons second more ih =>
    have hmore := h.sublist (List.sublist_cons_self _ _)
    rw [List.getLastD_cons]
    rcases List.mem_cons.mp hl with rfl | hl
    · have hbehind : l.span.stop ≤ second.span.start := (List.pairwise_cons.mp h.pairwise).1 second List.mem_cons_self
      have hsecond := hmore.each second List.mem_cons_self
      have hlast := ih hmore List.mem_cons_self
      omega
    · exact ih hmore hl

theorem InOrder.start_le {first l : Lexeme} (h : InOrder (first :: ls)) (hl : l ∈ first :: ls) :
    first.span.start ≤ l.span.start := by
  rcases List.mem_cons.mp hl with rfl | hl
  · exact Nat.le_refl _
  · have hbehind : first.span.stop ≤ l.span.start := (List.pairwise_cons.mp h.pairwise).1 l hl
    have hfirst := h.each first List.mem_cons_self
    omega

/-- Lexemes in order reach from the start of the first one to the end of the last. -/
theorem InOrder.span_over {first : Lexeme} (h : InOrder (first :: ls)) :
    (Location.over (first :: ls)).span = ⟨first.span.start, (ls.getLastD first).span.stop⟩ := by
  have hstart := h.start_le List.getLastD_mem_cons
  have hstop := h.stop_le List.mem_cons_self
  simp only [Location.over, Span.merge, Span.mk.injEq]
  omega

theorem InOrder.within_over {l : Lexeme} (h : InOrder ls) (hl : l ∈ ls) : l.span.Within (Location.over ls).span := by
  cases ls with
  | nil => cases hl
  | cons first more =>
    rw [h.span_over]
    exact ⟨h.start_le hl, h.each l hl, h.stop_le hl⟩

theorem InOrder.exists_ends (h : InOrder ls) (hne : ls ≠ []) :
    ∃ a ∈ ls, ∃ b ∈ ls, (Location.over ls).span = ⟨a.span.start, b.span.stop⟩ := by
  cases ls with
  | nil => exact absurd rfl hne
  | cons first more => exact ⟨first, List.mem_cons_self, _, List.getLastD_mem_cons, h.span_over⟩

/-- What some lexemes cover is inside what more lexemes cover. -/
theorem InOrder.over_within_over (h : InOrder ls) (hms : ms.Sublist ls) (hne : ms ≠ []) :
    (Location.over ms).span.Within (Location.over ls).span := by
  have hpart := h.sublist hms
  obtain ⟨a, ha, b, hb, hends⟩ := hpart.exists_ends hne
  have hfirst := hpart.within_over ha
  have hordered := hfirst.ordered
  have hstop := hfirst.stop
  rw [hends] at hstop ⊢
  exact ⟨(h.within_over (hms.subset ha)).start, Nat.le_trans hordered hstop, (h.within_over (hms.subset hb)).stop⟩

/-- What some lexemes cover is in front of what those behind them cover. -/
theorem InOrder.over_precedes_over (h : InOrder (ls ++ ms)) (hls : ls ≠ []) (hms : ms ≠ []) :
    (Location.over ls).span.Precedes (Location.over ms).span := by
  obtain ⟨_, -, b, hb, hfront⟩ := (h.sublist (List.sublist_append_left ls ms)).exists_ends hls
  obtain ⟨a, ha, _, -, hback⟩ := (h.sublist (List.sublist_append_right ls ms)).exists_ends hms
  rw [hfront, hback]
  exact (List.pairwise_append.mp h.pairwise).2.2 b hb a ha

end

/-! ### Places over a part of the lexemes -/

/-- A place over some of these lexemes, the first of which has content. -/
def Location.OverSome (ls : List Lexeme) (place : Location) : Prop :=
  ∃ first more, (first :: more).Sublist ls ∧ first.token.isContent = true ∧ place = .over (first :: more)

section

variable {ls ms : List Lexeme} {place : Location}

theorem Location.OverSome.mono (h : place.OverSome ms) (hms : ms.Sublist ls) : place.OverSome ls := by
  obtain ⟨first, more, hpart, hcontent, hplace⟩ := h
  exact ⟨first, more, hpart.trans hms, hcontent, hplace⟩

theorem Location.overSome_over {t : Token} {ts : List Token} (htokens : ls.map Lexeme.token = t :: ts)
    (ht : t.isContent = true) : (Location.over ls).OverSome ls := by
  obtain ⟨first, more, rfl, rfl, -⟩ := List.map_eq_cons_iff.mp htokens
  exact ⟨first, more, List.Sublist.refl _, ht, rfl⟩

theorem Location.overSome_location {l : Lexeme} (hl : l ∈ ls) (hcontent : l.token.isContent = true) :
    l.location.OverSome ls := by
  refine ⟨l, [], List.singleton_sublist.mpr hl, hcontent, ?_⟩
  simp [Location.over, Span.merge, Lexeme.span, Lexeme.line]

theorem Location.OverSome.within (h : place.OverSome ls) (horder : InOrder ls) :
    place.span.Within (Location.over ls).span := by
  obtain ⟨first, more, hpart, -, rfl⟩ := h
  exact horder.over_within_over hpart (List.cons_ne_nil first more)

theorem Location.OverSome.precedes {place' : Location} (h : place.OverSome ls) (h' : place'.OverSome ms)
    (horder : InOrder (ls ++ ms)) : place.span.Precedes place'.span := by
  obtain ⟨first, more, hpart, -, rfl⟩ := h
  obtain ⟨first', more', hpart', -, rfl⟩ := h'
  exact (horder.sublist (hpart.append hpart')).over_precedes_over (List.cons_ne_nil first more)
    (List.cons_ne_nil first' more')

theorem Location.OverSome.foundIn {source : String} (h : place.OverSome ls) (hls : lexemes source = .ok ls) :
    place.FoundIn source := by
  have hwithin := h.within (inOrder_lexemes hls)
  obtain ⟨first, more, hpart, hcontent, rfl⟩ := h
  have hmem := hpart.subset
  have horder := (inOrder_lexemes hls).sublist hpart
  have hfirst := foundIn_lexemes hls first (hmem List.mem_cons_self)
  have hline : OnLine source.toList (Location.over (first :: more)).span.start (Location.over (first :: more)).line := by
    rw [horder.span_over]
    exact hfirst.line (hfirst.text hcontent)
  refine ⟨⟨Nat.zero_le _, hwithin.ordered, ?_⟩, hline, hline.eq_lineOf⟩
  obtain ⟨before, behind, hsource, -, hstop⟩ := (foundIn_lexemes hls _ (hmem List.getLastD_mem_cons)).covers
  rw [horder.span_over, hstop, hsource]
  simp only [byteSize_append]
  omega

end

/-! ### The nodes of the tree -/

namespace Grammar

variable {callable : String → Bool} {ls ms : List Lexeme} {s t : Stmt} {f g : Function} {body : List Stmt}

theorem StmtAt.place_eq (h : StmtAt callable ls s) : s.place = .over ls := by
  cases h <;> rfl

theorem StmtAt.overSome (h : StmtAt callable ls s) : s.place.OverSome ls := by
  obtain ⟨t, us, htokens, ht⟩ := isContent_of_isStmt h.isStmt
  rw [h.place_eq]
  exact Location.overSome_over htokens ht

theorem StmtsAt.overSome (h : StmtsAt callable ls body) (hs : s ∈ body) : s.place.OverSome ls := by
  obtain ⟨ms, hms, hstmt⟩ := h.stmtAt hs
  exact hstmt.overSome.mono hms

/-- Statements one behind the other have their places so. -/
theorem StmtsAt.pairwise (h : StmtsAt callable ls body) (horder : InOrder ls) :
    body.Pairwise fun s t => s.place.span.Precedes t.place.span := by
  induction body generalizing ls with
  | nil => exact .nil
  | cons first rest ih =>
    cases h with
    | cons hfirst hrest =>
      refine .cons (fun t ht => ?_) (ih hrest (horder.sublist (List.sublist_append_right _ _)))
      exact hfirst.overSome.precedes (hrest.overSome ht) horder

theorem isContent_of_isName {t : Token} (h : isName t = true) : t.isContent = true := by
  cases t <;> first | rfl | cases h

theorem overSome_of_namePlaces {d : Declaration} {ds : List Declaration} (h : ds.map Declaration.place = namePlaces ls)
    (hd : d ∈ ds) : d.place.OverSome ls := by
  have hplace : d.place ∈ namePlaces ls := h ▸ List.mem_map_of_mem hd
  obtain ⟨l, hl, heq⟩ := List.mem_map.mp hplace
  obtain ⟨hl, hname⟩ := List.mem_filter.mp hl
  rw [← heq]
  exact Location.overSome_location hl (isContent_of_isName hname)

theorem BodyAt.overSome {locals : List Declaration} {d : Declaration} (h : BodyAt callable ls locals body)
    (hd : d ∈ locals) : d.place.OverSome ls := by
  induction h with
  | declare _ hplaces _ ih =>
    rcases List.mem_append.mp hd with hd | hd
    · exact (overSome_of_namePlaces hplaces hd).mono (List.sublist_append_left _ _)
    · exact (ih hd).mono (List.sublist_append_right _ _)
  | run => cases hd

theorem BodyAt.stmtsAt {locals : List Declaration} (h : BodyAt callable ls locals body) :
    ∃ ms, ms.Sublist ls ∧ StmtsAt callable ms body := by
  induction h with
  | declare _ _ _ ih =>
    obtain ⟨ms, hms, hstmts⟩ := ih
    exact ⟨ms, hms.trans (List.sublist_append_right _ _), hstmts⟩
  | run h => exact ⟨_, List.Sublist.refl _, h⟩

theorem FunctionAt.place_eq (h : FunctionAt callable ls f) : f.place = .over ls := by
  cases h; rfl

theorem isContent_of_isFunction {ts : List Token} (h : IsFunction callable ts f) :
    ∃ t us, ts = t :: us ∧ t.isContent = true := by
  cases h
  exact ⟨_, _, rfl, rfl⟩

theorem FunctionAt.overSome (h : FunctionAt callable ls f) : f.place.OverSome ls := by
  obtain ⟨t, us, htokens, ht⟩ := isContent_of_isFunction h.isFunction
  rw [h.place_eq]
  exact Location.overSome_over htokens ht

theorem FunctionAt.declared (h : FunctionAt callable ls f) {d : Declaration} (hd : d ∈ f.parameters ++ f.locals) :
    d.place.OverSome ls := by
  cases h with
  | @mk name opening ls closing ms dedent parameters locals body hopening hparameters hplaces hclosing hbody =>
    have hls : ls <:+: opening ++ ls ++ closing ++ ms ++ [dedent] := ⟨opening, closing ++ ms ++ [dedent], by simp⟩
    have hms : ms <:+: opening ++ ls ++ closing ++ ms ++ [dedent] := ⟨opening ++ ls ++ closing, [dedent], rfl⟩
    rcases List.mem_append.mp hd with hd | hd
    · exact (overSome_of_namePlaces hplaces hd).mono hls.sublist
    · exact (hbody.overSome hd).mono hms.sublist

theorem FunctionAt.stmtsAt (h : FunctionAt callable ls f) : ∃ ms, ms.Sublist ls ∧ StmtsAt callable ms f.inside := by
  cases h with
  | @mk name opening ls closing ms dedent parameters locals body hopening hparameters hplaces hclosing hbody =>
    have hms : ms <:+: opening ++ ls ++ closing ++ ms ++ [dedent] := ⟨opening ++ ls ++ closing, [dedent], rfl⟩
    obtain ⟨ns, hns, hstmts⟩ := hbody.stmtsAt
    exact ⟨ns, hns.trans hms.sublist, hstmts⟩

theorem FunctionsAt.functionAt {fs : List Function} (h : FunctionsAt callable ls fs) (hf : f ∈ fs) :
    ∃ ms, ms.Sublist ls ∧ FunctionAt callable ms f := by
  induction h with
  | nil => cases hf
  | cons hfirst _ ih =>
    rcases List.mem_cons.mp hf with rfl | hf
    · exact ⟨_, List.sublist_append_left _ _, hfirst⟩
    · obtain ⟨ms, hms, hfunction⟩ := ih hf
      exact ⟨ms, hms.trans (List.sublist_append_right _ _), hfunction⟩

theorem FunctionsAt.pairwise {fs : List Function} (h : FunctionsAt callable ls fs) (horder : InOrder ls) :
    fs.Pairwise fun f g => f.place.span.Precedes g.place.span := by
  induction h with
  | nil => exact .nil
  | cons hfirst hrest ih =>
    refine .cons (fun g hg => ?_) (ih (horder.sublist (List.sublist_append_right _ _)))
    obtain ⟨ms, hms, hfunction⟩ := hrest.functionAt hg
    exact hfirst.overSome.precedes (hfunction.overSome.mono hms) horder

/-- Every statement of a program is derived from a part of its lexemes. -/
theorem FunctionsAt.stmtAt {p : Program} (h : FunctionsAt callable ls p.functions) (hs : p.Has s) :
    ∃ ms, ms.Sublist ls ∧ StmtAt callable ms s := by
  induction hs with
  | body hf hbody hs =>
    obtain ⟨ms, hms, hfunction⟩ := h.functionAt hf
    obtain ⟨ns, hns, hstmts⟩ := hfunction.stmtsAt
    obtain ⟨os, hos, hstmt⟩ := hstmts.stmtAt (by simpa only [Function.inside, hbody] using hs)
    exact ⟨os, hos.trans (hns.trans hms), hstmt⟩
  | inside _ ht ih =>
    obtain ⟨ms, hms, hstmt⟩ := ih
    obtain ⟨ns, hns, hstmt⟩ := hstmt.stmtAt ht
    exact ⟨ns, hns.trans hms, hstmt⟩

end Grammar

/-- The places of a program that is read from a source nest as its nodes do. All of them are in the source, and on the
line of their start. Functions, and the statements directly inside a function or a statement, stand one behind the other
in their order; they and the declarations stay inside what they belong to. -/
theorem Program.places_nest {source : String} {ls : List Lexeme} {p : Program} (hls : lexemes source = .ok ls)
    (hp : Program.ofLexemes ls = .ok p) :
    (p.functions.Pairwise fun f g => f.place.span.Precedes g.place.span) ∧
      (∀ f ∈ p.functions, f.place.FoundIn source ∧
        (∀ d ∈ f.parameters ++ f.locals, d.place.FoundIn source ∧ d.place.span.Within f.place.span) ∧
        (f.inside.Pairwise fun s t => s.place.span.Precedes t.place.span) ∧
        ∀ s ∈ f.inside, s.place.span.Within f.place.span) ∧
      ∀ s, p.Has s → s.place.FoundIn source ∧
        (s.inside.Pairwise fun t u => t.place.span.Precedes u.place.span) ∧
        ∀ t ∈ s.inside, t.place.span.Within s.place.span := by
  have hplaced := Program.functionsAt hp (sourced_lexemes hls).blocks
  have horder := inOrder_lexemes hls
  refine ⟨hplaced.pairwise horder, fun f hf => ?_, fun s hs => ?_⟩
  · obtain ⟨ms, hms, hfunction⟩ := hplaced.functionAt hf
    have hinside := horder.sublist hms
    rw [hfunction.place_eq]
    obtain ⟨ns, hns, hstmts⟩ := hfunction.stmtsAt
    refine ⟨hfunction.place_eq ▸ (hfunction.overSome.mono hms).foundIn hls, fun d hd => ?_,
      hstmts.pairwise (hinside.sublist hns), fun s hs => ((hstmts.overSome hs).mono hns).within hinside⟩
    have hdeclared := hfunction.declared hd
    exact ⟨(hdeclared.mono hms).foundIn hls, hdeclared.within hinside⟩
  · obtain ⟨ms, hms, hstmt⟩ := hplaced.stmtAt hs
    have hinside := horder.sublist hms
    obtain ⟨ns, hns, hstmts⟩ := hstmt.stmtsAt
    refine ⟨(hstmt.overSome.mono hms).foundIn hls, hstmts.pairwise (hinside.sublist hns), fun t ht => ?_⟩
    rw [hstmt.place_eq]
    exact ((hstmts.overSome ht).mono hns).within hinside

/-- Three blocks that end at once, behind a line with a comment alone, and two that end with the source. -/
def stairsSource : String :=
  Stmt.joinRows [
    "define main(n: integer)",
    "    while n < 3",
    "        if n = 1 then",
    "            idle",
    "\x7b é \x7d",
    "define idle()",
    "    repeat until 1 = 1",
    "        idle"]

theorem Program.places_nest_stairs : ∃ ls p s t, lexemes stairsSource = .ok ls ∧ Program.ofLexemes ls = .ok p ∧
    p.Has s ∧ t ∈ s.inside ∧ s.place = ⟨⟨28, 86⟩, 2⟩ ∧ t.place = ⟨⟨48, 86⟩, 3⟩ ∧
    t.place.span.Within s.place.span ∧ s.place.FoundIn stairsSource := by
  obtain ⟨ls, p, hls, hp, hplaces⟩ : ∃ ls p, lexemes stairsSource = .ok ls ∧ Program.ofLexemes ls = .ok p ∧
      p.functions.flatMap (fun f => f.inside.map fun s => (s.place, s.inside.map Stmt.place)) =
        [(⟨⟨28, 86⟩, 2⟩, [⟨⟨48, 86⟩, 3⟩]), (⟨⟨104, 136⟩, 7⟩, [⟨⟨131, 136⟩, 8⟩])] :=
    exists_program (by decide +kernel)
  obtain ⟨f, hf, hs⟩ := List.mem_flatMap.mp (hplaces ▸ List.mem_cons_self)
  obtain ⟨s, hs, hview⟩ := List.mem_map.mp hs
  obtain ⟨hplace, hinside⟩ := Prod.mk.inj hview
  obtain ⟨t, ht, hplace'⟩ := List.mem_map.mp (hinside ▸ List.mem_singleton_self _)
  obtain ⟨-, -, hnest⟩ := Program.places_nest hls hp
  obtain ⟨hfound, -, hwithin⟩ := hnest s (Program.has_of_inside hf hs)
  exact ⟨ls, p, s, t, hls, hp, Program.has_of_inside hf hs, ht, hplace, hplace', hwithin t ht, hfound⟩

end Offside
