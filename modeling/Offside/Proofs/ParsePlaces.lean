import Mathlib.Data.List.Infix
import Offside.Proofs.PlacedGrammar
import Offside.Proofs.SourceTokens

/-!
# Reading programs with their places

The reader of programs reads exactly what the grammar with places derives. That it reads what the grammar of tokens
derives is known; here the lexemes of each reading are followed, and with them the places.
-/

namespace Offside.Parse

open Grammar

variable {c : Cursor}

/-- What is read from its first lexeme on lies over all the lexemes that are taken. -/
theorem placeOf_eq_over {d : Cursor} {first : Lexeme} {ls rest : List Lexeme} (h : c.Passes d)
    (hfirst : c.ahead = first :: rest) (hls : c.ahead = ls ++ d.ahead) : placeOf first d = .over ls := by
  obtain ⟨front, last, hahead, hlast, -⟩ := h
  have hsplit : ls ++ d.ahead = (front ++ [last]) ++ d.ahead := by
    rw [← hls, hahead]
    simp
  obtain rfl := List.append_cancel_right hsplit
  rw [placeOf, hlast]
  cases front with
  | nil =>
    obtain ⟨rfl, -⟩ := List.cons.inj (hfirst.symm.trans hahead)
    rfl
  | cons l front =>
    obtain ⟨rfl, -⟩ := List.cons.inj (hfirst.symm.trans hahead)
    simp [Location.over]

/-! ### Statements -/

/-- What the readers of statements have to satisfy at a cursor. -/
structure StmtPlaced (defined : List String) (c : Cursor) : Prop where
  statement : ∀ r, statement defined c = .ok r →
    ∃ ls, c.ahead = ls ++ r.next.ahead ∧ StmtAt (isCallable defined) ls r.value
  chain : ∀ r, chain defined c = .ok r →
    ∃ ls, c.ahead = ls ++ r.next.ahead ∧ ChainAt (isCallable defined) ls r.value
  block : ∀ r, block defined c = .ok r →
    ∃ ls, c.ahead = ls ++ r.next.ahead ∧ BlockAt (isCallable defined) ls r.value
  statements : ∀ ending r, statements defined ending c = .ok r →
    ∃ ls dedent, c.ahead = ls ++ dedent :: r.next.ahead ∧ dedent.token = .dedent ∧
      StmtsAt (isCallable defined) ls r.value

section

variable {defined : List String}
  (ih : ∀ d : Cursor, d.ahead.length < c.ahead.length → StmtPlaced defined d)
include ih

theorem statement_placed_step {r : Reading Stmt c} (h : statement defined c = .ok r) :
    ∃ ls, c.ahead = ls ++ r.next.ahead ∧ StmtAt (isCallable defined) ls r.value := by
  obtain ⟨ts, hts, hstmt⟩ := (stmt_sound defined _ c (Nat.lt_succ_self _)).statement r h
  obtain ⟨ls, hls, rfl⟩ := r.passes.lexemes hts
  rw [statement] at h
  split at h
  · cases h
  · rename_i first hfirst
    have hc := Cursor.ahead_of_next? hfirst
    have hshorter := first.shorter
    split at h
    · rename_i htoken
      obtain ⟨links, hlinks, h⟩ := bind_eq_ok.mp h
      cases h
      obtain ⟨ms, hms, hchain⟩ := (ih _ hshorter).chain _ hlinks
      have hall : c.ahead = (first.value :: ms) ++ links.next.ahead := by rw [hc, hms]; rfl
      refine ⟨first.value :: ms, hall, ?_⟩
      change StmtAt _ _ (.branch (placeOf first.value links.next) links.value)
      rw [placeOf_eq_over (first.passes.trans links.passes) hc hall]
      exact .branch htoken hchain
    · rename_i htoken
      obtain ⟨head, hhead, h⟩ := bind_eq_ok.mp h
      obtain ⟨body, hbody, h⟩ := bind_eq_ok.mp h
      cases h
      obtain ⟨ts, us, htokens, hf, hl⟩ := countHead_sound hhead
      obtain ⟨ls, hls, hmap⟩ := head.passes.lexemes htokens
      obtain ⟨ms, hms, hblock⟩ := (ih _ (Nat.lt_trans head.shorter hshorter)).block _ hbody
      have hall : c.ahead = ((first.value :: ls) ++ ms) ++ body.next.ahead := by rw [hc, hls, hms]; simp
      refine ⟨(first.value :: ls) ++ ms, hall, ?_⟩
      change StmtAt _ _ (.count (placeOf first.value body.next) head.value.1 head.value.2.1 head.value.2.2 body.value)
      rw [placeOf_eq_over ((first.passes.trans head.passes).trans body.passes) hc hall]
      exact .count _ (by rw [List.map_cons, htoken, hmap]; rfl) hf hl hblock
    · rename_i htoken
      obtain ⟨condition, hcondition, h⟩ := bind_eq_ok.mp h
      obtain ⟨body, hbody, h⟩ := bind_eq_ok.mp h
      cases h
      obtain ⟨ts, htokens, hcomparison⟩ := comparison_sound hcondition
      obtain ⟨ls, hls, hmap⟩ := condition.passes.lexemes htokens
      obtain ⟨ms, hms, hblock⟩ := (ih _ (Nat.lt_trans condition.shorter hshorter)).block _ hbody
      have hall : c.ahead = ((first.value :: ls) ++ ms) ++ body.next.ahead := by rw [hc, hls, hms]; simp
      refine ⟨(first.value :: ls) ++ ms, hall, ?_⟩
      change StmtAt _ _ (.loopWhile (placeOf first.value body.next) condition.value body.value)
      rw [placeOf_eq_over ((first.passes.trans condition.passes).trans body.passes) hc hall]
      exact .loopWhile (by rw [List.map_cons, htoken, hmap]) hcomparison hblock
    · rename_i htoken
      obtain ⟨condition, hcondition, h⟩ := bind_eq_ok.mp h
      obtain ⟨body, hbody, h⟩ := bind_eq_ok.mp h
      cases h
      obtain ⟨ts, htokens, hcomparison⟩ := untilHead_sound hcondition
      obtain ⟨ls, hls, hmap⟩ := condition.passes.lexemes htokens
      obtain ⟨ms, hms, hblock⟩ := (ih _ (Nat.lt_trans condition.shorter hshorter)).block _ hbody
      have hall : c.ahead = ((first.value :: ls) ++ ms) ++ body.next.ahead := by rw [hc, hls, hms]; simp
      refine ⟨(first.value :: ls) ++ ms, hall, ?_⟩
      change StmtAt _ _ (.loopUntil (placeOf first.value body.next) condition.value body.value)
      rw [placeOf_eq_over ((first.passes.trans condition.passes).trans body.passes) hc hall]
      exact .loopUntil (by rw [List.map_cons, htoken, hmap]) hcomparison hblock
    · rename_i name htoken
      split at h
      · obtain ⟨args, hargs, h⟩ := bind_eq_ok.mp h
        cases h
        refine ⟨ls, hls, ?_⟩
        change StmtAt _ _ (.call (placeOf first.value args.next) name args.value)
        rw [placeOf_eq_over (first.passes.trans args.passes) hc hls]
        exact .call hstmt
      · obtain ⟨parts, hparts, h⟩ := bind_eq_ok.mp h
        cases h
        refine ⟨ls, hls, ?_⟩
        change StmtAt _ _ (.assign (placeOf first.value parts.next) parts.value.1 parts.value.2)
        rw [placeOf_eq_over (first.passes.trans parts.passes) hc hls]
        exact .assign hstmt
    · cases h

theorem chain_placed_step {r : Reading Chain c} (h : chain defined c = .ok r) :
    ∃ ls, c.ahead = ls ++ r.next.ahead ∧ ChainAt (isCallable defined) ls r.value := by
  rw [chain] at h
  obtain ⟨head, hhead, h⟩ := bind_eq_ok.mp h
  obtain ⟨body, hbody, h⟩ := bind_eq_ok.mp h
  obtain ⟨ts, htokens, hcomparison⟩ := branchHead_sound hhead
  obtain ⟨ls, hls, hmap⟩ : ∃ ls, c.ahead = ls ++ head.next.ahead ∧ ls.map Lexeme.token = ts ++ [.keyword .then_] :=
    head.passes.lexemes (by rw [htokens]; simp)
  obtain ⟨ms, hms, hblock⟩ := (ih _ head.shorter).block _ hbody
  have hshorter := Nat.lt_trans body.shorter head.shorter
  split at h
  · rename_i elsif helsif
    obtain ⟨next, hnext, h⟩ := bind_eq_ok.mp h
    cases h
    obtain ⟨helsif, hword⟩ := Cursor.ahead_of_eat? helsif
    obtain ⟨ns, hns, hchain⟩ := (ih _ (Nat.lt_trans elsif.shorter hshorter)).chain _ hnext
    refine ⟨ls ++ ms ++ elsif.value :: ns, ?_, .elsif hmap hcomparison hblock hword hchain⟩
    rw [hls, hms, helsif, hns]
    simp [Reading.andThen]
  · split at h
    · rename_i else_ helse
      obtain ⟨last, hlast, h⟩ := bind_eq_ok.mp h
      cases h
      obtain ⟨helse, hword⟩ := Cursor.ahead_of_eat? helse
      obtain ⟨ns, hns, hother⟩ := (ih _ (Nat.lt_trans else_.shorter hshorter)).block _ hlast
      refine ⟨ls ++ ms ++ else_.value :: ns, ?_, .otherwise hmap hcomparison hblock hword hother⟩
      rw [hls, hms, helse, hns]
      simp [Reading.andThen]
    · cases h
      refine ⟨ls ++ ms, ?_, .last hmap hcomparison hblock⟩
      rw [hls, hms]
      simp [Reading.andThen]

theorem block_placed_step {r : Reading (List Stmt) c} (h : block defined c = .ok r) :
    ∃ ls, c.ahead = ls ++ r.next.ahead ∧ BlockAt (isCallable defined) ls r.value := by
  rw [block] at h
  obtain ⟨opening, hopening, h⟩ := bind_eq_ok.mp h
  obtain ⟨body, hbody, h⟩ := bind_eq_ok.mp h
  cases h
  have hshorter := opening.shorter
  obtain ⟨lineEnd, hlineEnd, hopening⟩ := bind_eq_ok.mp hopening
  obtain ⟨indent, hindent, hopening⟩ := bind_eq_ok.mp hopening
  cases hopening
  obtain ⟨ls, dedent, hls, hdedent, hstmts⟩ := (ih _ hshorter).statements _ _ hbody
  obtain ⟨hfirst, hnewline⟩ := Cursor.ahead_of_eat? (Cursor.eat?_of_expect hlineEnd)
  obtain ⟨hsecond, hindent⟩ := Cursor.ahead_of_eat? (Cursor.eat?_of_expect hindent)
  refine ⟨_, ?_, .mk hnewline hindent hdedent hstmts⟩
  have hls : indent.next.ahead = ls ++ dedent :: body.next.ahead := hls
  rw [hfirst, hsecond, hls]
  simp [Reading.andThen]

theorem statements_placed_step (hstatement : ∀ r, statement defined c = .ok r →
      ∃ ls, c.ahead = ls ++ r.next.ahead ∧ StmtAt (isCallable defined) ls r.value)
    {ending : Expected} {r : Reading (List Stmt) c} (h : statements defined ending c = .ok r) :
    ∃ ls dedent, c.ahead = ls ++ dedent :: r.next.ahead ∧ dedent.token = .dedent ∧
      StmtsAt (isCallable defined) ls r.value := by
  rw [statements] at h
  split at h
  · rename_i dedent hdedent
    cases h
    obtain ⟨hahead, htoken⟩ := Cursor.ahead_of_eat? hdedent
    exact ⟨[], dedent.value, hahead, htoken, .nil⟩
  · split at h
    · cases h
    · obtain ⟨first, hfirst, h⟩ := bind_eq_ok.mp h
      obtain ⟨rest, hrest, h⟩ := bind_eq_ok.mp h
      cases h
      obtain ⟨ls, hls, hstmt⟩ := hstatement _ hfirst
      obtain ⟨ms, dedent, hms, hdedent, hstmts⟩ := (ih _ first.shorter).statements _ _ hrest
      refine ⟨ls ++ ms, dedent, ?_, hdedent, .cons hstmt hstmts⟩
      rw [hls, hms]
      simp [Reading.andThen]

end

/-- By induction on the number of lexemes ahead, as for the tokens. -/
theorem stmt_placed (defined : List String) (n : Nat) : ∀ c : Cursor, c.ahead.length < n → StmtPlaced defined c := by
  induction n with
  | zero => exact fun c hc => absurd hc (Nat.not_lt_zero _)
  | succ n ih =>
    intro c hc
    have hshorter : ∀ d : Cursor, d.ahead.length < c.ahead.length → StmtPlaced defined d :=
      fun d hd => ih d (by omega)
    refine ⟨fun r => statement_placed_step hshorter, fun r => chain_placed_step hshorter,
      fun r => block_placed_step hshorter, fun ending r => ?_⟩
    exact statements_placed_step hshorter fun r => statement_placed_step hshorter

theorem statements_placed {defined : List String} {ending : Expected} {r : Reading (List Stmt) c}
    (h : statements defined ending c = .ok r) :
    ∃ ls dedent, c.ahead = ls ++ dedent :: r.next.ahead ∧ dedent.token = .dedent ∧
      StmtsAt (isCallable defined) ls r.value :=
  (stmt_placed defined _ c (Nat.lt_succ_self _)).statements ending r h

/-! ### Declarations -/

/-- The names between two cursors stand at these places. -/
def Located (c d : Cursor) (places : List Location) : Prop :=
  ∃ ls, c.ahead = ls ++ d.ahead ∧ places = namePlaces ls

theorem Located.trans {d e : Cursor} {places more : List Location} (h : Located c d places)
    (h' : Located d e more) : Located c e (places ++ more) := by
  obtain ⟨ls, hls, rfl⟩ := h
  obtain ⟨ms, hms, rfl⟩ := h'
  exact ⟨ls ++ ms, by rw [hls, hms, List.append_assoc], by simp [namePlaces]⟩

/-- Behind names that are located, more without a name may be taken. -/
theorem Located.skip {d e : Cursor} {places : List Location} (h : Located c d places) (h' : Located d e []) :
    Located c e places := by
  simpa using h.trans h'

theorem located_nil {d : Cursor} (ts : List Token) (h : c.Passes d) (hc : c.tokens = ts ++ d.tokens)
    (hts : ∀ t ∈ ts, isName t = false) : Located c d [] := by
  obtain ⟨ls, hls, rfl⟩ := h.lexemes hc
  refine ⟨ls, hls, ?_⟩
  rw [List.forall_mem_map] at hts
  rw [namePlaces, List.filter_eq_nil_iff.mpr (by simpa using hts)]
  rfl

theorem located_eat {t : Token} {r : Reading Lexeme c} (h : c.eat? t = some r) (ht : isName t = false) :
    Located c r.next [] :=
  located_nil [t] r.passes (Cursor.tokens_of_eat? h) (by simpa using ht)

theorem located_expect {t : Token} {what : Expected} {r : Reading Lexeme c} (h : c.expect t what = .ok r)
    (ht : isName t = false) : Located c r.next [] :=
  located_eat (Cursor.eat?_of_expect h) ht

theorem located_name {what : Expected} {r : Reading (String × Lexeme) c} (h : c.expectName what = .ok r) :
    Located c r.next [r.value.2.location] := by
  obtain ⟨hahead, htoken⟩ := Cursor.ahead_of_expectName h
  exact ⟨[r.value.2], hahead, by simp [namePlaces, htoken, isName]⟩

theorem isName_type {ts : List Token} {type : DataType} (h : IsType ts type) : ∀ t ∈ ts, isName t = false := by
  cases h with
  | scalar h => cases h <;> simp [isName]
  | array h => cases h <;> simp [isName]

theorem isName_literal {ts : List Token} {l : Literal} (h : IsLiteral ts l) : ∀ t ∈ ts, isName t = false := by
  cases h with
  | plain h => cases h <;> simp [isName]
  | least => simp [isName]
  | negated h => cases h <;> simp [isName]

theorem isName_range {ts : List Token} {range : Option Range} (h : IsRange ts range) :
    ∀ t ∈ ts, isName t = false := by
  cases h with
  | none => nofun
  | limits hlow hhigh => grind [isName, isName_literal hlow, isName_literal hhigh]

theorem located_type {r : Reading DataType c} (h : dataType c = .ok r) : Located c r.next [] := by
  obtain ⟨ts, hts, htype⟩ := dataType_sound h
  exact located_nil _ r.passes hts (isName_type htype)

theorem located_literal {r : Reading Literal c} (h : literal c = .ok r) : Located c r.next [] := by
  obtain ⟨ts, hts, hliteral⟩ := literal_sound h
  exact located_nil _ r.passes hts (isName_literal hliteral)

theorem located_range {r : Reading (Option Range) c} (h : rangeAndLineEnd c = .ok r) : Located c r.next [] := by
  obtain ⟨ts, hts, hrange⟩ := rangeAndLineEnd_sound h
  have hts : c.tokens = (ts ++ [.newline]) ++ r.next.tokens := by rw [hts]; simp
  exact located_nil _ r.passes hts (by grind [isName, isName_range hrange])

theorem located_names {what : Expected} {c : Cursor} {r : Reading (List (String × Lexeme)) c}
    (h : names what c = .ok r) : Located c r.next (r.value.map fun n => n.2.location) := by
  rw [names] at h
  obtain ⟨first, hfirst, h⟩ := bind_eq_ok.mp h
  split at h
  · cases h
    exact located_name hfirst
  · rename_i comma hcomma
    obtain ⟨rest, hrest, h⟩ := bind_eq_ok.mp h
    cases h
    have hshorter := Nat.lt_trans comma.shorter first.shorter
    exact ((located_name hfirst).skip (located_eat hcomma rfl)).trans (located_names hrest)
termination_by c.ahead.length

theorem located_typedParameters {mutable : Bool} {r : Reading (List Declaration) c}
    (h : typedParameters mutable c = .ok r) : Located c r.next (r.value.map Declaration.place) := by
  obtain ⟨group, hgroup, h⟩ := bind_eq_ok.mp h
  obtain ⟨colon, hcolon, h⟩ := bind_eq_ok.mp h
  obtain ⟨type, htype, h⟩ := bind_eq_ok.mp h
  cases h
  have hlocated := ((located_names hgroup).skip (located_expect hcolon rfl)).skip (located_type htype)
  simpa [Reading.andThen, Function.comp_def, Declaration.parameter] using hlocated

theorem located_parameterGroup {r : Reading (List Declaration) c} (h : parameterGroup c = .ok r) :
    Located c r.next (r.value.map Declaration.place) := by
  unfold parameterGroup at h
  split at h
  · rename_i var hvar
    obtain ⟨group, hgroup, h⟩ := bind_eq_ok.mp h
    cases h
    exact (located_eat hvar rfl).trans (located_typedParameters hgroup)
  · exact located_typedParameters h

theorem located_parameters {c : Cursor} {r : Reading (List Declaration) c} (h : parameters c = .ok r) :
    Located c r.next (r.value.map Declaration.place) := by
  rw [parameters] at h
  obtain ⟨group, hgroup, h⟩ := bind_eq_ok.mp h
  split at h
  · cases h
    exact located_parameterGroup hgroup
  · rename_i separator hseparator
    obtain ⟨rest, hrest, h⟩ := bind_eq_ok.mp h
    cases h
    have hshorter := Nat.lt_trans separator.shorter group.shorter
    obtain ⟨t, ht, htokens⟩ := tokens_of_groupSeparator? hseparator
    have hskip : Located group.next separator.next [] :=
      located_nil [t] separator.passes htokens (by rcases ht with rfl | rfl <;> simp [isName])
    have hlocated := ((located_parameterGroup hgroup).skip hskip).trans (located_parameters hrest)
    rw [← List.map_append] at hlocated
    exact hlocated
termination_by c.ahead.length

theorem located_parameterList {r : Reading (List Declaration) c} (h : parameterList c = .ok r) :
    Located c r.next (r.value.map Declaration.place) := by
  obtain ⟨opening, hopening, h⟩ := bind_eq_ok.mp h
  split at h
  · rename_i close hclose
    cases h
    exact (located_expect hopening rfl).trans (located_eat hclose rfl)
  · obtain ⟨all, hall, h⟩ := bind_eq_ok.mp h
    obtain ⟨close, hclose, h⟩ := bind_eq_ok.mp h
    cases h
    exact ((located_expect hopening rfl).trans (located_parameters hall)).skip (located_expect hclose rfl)

theorem located_constants {c : Cursor} {r : Reading (List Declaration) c} (h : constants c = .ok r) :
    Located c r.next (r.value.map Declaration.place) := by
  rw [constants] at h
  obtain ⟨name, hname, h⟩ := bind_eq_ok.mp h
  obtain ⟨equal, hequal, h⟩ := bind_eq_ok.mp h
  obtain ⟨value, hvalue, h⟩ := bind_eq_ok.mp h
  have hfirst := ((located_name hname).skip (located_expect hequal rfl)).skip (located_literal hvalue)
  dsimp only at h
  split at h
  · cases h
    exact hfirst
  · rename_i comma hcomma
    obtain ⟨rest, hrest, h⟩ := bind_eq_ok.mp h
    cases h
    have hshorter := Nat.lt_trans comma.shorter
      (Nat.lt_trans value.shorter (Nat.lt_trans equal.shorter name.shorter))
    exact (hfirst.skip (located_eat hcomma rfl)).trans (located_constants hrest)
termination_by c.ahead.length

theorem located_constantLine {r : Reading (List Declaration) c} (h : constantLine c = .ok r) :
    Located c r.next (r.value.map Declaration.place) := by
  unfold constantLine at h
  split at h
  · rename_i const hconst
    obtain ⟨all, hall, h⟩ := bind_eq_ok.mp h
    obtain ⟨lineEnd, hlineEnd, h⟩ := bind_eq_ok.mp h
    cases h
    exact ((located_eat hconst rfl).trans (located_constants hall)).skip (located_expect hlineEnd rfl)
  · obtain ⟨all, hall, h⟩ := bind_eq_ok.mp h
    obtain ⟨lineEnd, hlineEnd, h⟩ := bind_eq_ok.mp h
    cases h
    exact (located_constants hall).skip (located_expect hlineEnd rfl)

theorem located_variableLine {r : Reading (List Declaration) c} (h : variableLine c = .ok r) :
    Located c r.next (r.value.map Declaration.place) := by
  obtain ⟨first, hfirst, h⟩ := bind_eq_ok.mp h
  split at h
  · rename_i equal hequal
    obtain ⟨value, hvalue, h⟩ := bind_eq_ok.mp h
    obtain ⟨lineEnd, hlineEnd, h⟩ := bind_eq_ok.mp h
    cases h
    exact (((located_name hfirst).skip (located_eat hequal rfl)).skip (located_literal hvalue)).skip
      (located_expect hlineEnd rfl)
  · obtain ⟨all, hall, h⟩ := bind_eq_ok.mp h
    obtain ⟨colon, hcolon, h⟩ := bind_eq_ok.mp h
    obtain ⟨type, htype, h⟩ := bind_eq_ok.mp h
    obtain ⟨range, hrange, h⟩ := bind_eq_ok.mp h
    obtain ⟨ds, hds, h⟩ := bind_eq_ok.mp h
    cases h
    obtain ⟨-, rfl⟩ := typedVariables_eq_ok.mp hds
    have hlocated := (((located_names hall).skip (located_expect hcolon rfl)).skip (located_type htype)).skip
      (located_range hrange)
    simpa [Reading.andThen, Function.comp_def] using hlocated

theorem located_line {kind : Section} {r : Reading (List Declaration) c} (h : kind.line c = .ok r) :
    Located c r.next (r.value.map Declaration.place) := by
  cases kind with
  | constants => exact located_constantLine h
  | variables_ => exact located_variableLine h

theorem located_lines {kind : Section} {c : Cursor} {r : Reading (List Declaration) c} (h : kind.lines c = .ok r) :
    Located c r.next (r.value.map Declaration.place) := by
  rw [Section.lines] at h
  split at h
  · rename_i dedent hdedent
    cases h
    exact located_eat hdedent rfl
  · split at h
    · cases h
    · obtain ⟨first, hfirst, h⟩ := bind_eq_ok.mp h
      obtain ⟨rest, hrest, h⟩ := bind_eq_ok.mp h
      cases h
      have hshorter := first.shorter
      have hlocated := (located_line hfirst).trans (located_lines hrest)
      rw [← List.map_append] at hlocated
      exact hlocated
termination_by c.ahead.length

theorem located_section {kind : Section} {r : Reading (List Declaration) c} (h : kind.read c = .ok r) :
    Located c r.next (r.value.map Declaration.place) := by
  unfold Section.read at h
  split at h
  · exact located_line h
  · rename_i lineEnd hlineEnd
    obtain ⟨indent, hindent, h⟩ := bind_eq_ok.mp h
    obtain ⟨all, hall, h⟩ := bind_eq_ok.mp h
    cases h
    exact ((located_eat hlineEnd rfl).trans (located_expect hindent rfl)).trans (located_lines hall)

/-! ### Functions -/

theorem functionBody_placed {defined taken : List String} {c : Cursor} {r : Reading (List Declaration × List Stmt) c}
    (h : functionBody defined taken c = .ok r) (hblocks : ¬ [.indent, .dedent] <:+: c.tokens) :
    ∃ ls dedent, c.ahead = ls ++ dedent :: r.next.ahead ∧ dedent.token = .dedent ∧
      BodyAt (isCallable defined) ls r.value.1 r.value.2 := by
  replace h := readsBody h
  induction h with
  | declare hopening hdeclared hused hrest ih =>
    rename_i taken used c opening declared rest
    have hc := tokens_of_section? hopening
    have hsuffix : opening.next.tokens <:+ c.tokens := ⟨[word opening.value], hc.symm⟩
    obtain ⟨ts, hts, hsection⟩ := read_sound hdeclared fun hempty => hblocks (hempty.trans hsuffix.isInfix)
    have htokens : c.tokens = (word opening.value :: ts) ++ declared.next.tokens := by rw [hc, hts]; rfl
    have hword : Located c opening.next [] :=
      located_nil [word opening.value] opening.passes hc (by cases opening.value <;> simp [word, isName])
    obtain ⟨ls, hls, hplaces⟩ := hword.trans (located_section hdeclared)
    obtain ⟨ls', hls', hmap⟩ := (opening.passes.trans declared.passes).lexemes htokens
    obtain rfl := List.append_cancel_right (hls.symm.trans hls')
    have hsuffix : declared.next.tokens <:+ c.tokens := ⟨_, htokens.symm⟩
    obtain ⟨ms, dedent, hms, hdedent, hbody⟩ := ih fun hempty => hblocks (hempty.trans hsuffix.isInfix)
    refine ⟨ls ++ ms, dedent, by rw [hls, hms]; simp [Reading.andThen], hdedent, ?_⟩
    exact .declare (hmap ▸ hsection) hplaces hbody
  | run hbody =>
    obtain ⟨ls, dedent, hls, hdedent, hstmts⟩ := statements_placed hbody
    exact ⟨ls, dedent, hls, hdedent, .run hstmts⟩

theorem function_placed {defined : List String} {r : Reading Function c} (h : function defined c = .ok r)
    (hblocks : ¬ [.indent, .dedent] <:+: c.tokens) :
    ∃ ls, c.ahead = ls ++ r.next.ahead ∧ FunctionAt (isCallable defined) ls r.value := by
  obtain ⟨all, -, hfunction⟩ := function_sound h hblocks
  obtain ⟨hdefine, hname, hdeclared, hlineEnd, hindent, -, hbody⟩ := readsFunction h
  rename_i define name declared lineEnd indent taken body
  have hdistinct : ((declared.value ++ body.value.1).map Declaration.name).Nodup := by
    rw [← names_unplaced, List.map_append]
    cases hfunction with
    | mk _ _ _ distinct => exact distinct
  obtain ⟨ts, hts, hparameters⟩ := parameterList_sound hdeclared
  obtain ⟨ls, hls, hplaces⟩ := located_parameterList hdeclared
  obtain ⟨ls', hls', hmap⟩ := declared.passes.lexemes hts
  obtain rfl := List.append_cancel_right (hls.symm.trans hls')
  obtain ⟨hc, hdefineToken⟩ := Cursor.ahead_of_eat? (Cursor.eat?_of_expect hdefine)
  obtain ⟨hdefined, hnameToken⟩ := Cursor.ahead_of_expectName hname
  obtain ⟨hclosed, hlineEndToken⟩ := Cursor.ahead_of_eat? (Cursor.eat?_of_expect hlineEnd)
  obtain ⟨hopened, hindentToken⟩ := Cursor.ahead_of_eat? (Cursor.eat?_of_expect hindent)
  have hhead : c.ahead = [define.value, name.value.2] ++ ls ++ [lineEnd.value, indent.value] ++ indent.next.ahead := by
    rw [hc, hdefined, hls, hclosed, hopened]
    simp
  have hsuffix : indent.next.tokens <:+ c.tokens := by
    rw [Cursor.tokens, Cursor.tokens, hhead, List.map_append]
    exact List.suffix_append _ _
  obtain ⟨ms, dedent, hms, hdedent, hbodyAt⟩ :=
    functionBody_placed hbody fun hempty => hblocks (hempty.trans hsuffix.isInfix)
  have hall : c.ahead = ([define.value, name.value.2] ++ ls ++ [lineEnd.value, indent.value] ++ ms ++ [dedent]) ++
      body.next.ahead := by
    rw [hhead, hms]
    simp
  have hpasses := ((((define.passes.trans name.passes).trans declared.passes).trans lineEnd.passes).trans
    indent.passes).trans body.passes
  refine ⟨_, hall, ?_⟩
  simp only [Reading.andThen]
  rw [placeOf_eq_over hpasses hc hall]
  exact .mk name.value.1 (by simp [hdefineToken, hnameToken]) (hmap ▸ hparameters) hplaces
    (by simp [hlineEndToken, hindentToken]) hbodyAt hdedent hdistinct

theorem functions_placed {defined : List String} {program p : Program} {c : Cursor}
    (h : functions defined program c = .ok p) (hblocks : ¬ [.indent, .dedent] <:+: c.tokens) :
    ∃ fs, p.functions = program.functions ++ fs ∧ FunctionsAt (isCallable defined) c.ahead fs := by
  replace h := readsFunctions h
  induction h with
  | done hempty =>
    refine ⟨[], by simp, ?_⟩
    rw [hempty]
    exact .nil
  | next hf hbuiltin hnew hrest ih =>
    rename_i program p c f
    obtain ⟨ls, hls, hfunction⟩ := function_placed hf hblocks
    have hsuffix : f.next.tokens <:+ c.tokens := by
      rw [Cursor.tokens, Cursor.tokens, hls, List.map_append]
      exact List.suffix_append _ _
    obtain ⟨fs, hfs, hfunctions⟩ := ih fun hempty => hblocks (hempty.trans hsuffix.isInfix)
    refine ⟨f.value :: fs, by rw [hfs]; simp, ?_⟩
    rw [hls]
    exact .cons hfunction hfunctions

/-! ### Which names are callable -/

/-- Whether a name is that of a built-in function or directly follows the word `define`. -/
def namesFunction (ts : List Token) (name : String) : Bool :=
  (Builtin.ofName? name).isSome || decide ([.keyword .define, .name name] <:+: ts)

theorem mem_definedNames {ls : List Lexeme} {name : String} :
    name ∈ definedNames ls ↔ [.keyword .define, .name name] <:+: ls.map Lexeme.token := by
  fun_induction definedNames ls with
  | case1 a b ls defined hb ha ih =>
    rw [List.map_cons, List.infix_cons_iff, ← ih, List.mem_cons, ha, List.map_cons, hb]
    simp [List.cons_prefix_cons]
  | case2 a b ls hnone ih =>
    rw [List.map_cons, List.infix_cons_iff, ← ih]
    refine ⟨.inr, fun h => h.resolve_left fun hfront => ?_⟩
    obtain ⟨ha, hb⟩ := List.cons_prefix_cons.mp hfront
    obtain ⟨hb, -⟩ := List.cons_prefix_cons.mp hb
    exact hnone name ha.symm hb.symm
  | case3 ls hshort =>
    refine ⟨nofun, fun h => ?_⟩
    have hlength := h.length_le
    match ls, hshort with
    | [], _ => simp at hlength
    | [l], _ => simp at hlength
    | a :: b :: ls, hshort => exact (hshort a b ls rfl).elim

/-- The names that are callable are known from the tokens. -/
theorem isCallable_definedNames (ls : List Lexeme) :
    isCallable (definedNames ls) = namesFunction (ls.map Lexeme.token) := by
  funext name
  rw [isCallable, namesFunction, Bool.eq_iff_iff]
  simp [mem_definedNames]

end Offside.Parse

namespace Offside

open Parse Grammar

/-- Programs are read from the lexemes of a source as the grammar derives them, and in no other way: the functions are
derived from the lexemes with the places that they have there, and their names are different and not built in. -/
theorem Program.ofLexemes_grammar {source : String} {ls : List Lexeme} (h : lexemes source = .ok ls) (p : Program) :
    Program.ofLexemes ls = .ok p ↔
      FunctionsAt (namesFunction (ls.map Lexeme.token)) ls p.functions ∧
        DistinctNames (p.functions.map Function.name) := by
  have hblocks := (sourced_lexemes h).blocks
  have hplaced : ∀ q, Program.ofLexemes ls = .ok q →
      FunctionsAt (namesFunction (ls.map Lexeme.token)) ls q.functions := by
    intro q hq
    obtain ⟨fs, hfs, hfunctions⟩ := functions_placed hq hblocks
    rw [isCallable_definedNames] at hfunctions
    rw [hfs]
    exact hfunctions
  constructor
  · intro hp
    exact ⟨hplaced p hp, (Program.ofLexemes_sound hp hblocks).2⟩
  · rintro ⟨hfunctions, hdistinct⟩
    have hderived := hfunctions.isFunctions
    rw [← isCallable_definedNames] at hderived
    have hnames : (p.functions.map Function.unplaced).map Function.name = p.functions.map Function.name := by
      simp [Function.unplaced]
    obtain ⟨q, hq, htree⟩ : ∃ q, Program.ofLexemes ls = .ok q ∧
        q.functions.map Function.unplaced = p.functions.map Function.unplaced :=
      functions_complete hderived rfl (hnames ▸ hdistinct)
    have heq : q.functions = p.functions := (hplaced q hq).unique hfunctions htree
    rw [hq, show q = p from congrArg Program.mk heq]

/-- A call in front of the definition of its function, and one that starts with a parenthesis. -/
def downSource : String :=
  Stmt.joinRows [
    "define main()",
    "    variables n: integer from 0 to 9",
    "    if n > 0 then",
    "        down var n",
    "    else",
    "        Write (n + 1) * 2",
    "define down(var n: integer)",
    "    n := n - 1"]

theorem Program.ofLexemes_grammar_down : ∃ ls p, lexemes downSource = .ok ls ∧
    Program.ofLexemes ls = .ok p ∧ p.functions.map Function.place = [⟨⟨0, 123⟩, 1⟩, ⟨⟨123, 166⟩, 7⟩] ∧
    FunctionsAt (namesFunction (ls.map Lexeme.token)) ls p.functions ∧
    DistinctNames (p.functions.map Function.name) := by
  obtain ⟨ls, p, hls, hp, hplaces⟩ : ∃ ls p, lexemes downSource = .ok ls ∧ Program.ofLexemes ls = .ok p ∧
      p.functions.map Function.place = [⟨⟨0, 123⟩, 1⟩, ⟨⟨123, 166⟩, 7⟩] :=
    exists_program (by decide +kernel)
  exact ⟨ls, p, hls, hp, hplaces, (Program.ofLexemes_grammar hls p).mp hp⟩

end Offside
