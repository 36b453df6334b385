import Offside.Proofs.InlineText
import Offside.Proofs.Rebuild
import Offside.Proofs.TokenText

/-!
# Rebuilding from lexemes without texts

A source is rebuilt also where the texts of lexemes are missing, since their tokens can be spelled. The spelling may
take up other lines than the text did: a line feed in a string is put down as it is, whether it was an escape or not.
This moves what follows to other lines, and no token: margins and line ends come from the tokens alone. `Arranged` says
which tokens can follow one another in a source. Tokens that are arranged come back from any texts that spell them.
-/

namespace Offside

open Layout

/-- Tokens from a place in a source to its end: the place is on a line with content, or at the start of one, so many
levels deep. -/
inductive Arranged : Bool → Nat → List Token → Prop where
  | done (depth : Nat) : Arranged false depth (shiftTokens depth 0)
  | lineEnd {depth : Nat} {ts : List Token} (h : Arranged false depth ts) : Arranged true depth (.newline :: ts)
  | next {depth : Nat} {t : Token} {ts : List Token} (ht : t.isContent = true) (h : Arranged true depth ts) :
      Arranged true depth (t :: ts)
  | first (depth : Nat) {level : Nat} {t : Token} {ts : List Token} (ht : t.isContent = true)
      (h : Arranged true level ts) : Arranged false depth (shiftTokens depth level ++ t :: ts)

/-- Behind content no level is opened or closed. -/
theorem Arranged.head {depth : Nat} {ts : List Token} (h : Arranged true depth ts) :
    ∃ t us, ts = t :: us ∧ t ≠ .indent ∧ t ≠ .dedent := by
  cases h with
  | lineEnd => exact ⟨_, _, rfl, nofun, nofun⟩
  | next ht =>
    obtain ⟨-, hindent, hdedent⟩ := Token.isContent_iff.mp ht
    exact ⟨_, _, rfl, hindent, hdedent⟩

/-! ### The lexemes of a source -/

theorem arranged_finish (st : Layout) : Arranged st.lineOpen st.depth (st.finish.map Lexeme.token) := by
  cases hopen : st.lineOpen with
  | false => simpa [finish, hopen, Lexeme.synthetic, shiftTokens] using Arranged.done st.depth
  | true => simpa [finish, hopen, Lexeme.synthetic, shiftTokens] using (Arranged.done st.depth).lineEnd

theorem isContent_finish {st : Layout} {l : Lexeme} (hl : l ∈ st.finish) : l.token.isContent = false := by
  rcases List.mem_append.mp hl with hl | hl
  · split at hl
    · rw [List.mem_singleton.mp hl]
      rfl
    · cases hl
  · rw [List.eq_of_mem_replicate hl]
    rfl

theorem isContent_change {place : Position} {depth level : Nat} {l : Lexeme} (hl : l ∈ change place depth level) :
    l.token.isContent = false := by
  rcases List.mem_append.mp hl with hl | hl <;> rw [List.eq_of_mem_replicate hl] <;> rfl

/-- The layout pass arranges the tokens, and gives those with content the texts that they were read from. -/
theorem arranged_run {cs : List Char} {ps : List Piece} (hps : ∀ p ∈ ps, p ∈ pieces cs) {st : Layout}
    {ls : List Lexeme} (hrun : st.run ps = .ok ls) : Arranged st.lineOpen st.depth (ls.map Lexeme.token) ∧
      ∀ l ∈ ls, l.token.isContent = true → Spells l.token l.text.toList := by
  induction ps generalizing st ls with
  | nil =>
    cases hrun
    exact ⟨arranged_finish st, fun l hl hcontent => absurd (isContent_finish hl) (by simp [hcontent])⟩
  | cons p ps ih =>
    have hps' : ∀ q ∈ ps, q ∈ pieces cs := fun q hq => hps q (List.mem_cons_of_mem p hq)
    obtain ⟨head, next, rest, hstep, hrest, rfl⟩ := run_cons_ok.mp hrun
    obtain ⟨harranged, hspelled⟩ := ih hps' hrest
    rw [List.map_append]
    rcases step_cases hstep with ⟨-, rfl, rfl⟩ | ⟨-, heq⟩ | ⟨t, hp, hn, hu, hcontent⟩
    · exact ⟨harranged, hspelled⟩
    · cases hopen : st.lineOpen with
      | false =>
        rw [endLine_closed hopen, Prod.mk.injEq] at heq
        obtain ⟨rfl, rfl⟩ := heq
        exact ⟨harranged, hspelled⟩
      | true =>
        rw [endLine_open hopen, Prod.mk.injEq] at heq
        obtain ⟨rfl, rfl⟩ := heq
        exact ⟨.lineEnd harranged, List.forall_mem_cons.mpr ⟨nofun, hspelled⟩⟩
    · have hs := spells_of_mem_pieces (hps p List.mem_cons_self) hp hn hu
      obtain ⟨hnewline, hindent, hdedent, -⟩ := hs.isContent
      have ht : t.isContent = true := Token.isContent_iff.mpr ⟨hnewline, hindent, hdedent⟩
      have hfirst : (st.lexemeAt t p.text).token.isContent = true →
          Spells (st.lexemeAt t p.text).token (st.lexemeAt t p.text).text.toList :=
        fun _ => (String.toList_ofList (l := p.text)).symm ▸ hs
      rcases content_cases hcontent with ⟨hopen, rfl, rfl⟩ | ⟨hopen, level, -, rfl, rfl⟩
      · rw [hopen]
        exact ⟨.next ht harranged, List.forall_mem_cons.mpr ⟨hfirst, hspelled⟩⟩
      · rw [hopen]
        refine ⟨?_, ?_⟩
        · simpa [change, Lexeme.synthetic, shiftTokens, lexemeAt] using Arranged.first st.depth ht harranged
        · rw [List.append_assoc]
          refine List.forall_mem_append.mpr ⟨fun l hl hl' => ?_, List.forall_mem_cons.mpr ⟨hfirst, hspelled⟩⟩
          exact absurd (isContent_change hl) (by simp [hl'])

/-! ### Writing them down -/

theorem yields_feeds {depth : Nat} {rest : List Char} {us : List Token} (n : Nat) (h : Yields false depth rest us) :
    Yields false depth (List.replicate n '\n' ++ rest) us := by
  induction n with
  | zero => exact h
  | succ n ih => exact yields_feed ih

theorem yields_padding (pen : Pen) (line : Nat) {depth : Nat} {rest : List Char} {us : List Token}
    (h : Yields true depth rest us) : Yields true depth ((pen.padding line).toList ++ rest) us := by
  rw [Pen.toList_padding]
  split
  · exact h
  · rw [List.cons_append, List.cons_append, List.append_assoc]
    exact yields_space (by simp [Scan.isGap]) (yields_comment (by simp) h)

theorem tokens_of_map_eq_replicate {ls : List Lexeme} {n : Nat} {t : Token}
    (h : ls.map Lexeme.token = List.replicate n t) : ls.length = n ∧ ∀ l ∈ ls, l.token = t :=
  ⟨by simpa using congrArg List.length h, fun _ hl => List.eq_of_mem_replicate (h ▸ List.mem_map_of_mem hl)⟩

/-- A change of level writes nothing and brings the pen to the new depth. -/
theorem Pen.written_shift (pen : Pen) {shift : List Lexeme} {level : Nat}
    (h : shift.map Lexeme.token = shiftTokens pen.depth level) (ls : List Lexeme) :
    pen.written (shift ++ ls) = { pen with depth := level }.written ls := by
  obtain ⟨up, down, rfl, hup, hdown⟩ := List.map_eq_append_iff.mp h
  obtain ⟨hups, hup⟩ := tokens_of_map_eq_replicate hup
  obtain ⟨hdowns, hdown⟩ := tokens_of_map_eq_replicate hdown
  rw [List.append_assoc, written_indents pen hup, written_dedents _ hdown]
  congr 2
  simp only
  omega

section

variable {depth line : Nat} {rest : List Char} {us : List Token} {pen : Pen} {t : Token} {text : List Char}

theorem yields_next (hpen : pen.atLineStart = false) (hs : Spells t text)
    (hrest : ∀ c ∈ rest.head?, c = ' ' ∨ c = '\n') (h : Yields true depth rest us) :
    Yields true depth ((pen.lead line).toList ++ (text ++ rest)) (t :: us) := by
  have hlead : (pen.lead line).toList = (pen.padding line).toList ++ [' '] := by simp [Pen.lead, hpen]
  have htoken := yields_token (.next depth) hs (fun c hc => endsBefore_blank t (hrest c hc)) h
  rw [hlead, List.append_assoc, List.singleton_append]
  exact yields_padding pen line (yields_space (hs.head_append rest) htoken)

theorem yields_first (depth : Nat) (hpen : pen.atLineStart = true) (hs : Spells t text)
    (hrest : ∀ c ∈ rest.head?, c = ' ' ∨ c = '\n') (h : Yields true pen.depth rest us) :
    Yields false depth ((pen.lead line).toList ++ (text ++ rest)) (shiftTokens depth pen.depth ++ t :: us) := by
  have hlead : (pen.lead line).toList =
      List.replicate (line - pen.line) '\n' ++ List.replicate pen.depth '\t' := by simp [Pen.lead, hpen, Pen.repeated]
  rw [hlead, List.append_assoc]
  exact yields_feeds _ (yields_token (.first depth (isMargin_tabs pen.depth)) hs
    (fun c hc => endsBefore_blank t (hrest c hc)) h)

end

/-- Behind content a pen goes on with a space or a line end. -/
theorem Arranged.head_written {depth : Nat} {ls : List Lexeme} (h : Arranged true depth (ls.map Lexeme.token))
    {pen : Pen} (hpen : pen.atLineStart = false) : ∀ c ∈ (pen.written ls).head?, c = ' ' ∨ c = '\n' := by
  obtain ⟨t, us, hts, hindent, hdedent⟩ := h.head
  obtain ⟨l, rest, rfl, rfl, -⟩ := List.map_eq_cons_iff.mp hts
  obtain ⟨c, cs, hcs, hc⟩ := Pen.head_written hpen hindent hdedent rest
  intro d hd
  rw [hcs] at hd
  cases hd
  exact hc

/-- What holds of all that a pen writes for arranged tokens, by what it puts down for each, if each text spells its
token. The induction follows the arrangement; the place of the pen in a line and its depth are those of the tokens. -/
theorem Arranged.written_induction {P : Bool → Pen → List Char → List Token → Prop}
    (done : ∀ pen : Pen, P false pen [] (shiftTokens pen.depth 0))
    (lineEnd : ∀ {pen : Pen} {line : Nat} {rest : List Char} {ts : List Token},
      P false (pen.behindLineEnd line) rest ts →
      P true pen ((pen.padding line).toList ++ '\n' :: rest) (.newline :: ts))
    (next : ∀ {pen : Pen} {line : Nat} {t : Token} {text rest : List Char} {ts : List Token},
      pen.atLineStart = false → Spells t text → (∀ c ∈ rest.head?, c = ' ' ∨ c = '\n') →
      P true (pen.behindContent line text) rest ts → P true pen ((pen.lead line).toList ++ (text ++ rest)) (t :: ts))
    (first : ∀ {pen : Pen} {level line : Nat} {t : Token} {text rest : List Char} {ts : List Token},
      pen.atLineStart = true → Spells t text → (∀ c ∈ rest.head?, c = ' ' ∨ c = '\n') →
      P true ({ pen with depth := level }.behindContent line text) rest ts →
      P false pen (({ pen with depth := level }.lead line).toList ++ (text ++ rest))
        (shiftTokens pen.depth level ++ t :: ts))
    {isOpen : Bool} {depth : Nat} {ts : List Token} (h : Arranged isOpen depth ts) :
    ∀ {pen : Pen} {ls : List Lexeme}, pen.atLineStart = !isOpen → pen.depth = depth → ls.map Lexeme.token = ts →
      (∀ l ∈ ls, l.token.isContent = true → Spells l.token (Pen.textOf l).toList) →
      P isOpen pen (pen.written ls) ts := by
  induction h with
  | done depth =>
    rintro pen ls - rfl hls -
    have hwritten := pen.written_shift hls []
    rw [List.append_nil, Pen.written_nil] at hwritten
    rw [hwritten]
    exact done pen
  | lineEnd _ ih =>
    intro pen ls hpen hdepth hls hspelled
    obtain ⟨l, rest, rfl, hl, hrest⟩ := List.map_eq_cons_iff.mp hls
    obtain ⟨-, hspelled⟩ := List.forall_mem_cons.mp hspelled
    rw [Pen.written_newline pen hl]
    exact lineEnd (ih rfl hdepth hrest hspelled)
  | next ht harranged ih =>
    intro pen ls hpen hdepth hls hspelled
    obtain ⟨l, rest, rfl, rfl, rfl⟩ := List.map_eq_cons_iff.mp hls
    obtain ⟨hl, hspelled⟩ := List.forall_mem_cons.mp hspelled
    rw [Pen.written_text pen ht]
    exact next hpen (hl ht) (harranged.head_written rfl) (ih rfl hdepth rfl hspelled)
  | first depth ht harranged ih =>
    rintro pen ls hpen rfl hls hspelled
    obtain ⟨shift, more, rfl, hshift, hmore⟩ := List.map_eq_append_iff.mp hls
    obtain ⟨l, rest, rfl, rfl, rfl⟩ := List.map_eq_cons_iff.mp hmore
    obtain ⟨hl, hspelled⟩ := List.forall_mem_cons.mp (List.forall_mem_append.mp hspelled).2
    rw [Pen.written_shift pen hshift, Pen.written_text _ ht]
    exact first hpen (hl ht) (harranged.head_written rfl) (ih rfl rfl rfl hspelled)

/-- Arranged tokens come back from the texts that a pen puts down for them. -/
theorem Arranged.yields {isOpen : Bool} {depth : Nat} {ts : List Token} (h : Arranged isOpen depth ts) {pen : Pen}
    {ls : List Lexeme} (hpen : pen.atLineStart = !isOpen) (hdepth : pen.depth = depth)
    (hls : ls.map Lexeme.token = ts)
    (hspelled : ∀ l ∈ ls, l.token.isContent = true → Spells l.token (Pen.textOf l).toList) :
    Yields isOpen depth (pen.written ls) ts := by
  subst hdepth
  refine h.written_induction (P := fun isOpen pen text ts => Yields isOpen pen.depth text ts) ?_ ?_ ?_ ?_ hpen rfl hls
    hspelled
  · intro pen
    simpa [shiftTokens] using yields_nil
  · intro pen line rest ts hrest
    exact yields_padding pen line (yields_lineEnd hrest)
  · intro pen line t text rest ts hpen hs hhead hrest
    exact yields_next hpen hs hhead hrest
  · intro pen level line t text rest ts hpen hs hhead hrest
    exact yields_first pen.depth hpen hs hhead hrest

/-! ### Clearing texts -/

/-- The lexemes without the texts at some positions. -/
def clearTexts (cleared : Nat → Bool) (ls : List Lexeme) : List Lexeme :=
  ls.mapIdx fun i l => if cleared i then { l with text := "" } else l

theorem map_token_clearTexts (cleared : Nat → Bool) (ls : List Lexeme) :
    (clearTexts cleared ls).map Lexeme.token = ls.map Lexeme.token := by
  refine List.ext_getElem (by simp [clearTexts]) fun i _ _ => ?_
  simp only [clearTexts, List.getElem_map, List.getElem_mapIdx]
  split <;> rfl

/-- A text that spells a token is not empty, so it is the one written. -/
theorem spells_textOf {l : Lexeme} (hs : Spells l.token l.text.toList) : Spells l.token (Pen.textOf l).toList := by
  have htext : l.text ≠ "" := by
    intro hempty
    obtain ⟨c, cs, hcs, -⟩ := hs.head
    rw [hempty] at hcs
    cases hcs
  rwa [Pen.textOf, if_neg htext]

theorem spells_clearTexts {cleared : Nat → Bool} {ls : List Lexeme}
    (hspelled : ∀ l ∈ ls, l.token.isContent = true → Spells l.token l.text.toList)
    (hreal : ∀ i l x, ls[i]? = some l → cleared i = true → l.token = .real x → x.isFinite = true) :
    ∀ l ∈ clearTexts cleared ls, l.token.isContent = true → Spells l.token (Pen.textOf l).toList := by
  intro m hm
  obtain ⟨i, hi, rfl⟩ := List.mem_mapIdx.mp hm
  have hmem : ls[i] ∈ ls := List.getElem_mem hi
  split
  · rename_i hcleared
    intro hcontent
    exact (hspelled _ hmem hcontent).spelling fun x => hreal i _ x (List.getElem?_eq_getElem hi) hcleared
  · intro hcontent
    exact spells_textOf (hspelled _ hmem hcontent)

/-- Reading a text that is rebuilt from the lexemes of a source gives the same tokens, whichever texts have been
cleared. Only an infinite real needs its text. -/
theorem lexemes_rebuild_clearTexts {source : String} {ls : List Lexeme} (h : lexemes source = .ok ls)
    (cleared : Nat → Bool)
    (hreal : ∀ i l x, ls[i]? = some l → cleared i = true → l.token = .real x → x.isFinite = true) :
    ∃ again, lexemes (rebuild (clearTexts cleared ls)) = .ok again ∧
      again.map Lexeme.token = ls.map Lexeme.token := by
  obtain ⟨harranged, hspelled⟩ := arranged_run (fun _ hp => hp) h
  have hyields : Yields false 0 (Pen.start.written (clearTexts cleared ls)) (ls.map Lexeme.token) :=
    harranged.yields rfl rfl (map_token_clearTexts cleared ls) (spells_clearTexts hspelled hreal)
  obtain ⟨out, hreads, htokens⟩ := hyields 1 1
  rw [← Pen.toList_rebuild] at hreads
  obtain ⟨again, hagain, rfl⟩ := lexemes_of_reads hreads
  refine ⟨again, hagain, ?_⟩
  rw [← htokens, List.map_map]
  rfl

namespace Example

/-- A nested line with a string over two lines, which has escapes that are known and one that is not. -/
def escapes : String :=
  "f\n\tg \"a\\\"\\n\\q\t\n'\" '\\''\n\t007 1.50"

def escapesTokens : List Token :=
  [.name "f", .newline, .indent, .name "g", .string "a\"\n\\q\t\n'", .character '\'', .newline, .integer 7, .real 1.5,
    .newline, .dedent]

/-- The string is put down over three lines, its tab is escaped, and the numbers are shorter. -/
def escapesCleared : String :=
  "f\n\tg \"a\\\"\n\\\\q\\t\n'\" '\\''\n\t7 1.5\n"

end Example

/-- All texts are cleared. -/
theorem lexemes_rebuild_clearTexts_escapes :
    ∃ ls again, lexemes Example.escapes = .ok ls ∧ ls.map Lexeme.token = Example.escapesTokens ∧
      rebuild (clearTexts (fun _ => true) ls) = Example.escapesCleared ∧
      lexemes (rebuild (clearTexts (fun _ => true) ls)) = .ok again ∧
      again.map Lexeme.token = ls.map Lexeme.token := by
  obtain ⟨ls, hls⟩ := exists_eq_ok (show (lexemes Example.escapes).isOk = true by decide +kernel)
  have hview : (lexemes Example.escapes).toOption.map (fun ls => (ls.map Lexeme.token,
      rebuild (clearTexts (fun _ => true) ls))) = some (Example.escapesTokens, Example.escapesCleared) := by
    decide +kernel
  rw [hls] at hview
  obtain ⟨htokens, htext⟩ := Prod.mk.inj (Option.some.inj hview)
  have hreal : ∀ (i : Nat) (l : Lexeme) (x : Float32), ls[i]? = some l → true = true → l.token = .real x →
      x.isFinite = true := by
    intro i l x hl _ hx
    have hmem : Token.real x ∈ Example.escapesTokens := by
      rw [← htokens, ← hx]
      exact List.mem_map_of_mem (List.mem_of_getElem? hl)
    have hvalue : x = 1.5 := by simpa [Example.escapesTokens] using hmem
    rw [hvalue]
    decide +kernel
  obtain ⟨again, hagain, hsame⟩ := lexemes_rebuild_clearTexts hls (fun _ => true) hreal
  exact ⟨ls, again, hls, htokens, htext, hagain, hsame⟩

end Offside
