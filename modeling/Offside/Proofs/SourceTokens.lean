import Offside.Proofs.Blocks

/-!
# The tokens of a source

Two facts on the tokens that a text is read as, which token lists in general do not have. Every token with a text of
its own has a spelling, so it can be written down again. And no block is empty: an indent stands in front of the
content that it is read from.
-/

namespace Offside

/-- Tokens as they come from a source. Parts of such a list are such lists too. -/
structure Sourced (ts : List Token) : Prop where
  spelled : ∀ t ∈ ts, t.isContent = true → ∃ text, Spells t text
  blocks : ¬ [.indent, .dedent] <:+: ts

theorem Sourced.part {ts us : List Token} (h : Sourced ts) (hus : us <:+: ts) : Sourced us where
  spelled := fun t ht => h.spelled t (hus.subset ht)
  blocks := fun hempty => h.blocks (hempty.trans hus)

theorem sourced_nil : Sourced [] :=
  ⟨nofun, by decide⟩

theorem Sourced.cons {t : Token} {ts : List Token} (ht : t.isContent = true → ∃ text, Spells t text)
    (hblock : t = .indent → ts.head? ≠ some .dedent) (h : Sourced ts) : Sourced (t :: ts) where
  spelled := by
    intro u hu
    rcases List.mem_cons.mp hu with rfl | hu
    · exact ht
    · exact h.spelled u hu
  blocks := by
    rw [List.infix_cons_iff]
    rintro (hfront | hrest)
    · obtain ⟨us, hus⟩ := hfront
      obtain ⟨rfl, hts⟩ := List.cons.inj hus
      exact hblock rfl (by rw [← hts]; rfl)
    · exact h.blocks hrest

theorem Sourced.lineEnd {ts : List Token} (h : Sourced ts) : Sourced (.newline :: ts) :=
  h.cons nofun nofun

theorem Sourced.dedents {ts : List Token} (h : Sourced ts) (n : Nat) : Sourced (List.replicate n .dedent ++ ts) := by
  induction n with
  | zero => exact h
  | succ n ih => exact ih.cons (t := .dedent) nofun nofun

/-- A change of level in front of tokens that start with content. -/
theorem Sourced.change {ts : List Token} (h : Sourced ts) (hhead : ts.head? ≠ some .dedent) (place : Position)
    (depth level : Nat) : Sourced ((Layout.change place depth level).map Lexeme.token ++ ts) := by
  have hindents : ∀ n, Sourced (List.replicate n Token.indent ++ ts) ∧
      (List.replicate n Token.indent ++ ts).head? ≠ some .dedent := by
    intro n
    induction n with
    | zero => exact ⟨h, hhead⟩
    | succ n ih => exact ⟨ih.1.cons (t := .indent) nofun fun _ => ih.2, by simp [List.replicate_succ]⟩
  rcases Nat.le_total depth level with hle | hle
  · have hzero : depth - level = 0 := by omega
    simpa [Layout.change, Lexeme.synthetic, hzero] using (hindents (level - depth)).1
  · have hzero : level - depth = 0 := by omega
    simpa [Layout.change, Lexeme.synthetic, hzero] using h.dedents (depth - level)

theorem sourced_finish (st : Layout) : Sourced (st.finish.map Lexeme.token) := by
  have hclosing := sourced_nil.dedents st.depth
  cases hopen : st.lineOpen with
  | false => simpa [Layout.finish, hopen, Lexeme.synthetic] using hclosing
  | true => simpa [Layout.finish, hopen, Lexeme.synthetic] using hclosing.lineEnd

theorem sourced_run {source : List Char} {ps : List Piece} (hps : ∀ p ∈ ps, p ∈ pieces source) {st : Layout}
    {ls : List Lexeme} (hrun : st.run ps = .ok ls) : Sourced (ls.map Lexeme.token) := by
  induction ps generalizing st ls with
  | nil =>
    cases hrun
    exact sourced_finish st
  | cons p ps ih =>
    obtain ⟨head, next, rest, hstep, hrest, rfl⟩ := Layout.run_cons_ok.mp hrun
    have hsourced : Sourced (rest.map Lexeme.token) := ih (fun q hq => hps q (by simp [hq])) hrest
    rw [List.map_append]
    rcases Layout.step_cases hstep with ⟨-, rfl, -⟩ | ⟨-, heq⟩ | ⟨t, hp, hn, hu, hcontent⟩
    · exact hsourced
    · cases hopen : st.lineOpen with
      | false =>
        rw [Layout.endLine_closed hopen, Prod.mk.injEq] at heq
        rw [heq.1]
        exact hsourced
      | true =>
        rw [Layout.endLine_open hopen, Prod.mk.injEq] at heq
        rw [heq.1]
        exact hsourced.cons nofun nofun
    · have hs := spells_of_mem_pieces (hps p (by simp)) hp hn hu
      obtain ⟨-, hindent, hdedent, -⟩ := hs.isContent
      have hline : Sourced (t :: rest.map Lexeme.token) :=
        hsourced.cons (fun _ => ⟨p.text, hs⟩) fun h => absurd h hindent
      rcases Layout.content_cases hcontent with ⟨-, rfl, -⟩ | ⟨-, level, -, rfl, -⟩
      · exact hline
      · have hhead : (t :: rest.map Lexeme.token).head? ≠ some .dedent := fun h => hdedent (Option.some.inj h)
        simpa [Layout.lexemeAt] using hline.change hhead st.position st.depth level

theorem sourced_lexemes {source : String} {ls : List Lexeme} (h : lexemes source = .ok ls) :
    Sourced (ls.map Lexeme.token) :=
  sourced_run (fun _ hp => hp) h

end Offside
