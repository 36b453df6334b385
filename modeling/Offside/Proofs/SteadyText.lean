import Offside.Proofs.ClearedTexts

/-!
# Rebuilding a rebuilt text

A rebuilt text is rebuilt as itself. The lines that the pen reads off the lexemes may differ the second time, at the
line end behind a literal over several lines. The pen never goes up, so a line it has passed makes no difference: what
counts is the lower of the line of the lexeme and the line of the pen, and this is where the rebuilt text has it.
-/

namespace Offside

open Layout

/-- Read from where a pen stands, a text has lexemes for which the pen writes the same text. -/
def Steady (isOpen : Bool) (pen : Pen) (text : List Char) : Prop :=
  ∀ (lastLine : Nat) (st : Layout), st.Stands isOpen pen.depth pen.line lastLine →
    ∃ ls, st.run (pieces text) = .ok ls ∧ pen.written ls = text

namespace Pen

/-! ### Lines that a pen has passed -/

variable (pen : Pen) (line : Nat)

theorem padding_max : pen.padding (max pen.line line) = pen.padding line := by
  unfold padding
  by_cases hle : line ≤ pen.line
  · rw [Nat.max_eq_left hle, if_pos (Nat.le_refl _), if_pos hle]
  · rw [Nat.max_eq_right (by omega)]

theorem lead_max : pen.lead (max pen.line line) = pen.lead line := by
  have hfeeds : max pen.line line - pen.line = line - pen.line := by omega
  rw [lead, lead, padding_max, hfeeds]

theorem behindLineEnd_max : pen.behindLineEnd (max pen.line line) = pen.behindLineEnd line := by
  simp [behindLineEnd]

theorem behindContent_max (text : List Char) :
    pen.behindContent (max pen.line line) text = pen.behindContent line text := by
  simp [behindContent]

/-- A lexeme on the line that a pen comes to for another line. -/
theorem written_spelled_max {l : Lexeme} {text : List Char} (hs : Spells l.token text)
    (htext : l.text = .ofList text) (hline : l.line = max pen.line line) (ls : List Lexeme) :
    pen.written (l :: ls) = (pen.lead line).toList ++ (text ++ (pen.behindContent line text).written ls) := by
  rw [written_spelled pen hs htext, hline, lead_max, behindContent_max]

end Pen

/-! ### What a pen puts down -/

section

variable {pen : Pen} {line : Nat} {rest : List Char} {t : Token} {text : List Char}

theorem steady_nil (pen : Pen) : Steady false pen [] := by
  intro lastLine st hst
  refine ⟨st.finish, by rw [pieces, run], ?_⟩
  have hwritten := pen.written_dedents
    (Pen.token_of_mem_replicate st.depth .dedent ⟨st.position.offset, st.lastLine⟩) []
  rw [List.append_nil, Pen.written_nil] at hwritten
  simpa [finish, hst.lineOpen] using hwritten

theorem steady_lineEnd (h : Steady false (pen.behindLineEnd line) rest) :
    Steady true pen ((pen.padding line).toList ++ '\n' :: rest) := by
  intro lastLine st hst
  obtain ⟨behindPadding, hpadding, hskip⟩ := hst.padding line ('\n' :: rest)
  obtain ⟨l, next, htoken, hline, hnext, hrun⟩ := hpadding.lineEnd rest
  obtain ⟨ls, hls, hwritten⟩ := h _ next hnext
  refine ⟨l :: ls, hskip.trans (hrun ls hls), ?_⟩
  rw [Pen.written_newline pen htoken, hline, Pen.padding_max, Pen.behindLineEnd_max, hwritten]

theorem steady_next (hpen : pen.atLineStart = false) (hs : Spells t text)
    (hrest : ∀ c ∈ rest.head?, c = ' ' ∨ c = '\n') (h : Steady true (pen.behindContent line text) rest) :
    Steady true pen ((pen.lead line).toList ++ (text ++ rest)) := by
  intro lastLine st hst
  have hlead : (pen.lead line).toList = (pen.padding line).toList ++ [' '] := by simp [Pen.lead, hpen]
  obtain ⟨behindPadding, hpadding, hskip⟩ := hst.padding line (' ' :: (text ++ rest))
  obtain ⟨behindSpace, hspace, hpass⟩ := hpadding.space (hs.head_append rest)
  obtain ⟨l, next, rfl, htext, hline, hnext, hrun⟩ := hspace.next hs fun c hc => endsBefore_blank t (hrest c hc)
  obtain ⟨ls, hls, hwritten⟩ := h _ next hnext
  refine ⟨l :: ls, ?_, ?_⟩
  · rw [hlead, List.append_assoc, List.singleton_append]
    exact (hskip.trans hpass).trans (hrun ls hls)
  · rw [pen.written_spelled_max line hs htext hline, hwritten]

/-- The pen has taken the new depth when it puts down the first token of a line; the pass is still at the old one. -/
theorem steady_first (hpen : pen.atLineStart = true) {level : Nat} (hs : Spells t text)
    (hrest : ∀ c ∈ rest.head?, c = ' ' ∨ c = '\n')
    (h : Steady true ({ pen with depth := level }.behindContent line text) rest) :
    Steady false pen (({ pen with depth := level }.lead line).toList ++ (text ++ rest)) := by
  intro lastLine st hst
  have hlead : ({ pen with depth := level }.lead line).toList =
      List.replicate (line - pen.line) '\n' ++ List.replicate level '\t' := by simp [Pen.lead, hpen, Pen.repeated]
  obtain ⟨behindFeeds, hfeeds, hskip⟩ := hst.feeds (line - pen.line) (List.replicate level '\t' ++ (text ++ rest))
  rw [show pen.line + (line - pen.line) = max pen.line line by omega] at hfeeds
  obtain ⟨place, l, next, -, rfl, htext, hline, hnext, hrun⟩ :=
    hfeeds.first (isMargin_tabs level) hs fun c hc => endsBefore_blank t (hrest c hc)
  obtain ⟨ls, hls, hwritten⟩ := h _ next hnext
  refine ⟨change place pen.depth level ++ l :: ls, ?_, ?_⟩
  · rw [hlead, List.append_assoc]
    exact hskip.trans (hrun ls hls)
  · rw [Pen.written_change, Pen.written_spelled_max { pen with depth := level } line hs htext hline, hwritten]

end

/-- What a pen writes for arranged tokens is steady, if each text spells its token: nothing is asked of the lines. -/
theorem Arranged.steady {isOpen : Bool} {depth : Nat} {ts : List Token} (h : Arranged isOpen depth ts) {pen : Pen}
    {ls : List Lexeme} (hpen : pen.atLineStart = !isOpen) (hdepth : pen.depth = depth)
    (hls : ls.map Lexeme.token = ts)
    (hspelled : ∀ l ∈ ls, l.token.isContent = true → Spells l.token (Pen.textOf l).toList) :
    Steady isOpen pen (pen.written ls) := by
  refine h.written_induction (P := fun isOpen pen text _ => Steady isOpen pen text) ?_ ?_ ?_ ?_ hpen hdepth hls
    hspelled
  · exact steady_nil
  · intro pen line rest ts hrest
    exact steady_lineEnd hrest
  · intro pen line t text rest ts hpen hs hhead hrest
    exact steady_next hpen hs hhead hrest
  · intro pen level line t text rest ts hpen hs hhead hrest
    exact steady_first hpen hs hhead hrest

/-- The text rebuilt from the lexemes of a source can be read, and is rebuilt from its own lexemes. -/
theorem rebuild_rebuild {source : String} {ls : List Lexeme} (h : lexemes source = .ok ls) :
    ∃ again, lexemes (rebuild ls) = .ok again ∧ rebuild again = rebuild ls := by
  obtain ⟨harranged, hspelled⟩ := arranged_run (fun _ hp => hp) h
  have hsteady : Steady false Pen.start (Pen.start.written ls) :=
    harranged.steady rfl rfl rfl fun l hl hcontent => spells_textOf (hspelled l hl hcontent)
  obtain ⟨again, hagain, hwritten⟩ := hsteady 1 start start_stands
  rw [← Pen.toList_rebuild] at hagain
  refine ⟨again, hagain, String.toList_inj.mp ?_⟩
  rw [Pen.toList_rebuild, Pen.toList_rebuild, hwritten]

namespace Example

/-- Spaces for a tab, a comment over two lines, an empty line and a literal over two lines without a line end. -/
def untidy : String :=
  "f  \x7bc\n\x7dg\r\n\n    \x7bd\x7dh\t\"p\nq\""

def tidy : String :=
  "f \x7b\n\x7d g\n\n\th \"p\nq\"\n"

end Example

theorem rebuild_rebuild_untidy :
    ∃ ls again, lexemes Example.untidy = .ok ls ∧ rebuild ls = Example.tidy ∧
      lexemes Example.tidy = .ok again ∧ rebuild again = Example.tidy := by
  obtain ⟨ls, hls⟩ := exists_eq_ok (show (lexemes Example.untidy).isOk = true by decide +kernel)
  have htext : (lexemes Example.untidy).toOption.map rebuild = some Example.tidy := by decide +kernel
  rw [hls] at htext
  have htidy : rebuild ls = Example.tidy := Option.some.inj htext
  obtain ⟨again, hagain, hsame⟩ := rebuild_rebuild hls
  rw [htidy] at hagain hsame
  exact ⟨ls, again, hls, htidy, hagain, hsame⟩

end Offside
