import Offside.Proofs.RealText

/-!
# The spelling of a token

A token that is read from some text can be read again from its spelling, which is made from the token alone. Escapes
are taken back one by one: what is put down for a character of a literal is closed in itself and stands for this
character. Only an infinite real has no text that it could be read from.
-/

namespace Offside

/-! ### Words and numbers -/

theorem spells_keyword (k : Keyword) : Spells (.keyword k) k.spelling.toList := by
  have htoken : Scan.wordToken k.spelling = .keyword k := by
    cases k <;> decide +kernel
  obtain ⟨c, cs, hcs, hhead, htail⟩ :
      ∃ c cs, k.spelling.toList = c :: cs ∧ c.isAlpha = true ∧ cs.all Char.isAlphanum = true := by
    cases k <;> exact ⟨_, _, rfl, by decide, by decide⟩
  have hspells := Spells.word c cs hhead (List.all_eq_true.mp htail)
  rwa [← hcs, String.ofList_toList, htoken] at hspells

theorem spells_integer {n : Nat} (h : n ≤ magnitudeLimit) : Spells (.integer n) (toString n).toList := by
  have hspells := Spells.integer (Nat.toDigits 10 n) Nat.toDigits_ne_nil (fun _ => Decimal.isDigit_toDigits)
    (by rwa [Decimal.digitsValue_toDigits])
  rwa [Decimal.digitsValue_toDigits, ← Decimal.toList_toString] at hspells

theorem spells_real {x : Float32} (hfinite : x.isFinite = true) (hsign : Decimal.isNegative x = false) :
    Spells (.real x) (Decimal.spell x).toList := by
  obtain ⟨whole, fraction, hw, hf, htext, -⟩ := Decimal.spell_spec hfinite
  have hread := Decimal.readReal?_spell hfinite
  rw [← String.ofList_toList (s := Decimal.spell x), htext, Decimal.readReal?_point hw hf, hsign, Option.some.injEq]
    at hread
  have hspells := Spells.real whole fraction hw.1 hw.2 hf.1 hf.2
  rw [htext, Decimal.signChars, hsign]
  rwa [show Decimal.ofParts whole fraction = x from hread] at hspells

/-! ### Literals between quotes -/

/-- A character of a literal is put down as an escape that stands for it, or as itself. -/
theorem escapedChar_cases {quote : Char} (hquote : quote = '"' ∨ quote = '\'') (c : Char) :
    (∃ e, Token.escapedChar quote c = ['\\', e] ∧ e ≠ '\n' ∧
        ∀ cs, Scan.unescape ('\\' :: e :: cs) = c :: Scan.unescape cs) ∨
      Token.escapedChar quote c = [c] ∧ c ≠ quote ∧ c ≠ '\\' := by
  unfold Token.escapedChar
  split
  · rename_i hc
    exact .inl ⟨'\\', rfl, by decide, fun cs => by rw [hc, Scan.unescape]⟩
  · split
    · rename_i hc
      exact .inl ⟨'t', rfl, by decide, fun cs => by rw [hc, Scan.unescape]⟩
    · split
      · rename_i hc
        rcases hquote with rfl | rfl
        · exact .inl ⟨'"', rfl, by decide, fun cs => by rw [hc, Scan.unescape]⟩
        · exact .inl ⟨'\'', rfl, by decide, fun cs => by rw [hc, Scan.unescape]⟩
      · exact .inr ⟨rfl, ‹_›, ‹_›⟩

/-- An escaped text is closed inside its quotes, and stands for the text. -/
theorem stringBody_escaped (cs : List Char) :
    Scan.stringBody (cs.flatMap (Token.escapedChar '"')) = (cs.flatMap (Token.escapedChar '"'), []) ∧
      Scan.unescape (cs.flatMap (Token.escapedChar '"')) = cs := by
  induction cs with
  | nil => exact ⟨rfl, rfl⟩
  | cons c cs ih =>
    rw [List.flatMap_cons]
    rcases escapedChar_cases (.inl rfl) c with ⟨e, he, hfeed, hresolves⟩ | ⟨hc, hquote, hslash⟩
    · rw [he]
      exact ⟨by simp [Scan.stringBody, hfeed, ih.1], by simp [hresolves, ih.2]⟩
    · rw [hc]
      exact ⟨by simp [Scan.stringBody, hquote, hslash, ih.1], by simp [Scan.unescape, hslash, ih.2]⟩

theorem spells_string (s : String) : Spells (.string s) (Token.string s).spelling.toList := by
  obtain ⟨hclosed, hresolves⟩ := stringBody_escaped s.toList
  have hspells := Spells.string _ hclosed
  rw [hresolves, String.ofList_toList] at hspells
  simpa [Token.spelling] using hspells

theorem spells_character (c : Char) : Spells (.character c) (Token.character c).spelling.toList := by
  have htext : (Token.character c).spelling.toList = '\'' :: (Token.escapedChar '\'' c ++ ['\'']) := by
    simp [Token.spelling]
  rw [htext]
  rcases escapedChar_cases (.inr rfl) c with ⟨e, he, hfeed, hresolves⟩ | ⟨hc, hquote, hslash⟩
  · rw [he]
    exact .escapedCharacter e c hfeed (hresolves [])
  · rw [hc]
    exact .character c hquote hslash

/-- A token that has a text is read from its spelling too, unless it is an infinite real. -/
theorem Spells.spelling {t : Token} {text : List Char} (h : Spells t text)
    (hreal : ∀ x, t = .real x → x.isFinite = true) : Spells t t.spelling.toList := by
  cases h with
  | word c cs head tail =>
    have hword := Spells.word c cs head tail
    unfold Scan.wordToken at hword ⊢
    split
    · rename_i k _
      exact spells_keyword k
    · rename_i hname
      rw [hname] at hword
      simpa [Token.spelling] using hword
  | integer digits nonempty all fits => exact spells_integer fits
  | real whole fraction nonempty all nonempty' all' =>
    exact spells_real (hreal _ rfl) (Decimal.isNegative_nearest _ _)
  | string body closed => exact spells_string _
  | character c quote backslash => exact spells_character c
  | escapedCharacter escape c feed resolves => exact spells_character c
  | mark m => exact .mark m

end Offside
