import Offside.Host.Input
import Mathlib.Data.List.Basic

/-!
# The words of an input

Words are taken a line at a time, but which words there are does not depend on the lines, as a line end is blank
itself: the words of an input are those of its text, in order. It makes no difference either whether the text is given
by its characters or by its bytes.
-/

namespace Offside

/-! ### Splitting -/

namespace Text

variable {α : Type} {separates : α → Bool}

theorem split_cons (a : α) (as : List α) :
    split separates (a :: as) =
      if separates a then [] :: split separates as else (split separates as).modifyHead (a :: ·) := by
  rw [split]
  cases hrest : split separates as with
  | nil => exact absurd hrest (split_ne_nil separates as)
  | cons first more => rfl

/-- What has no separator in it goes to the first stretch of what follows. -/
theorem split_append {as : List α} (h : ∀ a ∈ as, separates a = false) (bs : List α) :
    split separates (as ++ bs) = (split separates bs).modifyHead (as ++ ·) := by
  induction as with
  | nil => cases hbs : split separates bs <;> simp [hbs]
  | cons a as ih =>
    obtain ⟨ha, has⟩ := List.forall_mem_cons.mp h
    rw [List.cons_append, split_cons, ih has, ha]
    simp [List.modifyHead_modifyHead, Function.comp_def]

theorem split_append_cons {s : α} (hs : separates s = true) (as bs : List α) :
    split separates (as ++ s :: bs) = split separates as ++ split separates bs := by
  induction as with
  | nil => simp [split_cons, hs, split]
  | cons a as ih =>
    rw [List.cons_append, split_cons, split_cons, ih]
    split
    · rfl
    · cases hrest : split separates as with
      | nil => exact absurd hrest (split_ne_nil separates as)
      | cons first more => rfl

/-- Splitting at some of the separators first, and then each stretch at all of them, is splitting at all of them. -/
theorem flatMap_split {coarse fine : α → Bool} (h : ∀ a, coarse a = true → fine a = true) (as : List α) :
    (split coarse as).flatMap (split fine) = split fine as := by
  induction as with
  | nil => rfl
  | cons a as ih =>
    rw [split_cons, split_cons]
    cases hcoarse : coarse a with
    | true => simp [h a hcoarse, ih, split]
    | false =>
      cases hrest : split coarse as with
      | nil => exact absurd hrest (split_ne_nil coarse as)
      | cons first more =>
        rw [hrest, List.flatMap_cons] at ih
        simp only [Bool.false_eq_true, if_false, List.modifyHead_cons, List.flatMap_cons, split_cons, ← ih]
        split
        · rfl
        · cases hfirst : split fine first with
          | nil => exact absurd hfirst (split_ne_nil fine first)
          | cons _ _ => rfl

/-! ### Words -/

/-- A text that is one word. -/
def IsWord (text : String) : Prop :=
  text ≠ "" ∧ ∀ c ∈ text.toList, isBlank c = false

instance : DecidablePred IsWord := fun text =>
  decidable_of_iff (text ≠ "" ∧ text.toList.all (fun c => !isBlank c) = true) (by simp [IsWord])

theorem words_of_isWord {text : String} (h : IsWord text) : words text = [text] := by
  have hsplit := split_append h.2 []
  rw [List.append_nil] at hsplit
  have hne : text.toList ≠ [] := by simpa using h.1
  simp [words, hsplit, split, hne]

theorem words_append_blank {blank : String} {c : Char} (hblank : blank.toList = [c]) (hc : isBlank c = true)
    (before after : String) : words (before ++ blank ++ after) = words before ++ words after := by
  have htext : (before ++ blank ++ after).toList = before.toList ++ c :: after.toList := by simp [hblank]
  rw [words, htext, split_append_cons hc, List.filter_append, List.map_append]
  rfl

/-- A row of words with a space between each two of them. -/
theorem words_intercalate {texts : List String} (h : ∀ text ∈ texts, IsWord text) :
    words (" ".intercalate texts) = texts := by
  induction texts with
  | nil => rfl
  | cons first texts ih =>
    obtain ⟨hfirst, hrest⟩ := List.forall_mem_cons.mp h
    cases texts with
    | nil => simpa using words_of_isWord hfirst
    | cons second texts =>
      have hrow : " ".intercalate (first :: second :: texts) = first ++ " " ++ " ".intercalate (second :: texts) := by
        simp [String.append_assoc]
      rw [hrow, words_append_blank rfl (by decide), words_of_isWord hfirst, ih hrest]
      rfl

/-- A line feed is blank, so the words of a text are those of its lines. -/
theorem words_lines (text : String) :
    ((split (· = '\n') text.toList).map String.ofList).flatMap words = words text := by
  have hblank : ∀ c : Char, decide (c = '\n') = true → isBlank c = true := by
    intro c hc
    rw [of_decide_eq_true hc]
    decide
  rw [words, ← flatMap_split hblank, List.flatMap_map, List.filter_flatMap, List.map_flatMap]
  simp [words]

end Text

/-! ### Inputs -/

/-- The words of a line. Of a garbled line there are none to be had. -/
def InputLine.words : InputLine → List String
  | .text line => Text.words line
  | .garbled => []

namespace Input

/-- The words that are left. -/
def words (input : Input) : List String :=
  input.pending ++ input.lines.flatMap InputLine.words

/-- All that is left is text. -/
def IsLegible (input : Input) : Prop :=
  .garbled ∉ input.lines

variable {input : Input}

theorem nextOfLines_nil {lines : List InputLine} (h : .garbled ∉ lines) (hwords : lines.flatMap InputLine.words = []) :
    nextOfLines lines = (.error .endOfInput, ⟨[], []⟩) := by
  induction lines with
  | nil => rfl
  | cons line lines ih =>
    rw [List.mem_cons, not_or] at h
    rw [List.flatMap_cons, List.append_eq_nil_iff] at hwords
    cases line with
    | garbled => exact absurd rfl h.1
    | text text =>
      have hnone : Text.words text = [] := hwords.1
      rw [nextOfLines, hnone]
      exact ih h.2 hwords.2

theorem nextOfLines_cons {lines : List InputLine} {word : String} {rest : List String} (h : .garbled ∉ lines)
    (hwords : lines.flatMap InputLine.words = word :: rest) :
    ∃ behind, nextOfLines lines = (.ok word, behind) ∧ behind.IsLegible ∧ behind.words = rest := by
  induction lines with
  | nil => cases hwords
  | cons line lines ih =>
    rw [List.mem_cons, not_or] at h
    rw [List.flatMap_cons] at hwords
    cases line with
    | garbled => exact absurd rfl h.1
    | text text =>
      rw [InputLine.words] at hwords
      rw [nextOfLines]
      cases hline : Text.words text with
      | nil =>
        rw [hline] at hwords
        exact ih h.2 hwords
      | cons first more =>
        rw [hline] at hwords
        obtain ⟨rfl, hrest⟩ := List.cons.inj hwords
        exact ⟨⟨more, lines⟩, rfl, h.2, hrest⟩

/-- Where no words are left, asking for one fails. -/
theorem next_nil (h : input.IsLegible) (hwords : input.words = []) : input.next = (.error .endOfInput, ⟨[], []⟩) := by
  obtain ⟨pending, lines⟩ := input
  obtain ⟨hpending, hlines⟩ := List.append_eq_nil_iff.mp hwords
  obtain rfl : pending = [] := hpending
  exact nextOfLines_nil h hlines

theorem next_cons {word : String} {rest : List String} (h : input.IsLegible) (hwords : input.words = word :: rest) :
    ∃ behind, input.next = (.ok word, behind) ∧ behind.IsLegible ∧ behind.words = rest := by
  obtain ⟨pending, lines⟩ := input
  cases pending with
  | nil => exact nextOfLines_cons h hwords
  | cons first more =>
    obtain ⟨rfl, hrest⟩ := List.cons.inj hwords
    exact ⟨⟨more, lines⟩, rfl, h, hrest⟩

theorem isLegible_ofText (text : String) : (ofText text).IsLegible := by
  simp [IsLegible, ofText]

theorem words_ofText (text : String) : (ofText text).words = Text.words text := by
  rw [← Text.words_lines, List.flatMap_map]
  simp [words, ofText, List.flatMap_map, InputLine.words]

/-! ### Bytes -/

/-- Only a line feed has the byte of a line feed in its encoding. -/
theorem ne_lineFeed_of_mem_encode {c : Char} (h : c ≠ '\n') :
    ∀ byte ∈ String.utf8EncodeChar c, decide (byte = 10) = false := by
  have hval : c.val.toNat ≠ 10 := fun hten => h (Char.ext (UInt32.toNat_inj.mp hten))
  -- The bytes of a longer encoding are all above 127.
  have hbyte : ∀ n : Nat, n < 256 → n ≠ 10 → decide (UInt8.ofNat n = 10) = false := by
    intro n hn hne
    refine decide_eq_false fun heq => hne ?_
    have hnat := congrArg UInt8.toNat heq
    rwa [UInt8.toNat_ofNat_of_lt' hn] at hnat
  rw [String.utf8EncodeChar]
  split
  · exact List.forall_mem_singleton.mpr (hbyte _ (by omega) hval)
  · split
    · simp only [List.forall_mem_cons]
      refine ⟨?_, ?_, List.forall_mem_nil _⟩ <;> exact hbyte _ (by omega) (by omega)
    · split
      · simp only [List.forall_mem_cons]
        refine ⟨?_, ?_, ?_, List.forall_mem_nil _⟩ <;> exact hbyte _ (by omega) (by omega)
      · simp only [List.forall_mem_cons]
        refine ⟨?_, ?_, ?_, ?_, List.forall_mem_nil _⟩ <;> exact hbyte _ (by omega) (by omega)

theorem split_bytes (cs : List Char) :
    Text.split (fun byte : UInt8 => byte = 10) (cs.flatMap String.utf8EncodeChar) =
      (Text.split (· = '\n') cs).map (List.flatMap String.utf8EncodeChar) := by
  induction cs with
  | nil => rfl
  | cons c cs ih =>
    rw [List.flatMap_cons, Text.split_cons]
    by_cases hc : c = '\n'
    · subst hc
      have hbytes : String.utf8EncodeChar '\n' = [10] := rfl
      rw [hbytes, List.singleton_append, Text.split_cons, ih]
      simp
    · rw [Text.split_append (ne_lineFeed_of_mem_encode hc), ih, if_neg (by simpa using hc)]
      cases Text.split (· = '\n') cs <;> simp

theorem lineOfBytes_encode (line : List Char) :
    lineOfBytes (line.flatMap String.utf8EncodeChar) = .text (String.ofList line) := by
  have hbytes : (⟨⟨line.flatMap String.utf8EncodeChar⟩⟩ : ByteArray) = (String.ofList line).toByteArray := by
    rw [String.toByteArray_ofList]
    exact ByteArray.ext List.data_toByteArray.symm
  rw [lineOfBytes, hbytes, String.fromUTF8?, dif_pos (String.ofList line).isValidUTF8]
  rfl

theorem bytes_toUTF8 (text : String) : text.toUTF8.data.toList = text.toList.flatMap String.utf8EncodeChar := by
  conv => lhs; rw [← String.ofList_toList (s := text)]
  rw [String.toUTF8_eq_toByteArray, String.toByteArray_ofList]
  exact List.toList_data_toByteArray

/-- The bytes of a text are the same input as the text. -/
theorem ofBytes_toUTF8 (text : String) : ofBytes text.toUTF8.data.toList = ofText text := by
  rw [ofBytes, ofText, bytes_toUTF8, split_bytes, List.map_map]
  simp [lineOfBytes_encode, Function.comp_def]

end Input

end Offside
