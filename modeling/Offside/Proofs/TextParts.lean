import Offside.Host.Builtin
import Offside.Proofs.Attempt

/-!
# Parts of a text

Three built-in functions cut a part out of a text: from its start, from its end, or from a position on. All of them cut
in the same way, but the one for the end finds its position first, with integers that could run over in a text longer
than the greatest of them. For every other text the three agree: what is left of a part, the part, and what is right of
it make up the text. A part that is not there is refused and no slot changes.
-/

namespace Offside

/-- So many characters of a text from a position on, or as many of them as there are. -/
def textPart (s : String) (position count : Nat) : String :=
  .ofList ((s.toList.drop position).take count)

theorem length_textPart {s : String} {position count : Nat} (h : position + count ≤ s.length) :
    (textPart s position count).length = count := by
  rw [textPart, String.length_ofList, List.length_take, List.length_drop, String.length_toList]
  omega

/-- What is in front of a part, the part and what is behind it make up the text. -/
theorem textPart_append (s : String) (position count : Nat) :
    textPart s 0 position ++ textPart s position count ++
      textPart s (position + count) (s.length - (position + count)) = s := by
  have hbehind : (s.toList.drop (position + count)).take (s.length - (position + count)) =
      (s.toList.drop position).drop count := by
    rw [List.drop_drop]
    refine List.take_of_length_le (Nat.le_of_eq ?_)
    rw [List.length_drop, String.length_toList]
  apply String.toList_injective
  simp only [textPart, String.toList_append, String.toList_ofList, List.drop_zero, hbehind]
  rw [List.append_assoc, List.take_append_drop, List.take_append_drop]

namespace Builtin

/-- A part of a text is there. -/
def Fits (s : String) (position count : Int32) : Prop :=
  0 ≤ position.toInt ∧ 0 ≤ count.toInt ∧ position.toInt + count.toInt ≤ s.length

/-- A function takes these inputs, puts a text into its output slot and changes nothing else, whatever the slot
held. -/
def Puts (b : Builtin) (inputs : List Value) (text : String) : Prop :=
  ∀ out host, b.perform (inputs ++ [out]) host = (.ok (), inputs ++ [.string text], host)

/-- A function fails on these inputs because something is out of bounds, and leaves all slots as they were. -/
def Refuses (b : Builtin) (inputs : List Value) : Prop :=
  ∀ out host, ∃ cause, cause.kind = .indexOutOfBounds ∧
    b.perform (inputs ++ [out]) host = (.error cause, inputs ++ [out], host)

/-- A function cuts this part out of a text. -/
def Cuts (b : Builtin) (inputs : List Value) (s : String) (position count : Int32) : Prop :=
  ∀ out host, b.perform (inputs ++ [out]) host =
    match b.cut s position count with
    | .ok text => (.ok (), inputs ++ [.string text], host)
    | .error cause => (.error cause, inputs ++ [out], host)

section

variable {b : Builtin} {inputs : List Value} {s text : String} {position count : Int32}

theorem cut_of_fits (h : Fits s position count) :
    b.cut s position count = .ok (textPart s position.toInt.toNat count.toInt.toNat) := by
  obtain ⟨hposition, hcount, hsum⟩ := h
  have hsigns : ¬ (position < 0 ∨ count < 0) := by
    rw [Int32.lt_iff_toInt_lt, Int32.lt_iff_toInt_lt, Int32.toInt_zero]
    omega
  rw [cut, if_neg hsigns]
  dsimp only
  rw [if_neg (by omega)]
  rfl

theorem cut_of_not_fits (h : ¬ Fits s position count) :
    ∃ cause, b.cut s position count = .error cause ∧ cause.kind = .indexOutOfBounds := by
  unfold cut
  by_cases hsigns : position < 0 ∨ count < 0
  · rw [if_pos hsigns]
    exact ⟨_, rfl, rfl⟩
  · rw [if_neg hsigns]
    rw [Int32.lt_iff_toInt_lt, Int32.lt_iff_toInt_lt, Int32.toInt_zero] at hsigns
    have hlong : s.length < position.toInt.toNat + count.toInt.toNat := by
      rw [Fits] at h
      omega
    dsimp only
    rw [if_pos hlong]
    exact ⟨_, rfl, rfl⟩

/-- A function that cuts puts the part if it is there, and nothing else. -/
theorem Cuts.puts_iff (h : b.Cuts inputs s position count) :
    b.Puts inputs text ↔ Fits s position count ∧ text = textPart s position.toInt.toNat count.toInt.toNat := by
  by_cases hfits : Fits s position count
  · have hcut := cut_of_fits (b := b) hfits
    constructor
    · intro hputs
      have hperform := (h (.integer 0) (.start ⟨[], []⟩ (.ofSeed 0))).symm.trans (hputs _ _)
      simp only [hcut, Prod.mk.injEq, List.append_cancel_left_eq, List.cons.injEq, Value.string.injEq] at hperform
      exact ⟨hfits, hperform.2.1.1.symm⟩
    · intro hpart out host
      rw [h out host, hcut, hpart.2]
  · obtain ⟨cause, hcut, -⟩ := cut_of_not_fits (b := b) hfits
    constructor
    · intro hputs
      have hperform := (h (.integer 0) (.start ⟨[], []⟩ (.ofSeed 0))).symm.trans (hputs _ _)
      simp [hcut] at hperform
    · intro hpart
      exact absurd hpart.1 hfits

theorem Cuts.exists_puts_iff (h : b.Cuts inputs s position count) :
    (∃ text, b.Puts inputs text) ↔ Fits s position count := by
  constructor
  · intro hputs
    obtain ⟨text, hputs⟩ := hputs
    exact (h.puts_iff.mp hputs).1
  · intro hfits
    exact ⟨_, h.puts_iff.mpr ⟨hfits, rfl⟩⟩

theorem Cuts.puts_or_refuses (h : b.Cuts inputs s position count) :
    (∃ text, b.Puts inputs text) ∨ b.Refuses inputs := by
  by_cases hfits : Fits s position count
  · exact .inl (h.exists_puts_iff.mpr hfits)
  · obtain ⟨cause, hcut, hkind⟩ := cut_of_not_fits (b := b) hfits
    refine .inr fun out host => ⟨cause, hkind, ?_⟩
    rw [h out host, hcut]

end

/-! ### The three functions -/

section

variable (s : String) (position count : Int32)

theorem cuts_left : left.Cuts [.string s, .integer count] s 0 count := by
  intro out host
  simp only [perform, List.dropLast_concat, compute, stringArgument, integerArgument, Value.string?, Value.integer?,
    ok_bind]
  cases left.cut s 0 count <;> rfl

theorem cuts_right : right.Cuts [.string s, .integer count] s (rightStart s count) count := by
  intro out host
  simp only [perform, List.dropLast_concat, compute, stringArgument, integerArgument, Value.string?, Value.integer?,
    ok_bind]
  cases right.cut s (rightStart s count) count <;> rfl

theorem cuts_substring : substring.Cuts [.string s, .integer position, .integer count] s position count := by
  intro out host
  simp only [perform, List.dropLast_concat, compute, stringArgument, integerArgument, Value.string?, Value.integer?,
    ok_bind]
  cases substring.cut s position count <;> rfl

theorem fits_zero : Fits s 0 count ↔ 0 ≤ count.toInt ∧ count.toInt ≤ s.length := by
  rw [Fits, Int32.toInt_zero]
  omega

end

section

variable {s : String} {count : Int32} (hs : s.length < 2147483648)
include hs

/-- In a text that is not too long, the characters at the end start where the others stop. -/
theorem toInt_rightStart (hlow : 0 ≤ count.toInt) (hhigh : count.toInt ≤ s.length) :
    (rightStart s count).toInt = s.length - count.toInt := by
  have hmax : Int32.maxValue.toInt.toNat = 2147483647 := by decide
  have htotal : min (s.length : Int) Int32.maxValue.toInt.toNat = s.length := by
    rw [hmax]
    omega
  unfold rightStart
  dsimp only
  rw [htotal, if_pos ⟨hlow, hhigh⟩]
  exact Int32.toInt_ofInt_of_le (by omega) (by omega)

theorem fits_rightStart : Fits s (rightStart s count) count ↔ 0 ≤ count.toInt ∧ count.toInt ≤ s.length := by
  by_cases hcount : 0 ≤ count.toInt ∧ count.toInt ≤ s.length
  · rw [Fits, toInt_rightStart hs hcount.1 hcount.2]
    omega
  · -- whatever the position is, so many characters do not fit behind it
    rw [Fits]
    omega

end

/-- The three functions that cut a text take their parts exactly where these are there, and refuse everything else. The
first characters and the last are parts at the start and at the end, and a part between what is left and what is right
of it is the text. -/
theorem text_parts (s : String) (hs : s.length < 2147483648) (i n : Int32) :
    ((∃ t, left.Puts [.string s, .integer n] t) ↔ 0 ≤ n.toInt ∧ n.toInt ≤ s.length) ∧
    ((∃ t, right.Puts [.string s, .integer n] t) ↔ 0 ≤ n.toInt ∧ n.toInt ≤ s.length) ∧
    ((∃ t, substring.Puts [.string s, .integer i, .integer n] t) ↔
      0 ≤ i.toInt ∧ 0 ≤ n.toInt ∧ i.toInt + n.toInt ≤ s.length) ∧
    (∀ t, left.Puts [.string s, .integer n] t → substring.Puts [.string s, .integer 0, .integer n] t) ∧
    (∀ t, right.Puts [.string s, .integer n] t →
      ∃ j : Int32, j.toInt = s.length - n.toInt ∧ substring.Puts [.string s, .integer j, .integer n] t) ∧
    (∀ t, substring.Puts [.string s, .integer i, .integer n] t →
      ∃ (m : Int32) (l r : String), m.toInt = s.length - i.toInt - n.toInt ∧ left.Puts [.string s, .integer i] l ∧
        right.Puts [.string s, .integer m] r ∧ l ++ t ++ r = s ∧ t.length = n.toInt) ∧
    ((∃ t, left.Puts [.string s, .integer n] t) ∨ left.Refuses [.string s, .integer n]) ∧
    ((∃ t, right.Puts [.string s, .integer n] t) ∨ right.Refuses [.string s, .integer n]) ∧
    ((∃ t, substring.Puts [.string s, .integer i, .integer n] t) ∨
      substring.Refuses [.string s, .integer i, .integer n]) := by
  refine ⟨?_, ?_, (cuts_substring s i n).exists_puts_iff, fun t ht => ?_, fun t ht => ?_, fun t ht => ?_,
    (cuts_left s n).puts_or_refuses, (cuts_right s n).puts_or_refuses, (cuts_substring s i n).puts_or_refuses⟩
  · rw [(cuts_left s n).exists_puts_iff, fits_zero]
  · rw [(cuts_right s n).exists_puts_iff, fits_rightStart hs]
  · rw [(cuts_left s n).puts_iff] at ht
    exact (cuts_substring s 0 n).puts_iff.mpr ht
  · rw [(cuts_right s n).puts_iff] at ht
    obtain ⟨hlow, hhigh⟩ := (fits_rightStart hs).mp ht.1
    exact ⟨_, toInt_rightStart hs hlow hhigh, (cuts_substring s _ n).puts_iff.mpr ht⟩
  · obtain ⟨hfits, rfl⟩ := (cuts_substring s i n).puts_iff.mp ht
    obtain ⟨hi, hn, hsum⟩ := hfits
    obtain ⟨m, hm⟩ : ∃ m : Int32, m.toInt = s.length - i.toInt - n.toInt :=
      ⟨.ofInt (s.length - i.toInt - n.toInt), Int32.toInt_ofInt_of_le (by omega) (by omega)⟩
    have hstart : (rightStart s m).toInt = s.length - m.toInt := toInt_rightStart hs (by omega) (by omega)
    refine ⟨m, _, _, hm, (cuts_left s i).puts_iff.mpr ⟨?_, rfl⟩, (cuts_right s m).puts_iff.mpr ⟨?_, rfl⟩, ?_, ?_⟩
    · exact (fits_zero s i).mpr ⟨hi, by omega⟩
    · exact (fits_rightStart hs).mpr ⟨by omega, by omega⟩
    · have hposition : (rightStart s m).toInt.toNat = i.toInt.toNat + n.toInt.toNat := by omega
      have hcount : m.toInt.toNat = s.length - (i.toInt.toNat + n.toInt.toNat) := by omega
      rw [hposition, hcount, Int32.toInt_zero]
      exact textPart_append s _ _
    · rw [length_textPart (by omega)]
      omega

/-- The middle of three letters, the first two of which take two bytes each. -/
theorem text_parts_umlaut :
    substring.Puts [.string "öße", .integer 1, .integer 1] "ß" ∧
      ∃ (m : Int32) (l r : String), m.toInt = 1 ∧ left.Puts [.string "öße", .integer 1] l ∧
        right.Puts [.string "öße", .integer m] r ∧ l ++ "ß" ++ r = "öße" := by
  have hputs : substring.Puts [.string "öße", .integer 1, .integer 1] "ß" := fun _ _ => rfl
  obtain ⟨-, -, -, -, -, hparts, -⟩ := text_parts "öße" (by decide) 1 1
  obtain ⟨m, l, r, hm, hl, hr, happend, -⟩ := hparts _ hputs
  exact ⟨hputs, m, l, r, hm, hl, hr, happend⟩

end Builtin

end Offside
