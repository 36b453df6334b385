import Offside.Proofs.Spelling

/-!
# The texts of numbers

A real that is read from digits has no sign. A finite real is written as digits, a point and digits, behind a minus
sign if it has one: the fewest digits of a real that is no whole number reach below the point, since no whole number is
as near to it as half a step.
-/

namespace Offside.Decimal

/-! ### Signs -/

open Float.Model (Format UnpackedFloat)
open Float.Model.UnpackedFloat (Sign)

/-- No minus sign. -/
def Unsigned : UnpackedFloat → Prop
  | .notANumber => True
  | .infinity s | .zero s | .finite s _ _ _ => s = .positive

theorem isNegative_eq_false_iff {x : Float32} : isNegative x = false ↔ x.toBits.toNat < 0x80000000 := by
  have hlt := x.toBits.toNat_lt
  rw [isNegative, decide_eq_false_iff_not, ← UInt32.toNat_inj, UInt32.toNat_shiftRight]
  have hshift : x.toBits.toNat >>> ((31 : UInt32).toNat % 32) = x.toBits.toNat / 2 ^ 31 := Nat.shiftRight_eq_div_pow ..
  rw [hshift]
  change ¬ x.toBits.toNat / 2 ^ 31 = 1 ↔ _
  omega

theorem toNat_packComponents_lt (exponent : BitVec 8) (mantissa : BitVec 23) :
    (UnpackedFloat.packComponents Format.binary32 .positive exponent mantissa).toNat < 0x80000000 := by
  have hmsb : (UnpackedFloat.packComponents Format.binary32 .positive exponent mantissa).msb = false := by
    rw [UnpackedFloat.packComponents, BitVec.msb_append, BitVec.msb_append]
    rfl
  exact BitVec.toNat_lt_of_msb_false hmsb

theorem isNegative_pack {f : UnpackedFloat} (h : Unsigned f) : isNegative (.ofModel (.pack f)) = false := by
  rw [isNegative_eq_false_iff]
  change (UnpackedFloat.pack Format.binary32 f).toNat < 0x80000000
  cases f with
  | notANumber => exact toNat_packComponents_lt _ _
  | infinity s => cases h; exact toNat_packComponents_lt _ _
  | zero s => cases h; exact toNat_packComponents_lt _ _
  | finite s m e hm =>
    cases h
    delta UnpackedFloat.pack
    dsimp only
    split
    · exact toNat_packComponents_lt _ _
    · split <;> exact toNat_packComponents_lt _ _

theorem unsigned_dite {p : Prop} [Decidable p] {f : p → UnpackedFloat} {g : ¬ p → UnpackedFloat}
    (hf : ∀ h, Unsigned (f h)) (hg : ∀ h, Unsigned (g h)) : Unsigned (dite p f g) := by
  split
  · exact hf _
  · exact hg _

theorem unsigned_unpack {x : Float32} (h : isNegative x = false) : Unsigned x.toModel.unpack := by
  have hbits : x.toModel.toBits.toBitVec.toNat < 0x80000000 := isNegative_eq_false_iff.mp h
  have hsign : @UnpackedFloat.unpackSign Format.binary32 x.toModel.toBits.toBitVec = 0#1 := by
    delta UnpackedFloat.unpackSign
    rw [← BitVec.toNat_inj, BitVec.toNat_cast, BitVec.extractLsb_toNat, Nat.shiftRight_eq_div_pow]
    change x.toModel.toBits.toBitVec.toNat / 2 ^ 31 % 2 ^ 1 = 0
    omega
  delta Float32.Model.unpack UnpackedFloat.unpack
  generalize UnpackedFloat.unpackSign _ = sign at hsign ⊢
  subst hsign
  exact unsigned_dite (fun _ => unsigned_dite (fun _ => rfl) fun _ => trivial)
    fun _ => unsigned_dite (fun _ => unsigned_dite (fun _ => rfl) fun _ => rfl) fun _ => rfl

theorem unsigned_roundWithAccuracy (m : Nat) (e : Int) (accuracy : UnpackedFloat.Accuracy) :
    Unsigned (UnpackedFloat.roundWithAccuracy Format.binary32 .positive m e accuracy) := by
  rw [UnpackedFloat.roundWithAccuracy]
  exact unsigned_dite (fun _ => rfl) fun _ => rfl

theorem unsigned_mul {f g : UnpackedFloat} (hf : Unsigned f) (hg : Unsigned g) :
    Unsigned (UnpackedFloat.mul Format.binary32 f g) := by
  cases f <;> cases g <;> first | trivial | (cases hf; cases hg; rfl) | skip
  cases hf
  cases hg
  exact unsigned_roundWithAccuracy _ _ _

theorem unsigned_div {f g : UnpackedFloat} (hf : Unsigned f) (hg : Unsigned g) :
    Unsigned (UnpackedFloat.div Format.binary32 f g) := by
  cases f <;> cases g <;> first | trivial | (cases hf; cases hg; rfl) | skip
  cases hf
  cases hg
  exact unsigned_roundWithAccuracy _ _ _

theorem isNegative_toFloat32 (n : UInt64) : isNegative n.toFloat32 = false := by
  refine isNegative_pack ?_
  rw [UnpackedFloat.ofUInt64, UnpackedFloat.ofNat, UnpackedFloat.ofInt, UnpackedFloat.normalize]
  split
  · rename_i h
    have := Int.compare_eq_lt.mp h
    omega
  · rfl
  · exact unsigned_roundWithAccuracy _ _ _

theorem isNegative_powersOfTen : ∀ i : Fin Float32.exactlyRepresentablePowersOfTen.size,
    isNegative Float32.exactlyRepresentablePowersOfTen[i] = false := by
  decide

theorem unsigned_ofScientific (m : Nat) (e : Int) :
    Unsigned (UnpackedFloat.ofScientific Format.binary32 m e) := by
  rw [UnpackedFloat.ofScientific]
  refine unsigned_dite (fun _ => rfl) fun hm => ?_
  refine unsigned_dite (fun _ => rfl) fun _ => unsigned_dite (fun _ => rfl) fun _ => ?_
  refine unsigned_dite (fun _ => unsigned_mul ?_ ?_) fun _ => unsigned_div ?_ ?_ <;> rfl

theorem isNegative_ofScientific (m : Nat) (s : Bool) (e : Nat) :
    isNegative (Float32.ofScientific m s e) = false := by
  rw [Float32.ofScientific]
  split
  · rename_i h
    have hm := unsigned_unpack (isNegative_toFloat32 m.toUInt64)
    have hpower := unsigned_unpack (isNegative_powersOfTen ⟨e, Nat.lt_succ_of_le h.2⟩)
    dsimp only
    split
    · exact isNegative_pack (unsigned_div hm hpower)
    · exact isNegative_pack (unsigned_mul hm hpower)
  · exact isNegative_pack (unsigned_ofScientific _ _)

theorem isNegative_nearest (digits : Nat) (exponent : Int) : isNegative (nearest digits exponent) = false := by
  unfold nearest
  simp only
  split
  · decide
  split
  · decide +kernel
  · exact isNegative_ofScientific _ _ _

/-! ### Fewest digits -/

/-- What is moved into the exponent is a power of ten. -/
theorem dropZeros_spec (digits : Nat) (exponent : Int) (n : Nat) :
    ∃ moved : Nat, (dropZeros digits exponent n).exponent = exponent + moved ∧
      digits = (dropZeros digits exponent n).digits * Nat.pow 10 moved := by
  induction n generalizing digits exponent with
  | zero => exact ⟨0, by simp [dropZeros], by simp [dropZeros]⟩
  | succ n ih =>
    rw [dropZeros]
    split
    · rename_i h
      obtain ⟨moved, hexponent, hdigits⟩ := ih (digits / 10) (exponent + 1)
      refine ⟨moved + 1, by rw [hexponent]; omega, ?_⟩
      change digits = _ * (Nat.pow 10 moved * 10)
      rw [← Nat.mul_assoc, ← hdigits]
      omega
    · exact ⟨0, by simp, by simp⟩

/-- How far below a magnitude a decimal may lie, in quarters of a unit. -/
def gapBelow (x : Magnitude) (e : Expansion) : Nat :=
  if x.narrowBelow then e.step else 2 * e.step

theorem gapBelow_pos (x : Magnitude) {e : Expansion} (h : 0 < e.step) : 0 < gapBelow x e := by
  rw [gapBelow]
  split <;> omega

theorem gapBelow_le (x : Magnitude) (e : Expansion) : gapBelow x e ≤ 2 * e.step := by
  rw [gapBelow]
  split <;> omega

/-- A decimal lies between the middles to the two next reals, and on one of them only if the mantissa is even. -/
structure IsNear (x : Magnitude) (e : Expansion) (value : Nat) : Prop where
  low : 4 * e.units ≤ 4 * value + gapBelow x e
  high : 4 * value ≤ 4 * e.units + 2 * e.step
  lowTie : 4 * e.units = 4 * value + gapBelow x e → x.mantissa % 2 = 0
  highTie : 4 * value = 4 * e.units + 2 * e.step → x.mantissa % 2 = 0

theorem withinGap_eq_true {included : Bool} {distance gap : Nat} :
    withinGap included distance gap = true ↔ distance < gap ∨ included = true ∧ distance = gap := by
  simp [withinGap]

theorem isNear_neighbour {tie : Tie} {x : Magnitude} {e : Expansion} {cut digits : Nat} (hstep : 0 < e.step)
    (h : neighbour? tie x e cut = some digits) : IsNear x e (digits * Nat.pow 10 cut) := by
  have hgrid : e.units = e.units / Nat.pow 10 cut * Nat.pow 10 cut + e.units % Nat.pow 10 cut :=
    (Nat.div_add_mod' ..).symm
  have hrest : e.units % Nat.pow 10 cut < Nat.pow 10 cut := Nat.mod_lt _ (Nat.pow_pos (by decide))
  have hgap := gapBelow_pos x hstep
  have hfold : (if x.narrowBelow then e.step else 2 * e.step) = gapBelow x e := rfl
  simp only [neighbour?, hfold] at h
  split at h
  · rename_i hfits
    have hhigh := withinGap_eq_true.mp (Bool.and_eq_true_iff.mp hfits).1
    rw [decide_eq_true_eq] at hhigh
    cases h
    rw [Nat.add_mul, Nat.one_mul]
    constructor <;> omega
  · split at h
    · rename_i hfits
      have hlow := withinGap_eq_true.mp hfits
      rw [decide_eq_true_eq] at hlow
      cases h
      constructor <;> omega
    · cases h

theorem isNear_shortestFrom (tie : Tie) (x : Magnitude) {e : Expansion} (hstep : 0 < e.step) (cut : Nat) :
    IsNear x e ((shortestFrom tie x e cut).1 * Nat.pow 10 (shortestFrom tie x e cut).2) := by
  induction cut with
  | zero =>
    have hgap := gapBelow_pos x hstep
    simp only [shortestFrom, Nat.pow_eq, Nat.pow_zero, Nat.mul_one]
    constructor <;> omega
  | succ cut ih =>
    rw [shortestFrom]
    split
    · rename_i digits h
      exact isNear_neighbour hstep h
    · exact ih

/-- The fewest digits stand for a decimal near the magnitude. -/
theorem isNear_shortest (tie : Tie) (x : Magnitude) (hstep : 0 < x.expansion.step) :
    ∃ up : Nat, (shortest tie x).exponent = x.expansion.exponent + up ∧
      IsNear x x.expansion ((shortest tie x).digits * Nat.pow 10 up) := by
  have hnear := isNear_shortestFrom tie x hstep (digitCount x.expansion.units - 1)
  generalize hchosen : shortestFrom tie x x.expansion (digitCount x.expansion.units - 1) = chosen at hnear
  obtain ⟨digits, cut⟩ := chosen
  obtain ⟨moved, hexponent, hdigits⟩ :=
    dropZeros_spec digits (x.expansion.exponent + cut) (digitCount x.expansion.units)
  have hshortest : shortest tie x =
      dropZeros digits (x.expansion.exponent + cut) (digitCount x.expansion.units) := by
    rw [shortest, hchosen]
  rw [← hshortest] at hexponent hdigits
  refine ⟨cut + moved, by omega, ?_⟩
  have hvalue : digits * Nat.pow 10 cut = (shortest tie x).digits * Nat.pow 10 (cut + moved) := by
    rw [hdigits, Nat.pow_eq, Nat.pow_eq, Nat.pow_eq, Nat.mul_assoc, ← Nat.pow_add, Nat.add_comm moved]
  rwa [← hvalue]

theorem expansion_of_neg {x : Magnitude} {k : Nat} (h : x.exponent = -k) (hk : 0 < k) :
    x.expansion = ⟨x.mantissa * Nat.pow 5 k, -k, Nat.pow 5 k⟩ := by
  rw [Magnitude.expansion, if_neg (by omega), h]
  simp

theorem exponent_neg {x : Magnitude} (h : x.isWhole = false) : x.exponent < 0 := by
  rcases Int.lt_or_le x.exponent 0 with hlt | hle
  · exact hlt
  · have hzero : (-x.exponent).toNat = 0 := by omega
    rw [Magnitude.isWhole, hzero] at h
    simp [Nat.mod_one] at h

/-- The fewest digits of what is no whole number reach below the point. -/
theorem exponent_shortest_neg (tie : Tie) {x : Magnitude} (h : x.isWhole = false) : (shortest tie x).exponent < 0 := by
  have hexponent := exponent_neg h
  obtain ⟨k, hk⟩ : ∃ k : Nat, x.exponent = -k := ⟨(-x.exponent).toNat, by omega⟩
  have hwhole : ¬ x.mantissa % 2 ^ k = 0 := by
    have hk : (-x.exponent).toNat = k := by omega
    rw [Magnitude.isWhole, hk] at h
    simpa using h
  have hexpansion := expansion_of_neg hk (by omega)
  have hpower : 0 < 5 ^ k := Nat.pow_pos (by decide)
  obtain ⟨up, hup, hnear⟩ := isNear_shortest tie x (by rw [hexpansion]; exact hpower)
  have hgap := gapBelow_le x x.expansion
  have hlow := hnear.low
  have hhigh := hnear.high
  simp only [hexpansion, Nat.pow_eq] at hup hlow hhigh hgap
  rcases Int.lt_or_le (shortest tie x).exponent 0 with hneg | hpos
  · exact hneg
  · exfalso
    -- Without a fraction the decimal is a whole number, and it is the magnitude itself.
    obtain ⟨rest, rfl⟩ : ∃ rest, up = rest + k := ⟨up - k, by omega⟩
    have hvalue : (shortest tie x).digits * 10 ^ (rest + k) = (shortest tie x).digits * 10 ^ rest * 2 ^ k * 5 ^ k := by
      rw [Nat.pow_add, Nat.mul_assoc _ (2 ^ k), ← Nat.mul_pow, Nat.mul_assoc]
    rw [hvalue] at hlow hhigh
    generalize (shortest tie x).digits * 10 ^ rest = n at hlow hhigh
    have hle : 2 * x.mantissa ≤ 2 * (n * 2 ^ k) + 1 := by
      refine Nat.le_of_mul_le_mul_right ?_ hpower
      rw [Nat.add_mul, Nat.one_mul, Nat.mul_assoc, Nat.mul_assoc 2 (n * 2 ^ k)]
      omega
    have hge : 2 * (n * 2 ^ k) ≤ 2 * x.mantissa + 1 := by
      refine Nat.le_of_mul_le_mul_right ?_ hpower
      rw [Nat.add_mul, Nat.one_mul, Nat.mul_assoc, Nat.mul_assoc 2 x.mantissa]
      omega
    refine hwhole ?_
    rw [show x.mantissa = n * 2 ^ k by omega, Nat.mul_mod_left]

/-! ### Texts -/

theorem toList_toString (n : Nat) : (toString n).toList = Nat.toDigits 10 n := by
  rw [Nat.toString_eq_repr, Nat.toList_repr]

theorem isDigit_toDigits {n : Nat} {c : Char} (h : c ∈ Nat.toDigits 10 n) : c.isDigit = true :=
  Nat.isDigit_of_mem_toDigits (by decide) (by decide) h

theorem digitsValue_toDigits (n : Nat) : digitsValue (Nat.toDigits 10 n) = n := by
  have hfold : ∀ cs, digitsValue cs = Nat.ofDigitChars 10 cs 0 := fun cs => Nat.ofDigitChars_eq_foldl.symm
  rw [hfold, Nat.ofDigitChars_ten_toDigits]

/-- Digits, of which there is at least one. -/
def IsDigits (cs : List Char) : Prop :=
  cs ≠ [] ∧ ∀ c ∈ cs, c.isDigit = true

theorem isDigits_toDigits (n : Nat) : IsDigits (Nat.toDigits 10 n) :=
  ⟨Nat.toDigits_ne_nil, fun _ => isDigit_toDigits⟩

theorem digitsValue_zeros (n : Nat) (cs : List Char) : digitsValue (List.replicate n '0' ++ cs) = digitsValue cs := by
  induction n with
  | zero => rfl
  | succ n ih => exact ih

/-- The two sides of the point of a positional text whose last digit is behind the point. -/
theorem placePoint_spec (n : Nat) {exponent : Int} (h : exponent < 0) :
    ∃ whole fraction, IsDigits whole ∧ IsDigits fraction ∧
      (placePoint false (toString n) (exponent + (toString n).length)).toList = whole ++ '.' :: fraction ∧
      digitsValue (whole ++ fraction) = n ∧ (fraction.length : Int) = -exponent := by
  have hsize : (toString n).length = (Nat.toDigits 10 n).length := by
    rw [← String.length_toList, toList_toString]
  have hdigits := isDigits_toDigits n
  rw [placePoint, hsize]
  generalize hbefore : exponent + (Nat.toDigits 10 n).length = before
  dsimp only
  split
  · refine ⟨['0'], List.replicate (-before).toNat '0' ++ Nat.toDigits 10 n, by simp [IsDigits], ⟨?_, ?_⟩, ?_, ?_, ?_⟩
    · simp [hdigits.1]
    · intro c hc
      rcases List.mem_append.mp hc with hc | hc
      · rw [List.eq_of_mem_replicate hc]
        rfl
      · exact hdigits.2 c hc
    · simp [zeros]
    · exact (digitsValue_zeros ((-before).toNat + 1) _).trans (digitsValue_toDigits n)
    · rw [List.length_append, List.length_replicate]
      omega
  · rw [if_neg (by omega)]
    refine ⟨(Nat.toDigits 10 n).take before.toNat, (Nat.toDigits 10 n).drop before.toNat, ⟨?_, ?_⟩, ⟨?_, ?_⟩,
      ?_, ?_, ?_⟩
    · rw [ne_eq, List.take_eq_nil_iff]
      rintro (hzero | hnil)
      · omega
      · exact hdigits.1 hnil
    · exact fun c hc => hdigits.2 c (List.mem_of_mem_take hc)
    · rw [ne_eq, List.drop_eq_nil_iff]
      omega
    · exact fun c hc => hdigits.2 c (List.mem_of_mem_drop hc)
    · simp
    · rw [List.take_append_drop, digitsValue_toDigits]
    · rw [List.length_drop]
      omega

def signChars (x : Float32) : List Char :=
  if isNegative x then ['-'] else []

/-- The decimal `digits / 10 ^ places` that a finite real is written as. -/
def IsSpelled (x : Float32) (digits places : Nat) : Prop :=
  if isWhole x then digits = (magnitude x).floor * 10 ∧ places = 1
  else digits = (shortest .upward (magnitude x)).digits ∧
    (places : Int) = -(shortest .upward (magnitude x)).exponent

/-- How a finite real is written. -/
theorem spell_spec {x : Float32} (h : x.isFinite = true) :
    ∃ whole fraction, IsDigits whole ∧ IsDigits fraction ∧
      (spell x).toList = signChars x ++ (whole ++ '.' :: fraction) ∧
      IsSpelled x (digitsValue (whole ++ fraction)) fraction.length := by
  have hsign : (if isNegative x then "-" else "").toList = signChars x := by
    rw [signChars]
    split <;> rfl
  by_cases hwhole : isWhole x = true
  · refine ⟨_, ['0'], isDigits_toDigits (magnitude x).floor, by simp [IsDigits], ?_, ?_⟩
    · simp [spell, hwhole, hsign]
    · rw [IsSpelled, if_pos hwhole, digitsValue, List.foldl_append]
      change 10 * digitsValue _ + 0 = _ ∧ 1 = 1
      rw [digitsValue_toDigits]
      omega
  · rw [spell, if_neg hwhole]
    have hspelled : ∀ {n places : Nat}, n = (shortest .upward (magnitude x)).digits →
        (places : Int) = -(shortest .upward (magnitude x)).exponent → IsSpelled x n places := by
      intro n places hn hplaces
      rw [IsSpelled, if_neg hwhole]
      exact ⟨hn, hplaces⟩
    have hwhole : (magnitude x).isWhole = false := by simpa [isWhole, h] using hwhole
    have hnan : x.isNaN = false := by
      revert h
      change x.toModel.unpack.isFinite = true → x.toModel.unpack.isNaN = false
      cases x.toModel.unpack <;> first | exact fun _ => rfl | exact nofun
    have hinf : x.isInf = false := by
      revert h
      change x.toModel.unpack.isFinite = true → x.toModel.unpack.isInf = false
      cases x.toModel.unpack <;> first | exact fun _ => rfl | exact nofun
    have hmantissa : (magnitude x).mantissa ≠ 0 := by
      intro hzero
      rw [Magnitude.isWhole, hzero] at hwhole
      simp at hwhole
    have hneg := exponent_shortest_neg .upward hwhole
    obtain ⟨whole, fraction, hw, hf, htext, hvalue, hplaces⟩ :=
      placePoint_spec (shortest .upward (magnitude x)).digits hneg
    refine ⟨whole, fraction, hw, hf, ?_, hspelled hvalue hplaces⟩
    simp only [Notation.write, hnan, hinf, Notation.ofMagnitude, if_neg hmantissa, Notation.isPlain,
      Notation.positional, Bool.false_eq_true, if_false, if_true, String.toList_append, hsign, Int.sub_add_cancel,
      htext]

theorem readDecimal?_point {whole fraction : List Char} (hw : IsDigits whole) (hf : IsDigits fraction) :
    readDecimal? (whole ++ '.' :: fraction) = some (ofParts whole fraction) := by
  have hpoint : ∀ c ∈ ('.' :: fraction).head?, c.isDigit = false := by
    rintro c ⟨⟩
    rfl
  have hnone : ∀ c ∈ ([] : List Char).head?, c.isDigit = false := nofun
  obtain ⟨htake, hdrop⟩ := takeWhile_dropWhile_append hw.2 hpoint
  obtain ⟨htake', hdrop'⟩ := takeWhile_dropWhile_append hf.2 hnone
  rw [List.append_nil] at htake' hdrop'
  simp only [readDecimal?, htake, hdrop, htake', hdrop', hw.1, false_and, if_false, readExponent?, Option.map_some,
    ofParts, Int.zero_sub]

/-- Digits, a point and digits are read as the real they stand for, with the sign in front of them. -/
theorem readReal?_point {x : Float32} {whole fraction : List Char} (hw : IsDigits whole) (hf : IsDigits fraction) :
    readReal? (.ofList (signChars x ++ (whole ++ '.' :: fraction))) =
      some (if isNegative x then -(ofParts whole fraction) else ofParts whole fraction) := by
  obtain ⟨c, cs, rfl⟩ := List.exists_cons_of_ne_nil hw.1
  have hc : c.isDigit = true := hw.2 c (by simp)
  have hsplit : splitSign (signChars x ++ (c :: cs ++ '.' :: fraction)) =
      (isNegative x, c :: cs ++ '.' :: fraction) := by
    rw [signChars]
    split
    · rename_i hneg
      rw [hneg]
      rfl
    · rename_i hneg
      have hminus : c ≠ '-' := by rintro rfl; cases hc
      have hplus : c ≠ '+' := by rintro rfl; cases hc
      rw [Bool.not_eq_true] at hneg
      simp [splitSign, hminus, hplus, hneg]
  have hlower : c.toLower = c := by
    delta Char.toLower
    rw [dif_neg]
    simp only [Char.isDigit, Bool.and_eq_true, decide_eq_true_eq, ge_iff_le, UInt32.le_iff_toNat_le] at hc ⊢
    have hnine : '9'.val.toNat = 57 := rfl
    have hupper : 'A'.val.toNat = 65 := rfl
    omega
  have hword : ∀ {d : Char} {word : String}, word.toList.head? = some d → d.isDigit = false →
      String.ofList ((c :: cs ++ '.' :: fraction).map Char.toLower) ≠ word := by
    rintro d word hhead hd rfl
    simp only [String.toList_ofList, List.cons_append, List.map_cons, List.head?_cons, hlower] at hhead
    cases hhead
    cases hc.symm.trans hd
  rw [readReal?, String.toList_ofList, hsplit]
  refine (congrArg (Option.map fun y => if isNegative x then -y else y) ?_ :
    _ = Option.map _ (some (ofParts (c :: cs) fraction)))
  split
  · rename_i hinf
    exact absurd hinf (hword (show "inf".toList.head? = some 'i' from rfl) rfl)
  · rename_i hinfinity
    exact absurd hinfinity (hword (show "infinity".toList.head? = some 'i' from rfl) rfl)
  · rename_i hnan
    exact absurd hnan (hword (show "nan".toList.head? = some 'n' from rfl) rfl)
  · exact readDecimal?_point hw hf

end Offside.Decimal
