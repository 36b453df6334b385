import Offside.Proofs.RealBits

/-!
# Reading a real back

The text of a finite real is read as that real, to the bit. A decimal is read as the real nearest to it, whether it is
computed by one division of exact reals or in full, and the fewest digits that are near enough to a real round to it.
-/

namespace Offside.Decimal

open Float.Model (Format UnpackedFloat)
open Float.Model.UnpackedFloat

/-! ### Reading a decimal -/

theorem roundsToReal_self {m q : Nat} (h : IsReal m q) : RoundsToReal (m * 2 ^ q) 1 m q := by
  refine .inside h.pos h.lt (h.normal.imp_left fun hlow => ?_) ⟨?_, ?_, ?_, ?_⟩
  · rw [Nat.mul_one, Nat.pow_add]
    exact Nat.mul_le_mul_right _ hlow
  all_goals
    have := Nat.two_pow_pos q
    rw [Nat.one_mul]
    omega

theorem unpack_eq {x : Float32} (h : x.isFinite = true) (hm : (magnitude x).mantissa ≠ 0) :
    ∃ q : Nat, ∃ hpos, (magnitude x).exponent = q - 149 ∧
      x.toModel.unpack = .finite (signOf x) (magnitude x).mantissa (q - 149) hpos := by
  obtain ⟨q, hexponent, -, hreal, heq⟩ := eq_pack h hm
  refine ⟨q, hreal.pos, hexponent, ?_⟩
  rw [← unpack_pack hreal]
  exact congrArg (fun y : Float32 => y.toModel.unpack) heq

/-- A real whose unpacked form is a whole number of units, exactly. -/
def HasValue (x : Float32) (a : Nat) : Prop :=
  ∃ m q : Nat, ∃ hm : 0 < m, x.toModel.unpack = .finite .positive m (q - 149) hm ∧ 126 ≤ q ∧ q ≤ 159 ∧
    m * 2 ^ q = a * 2 ^ 149

theorem hasValue_powersOfTen {e : Nat} (h : e < Float32.exactlyRepresentablePowersOfTen.size) :
    HasValue Float32.exactlyRepresentablePowersOfTen[e] (10 ^ e) := by
  have hexact : ∀ i : Fin Float32.exactlyRepresentablePowersOfTen.size,
      let x := getElem Float32.exactlyRepresentablePowersOfTen i.val i.isLt
      x.isFinite = true ∧ (magnitude x).mantissa ≠ 0 ∧ isNegative x = false ∧ -23 ≤ (magnitude x).exponent ∧
        (magnitude x).exponent ≤ 10 ∧
        (magnitude x).mantissa * 2 ^ ((magnitude x).exponent + 149).toNat = 10 ^ i.val * 2 ^ 149 := by
    decide +kernel
  obtain ⟨i, rfl⟩ : ∃ i : Fin Float32.exactlyRepresentablePowersOfTen.size, i.val = e := ⟨⟨e, h⟩, rfl⟩
  obtain ⟨hfinite, hm, hsign, hlow, hhigh, hvalue⟩ := hexact i
  obtain ⟨q, hpos, hexponent, hunpack⟩ := unpack_eq hfinite hm
  rw [signOf, hsign] at hunpack
  have hq : ((magnitude Float32.exactlyRepresentablePowersOfTen[i.val]).exponent + 149).toNat = q := by omega
  rw [hq] at hvalue
  exact ⟨_, q, hpos, hunpack, by omega, by omega, hvalue⟩

theorem isReal_scaled {n : Nat} (hn : 0 < n) (hlt : n < 2 ^ 23) :
    IsReal (n * 2 ^ (23 - n.log2)) (126 + n.log2) := by
  have hlog : n.log2 < 23 := (Nat.log2_lt hn.ne').mpr hlt
  have hlow : 2 ^ 23 ≤ n * 2 ^ (23 - n.log2) := by
    calc 2 ^ 23 = 2 ^ n.log2 * 2 ^ (23 - n.log2) := by rw [← Nat.pow_add]; congr 1; omega
      _ ≤ _ := Nat.mul_le_mul_right _ (Nat.log2_self_le hn.ne')
  have hhigh : n * 2 ^ (23 - n.log2) < 2 ^ 24 := by
    calc n * 2 ^ (23 - n.log2) < 2 ^ (n.log2 + 1) * 2 ^ (23 - n.log2) :=
          Nat.mul_lt_mul_of_pos_right Nat.lt_log2_self (Nat.two_pow_pos _)
      _ = 2 ^ 24 := by rw [← Nat.pow_add]; congr 1; omega
  exact ⟨by omega, hhigh, by omega, .inl hlow⟩

/-- Digits that fit into a mantissa are converted as they are. -/
theorem ofUInt64_eq {n : Nat} (hn : 0 < n) (hlt : n < 2 ^ 23) :
    UnpackedFloat.ofUInt64 .binary32 n.toUInt64 =
      .finite .positive (n * 2 ^ (23 - n.log2)) ((126 + n.log2 : Nat) - 149) (isReal_scaled hn hlt).pos := by
  have hlog : n.log2 < 23 := (Nat.log2_lt hn.ne').mpr hlt
  have hreal := isReal_scaled hn hlt
  have hnat : n.toUInt64.toNat = n := Nat.mod_eq_of_lt (by omega)
  have hcompare : compare (n : Int) 0 = .gt := Int.compare_eq_gt.mpr (by omega)
  have htarget : Format.binary32.targetExponent (Float.Model.totalExponent n 0) = n.log2 - 23 := by
    change max ((n.log2 + 1 + 0 : Int) - 24) (-149) = _
    omega
  have hshift : ((0 : Int) - (n.log2 - 23)).toNat = 23 - n.log2 := by omega
  have hexponent : (0 : Int) - (23 - n.log2 : Nat) = (126 + n.log2 : Nat) - 149 := by omega
  have hfine : 2 ^ 23 ≤ n * 2 ^ (23 - n.log2) / 1 := by
    rw [Nat.div_one]
    exact hreal.normal.resolve_right (by omega)
  have hround := roundWithAccuracy_eq .positive Nat.one_pos (.inl hfine) (roundsToReal_self hreal)
  rw [Nat.div_one, Nat.mod_one] at hround
  rw [UnpackedFloat.ofUInt64, hnat, UnpackedFloat.ofNat, UnpackedFloat.ofInt, UnpackedFloat.normalize, hcompare]
  dsimp only
  rw [Int.toNat_natCast, UnpackedFloat.round, htarget, decreaseExponent, hshift, Nat.shiftLeft_eq, hexponent]
  exact hround

theorem hasValue_toFloat32 {n : Nat} (hn : 0 < n) (hlt : n < 2 ^ 23) : HasValue n.toUInt64.toFloat32 n := by
  have hlog : n.log2 < 23 := (Nat.log2_lt hn.ne').mpr hlt
  refine ⟨_, 126 + n.log2, (isReal_scaled hn hlt).pos, ?_, by omega, by omega, ?_⟩
  · change (Float32.Model.pack (UnpackedFloat.ofUInt64 .binary32 n.toUInt64)).unpack = _
    rw [ofUInt64_eq hn hlt]
    exact unpack_pack (isReal_scaled hn hlt)
  · rw [Nat.mul_assoc, ← Nat.pow_add]
    congr 2
    omega

theorem div_hasValue {x y : Float32} {a b m q : Nat} (hx : HasValue x a) (hy : HasValue y b) (hb : 0 < b)
    (h : RoundsToReal (a * 2 ^ 149) b m q) :
    x / y = .ofModel (.pack (.finite .positive m (q - 149) h.pos)) := by
  obtain ⟨m₁, q₁, hm₁, hunpack₁, hlow₁, hhigh₁, hvalue₁⟩ := hx
  obtain ⟨m₂, q₂, hm₂, hunpack₂, hlow₂, hhigh₂, hvalue₂⟩ := hy
  have hscaled : RoundsToReal (m₁ * 2 ^ (q₁ + 149 - q₂)) m₂ m q := by
    refine h.congr hb hm₂ (Nat.eq_of_mul_eq_mul_right (Nat.two_pow_pos q₂) ?_)
    have hpower : 2 ^ (q₁ + 149 - q₂) * 2 ^ q₂ = 2 ^ q₁ * 2 ^ 149 := by
      rw [← Nat.pow_add, ← Nat.pow_add, Nat.sub_add_cancel (by omega)]
    calc a * 2 ^ 149 * m₂ * 2 ^ q₂ = m₁ * 2 ^ q₁ * (b * 2 ^ 149) := by rw [hvalue₁, ← hvalue₂]; ring
      _ = m₁ * (2 ^ q₁ * 2 ^ 149) * b := by ring
      _ = m₁ * 2 ^ (q₁ + 149 - q₂) * b * 2 ^ q₂ := by rw [← hpower]; ring
  change Float32.ofModel (.pack (UnpackedFloat.div .binary32 x.toModel.unpack y.toModel.unpack)) = _
  rw [hunpack₁, hunpack₂, div_eq hm₁ hm₂ (by omega) hscaled]

theorem ofScientific_eq_pack {n e m q : Nat} (he : 0 < e) (h : RoundsToReal (n * 2 ^ 149) (10 ^ e) m q) :
    Float32.ofScientific n true e = .ofModel (.pack (.finite .positive m (q - 149) h.pos)) := by
  have hn : 0 < n := by
    have hle := h.le
    have := Nat.pow_pos (n := e) (show 0 < 10 by decide)
    omega
  rw [Float32.ofScientific]
  by_cases hsmall : n < 2 ^ 23 ∧ e ≤ 10
  · rw [dif_pos hsmall]
    have hpower := hasValue_powersOfTen (Nat.lt_succ_of_le hsmall.2)
    exact div_hasValue (hasValue_toFloat32 hn hsmall.1) hpower (by positivity) h
  · have hneg : Int.negOfNat e = -e := Int.negOfNat_eq
    rw [dif_neg hsmall]
    change Float32.ofModel (Float32.Model.ofScientific n (Int.negOfNat e)) = _
    rw [hneg, Float32.Model.ofScientific, ofScientific_eq he h]

/-- The limits beyond which a decimal is not computed do not concern a decimal that rounds to a finite real. -/
theorem nearest_eq {n e m q : Nat} (he : 0 < e) (hq : q ≤ 253) (h : RoundsToReal (n * 2 ^ 149) (10 ^ e) m q) :
    nearest n (-e) = .ofModel (.pack (.finite .positive m (q - 149) h.pos)) := by
  have hle := h.le
  have hlt := h.lt (by positivity)
  have hn : n ≠ 0 := by
    rintro rfl
    have : 0 < 10 ^ e := by positivity
    omega
  have hlength : 0 < (Nat.toDigits 10 n).length := Nat.length_toDigits_pos
  have hbelow : n < 10 ^ (Nat.toDigits 10 n).length := (Nat.length_toDigits_le_iff (by decide) hlength).mp le_rfl
  have hsmall : ¬ ((Nat.toDigits 10 n).length + -e : Int) < -60 := by
    intro hfar
    have hpower : 10 ^ (Nat.toDigits 10 n).length * 10 ^ 61 ≤ 10 ^ e := by
      rw [← Nat.pow_add]
      exact Nat.pow_le_pow_right (by decide) (by omega)
    have hnumbers : 2 ^ 150 ≤ 10 ^ 61 := by decide
    have hscale := Nat.mul_le_mul_left (10 ^ (Nat.toDigits 10 n).length) hnumbers
    omega
  have hlarge : ¬ 60 < ((Nat.toDigits 10 n).length + -e : Int) := by
    intro hfar
    have habove : ¬ n < 10 ^ (e + 60) := by
      rw [← Nat.length_toDigits_le_iff (by decide) (by omega)]
      omega
    have hpower : 2 ^ q * 10 ^ e ≤ 2 ^ 253 * 10 ^ e :=
      Nat.mul_le_mul_right _ (Nat.pow_le_pow_right (by decide) hq)
    rw [Nat.pow_add 2 24 q, Nat.mul_assoc] at hlt
    have hnumbers : 2 ^ 128 ≤ 10 ^ 60 := by decide
    have hscale := Nat.mul_le_mul_left (10 ^ e) hnumbers
    rw [Nat.pow_add] at habove
    omega
  have hsign : decide (-(e : Int) < 0) = true := decide_eq_true (by omega)
  have habs : (-(e : Int)).natAbs = e := by omega
  rw [nearest, if_neg (by simp [hn, hsmall]), if_neg hlarge, hsign, habs]
  exact ofScientific_eq_pack he h

/-! ### The fewest digits -/

/-- A decimal in units of which the mantissa has the step `p`. -/
theorem roundsToReal_inside {value b p m q : Nat} (hreal : IsReal m q) (hscale : b * 2 ^ q = p * 2 ^ 149)
    (h : RoundsTo value p m) (hlow : 0 < q → 2 ^ 23 * p ≤ value) : RoundsToReal (value * 2 ^ 149) b m q := by
  refine .inside hreal.pos hreal.lt ?_ ?_
  · rcases Nat.eq_zero_or_pos q with hzero | hq
    · exact .inr hzero
    · refine .inl ?_
      calc 2 ^ (23 + q) * b = 2 ^ 23 * (b * 2 ^ q) := by rw [Nat.pow_add]; ring
        _ = 2 ^ 23 * p * 2 ^ 149 := by rw [hscale, Nat.mul_assoc]
        _ ≤ value * 2 ^ 149 := Nat.mul_le_mul_right _ (hlow hq)
  · rw [hscale, roundsTo_mul (Nat.two_pow_pos 149)]
    exact h

/-- A decimal below a power of two, in units of which the mantissa above it has the step `p`. -/
theorem roundsToReal_carried {value b p q : Nat} (hscale : b * 2 ^ (q + 1) = p * 2 ^ 149)
    (hlow : 4 * (2 ^ 23 * p) ≤ 4 * value + p) (hlt : value < 2 ^ 23 * p) :
    RoundsToReal (value * 2 ^ 149) b (2 ^ 23) (q + 1) := by
  have hhalf : b * 2 ^ q = p * 2 ^ 148 := by
    rw [Nat.pow_succ, ← Nat.mul_assoc] at hscale
    omega
  have hunit : ∀ n, 2 ^ (n + q) * b = 2 ^ n * (p * 2 ^ 148) := by
    intro n
    rw [← hhalf, Nat.pow_add]
    ring
  refine .carried ?_ (.inl ?_) ?_
  · rw [hunit]
    omega
  · rw [hunit]
    omega
  · have hvalue : value * 2 ^ 149 = 2 * value * 2 ^ 148 := by ring
    rw [hhalf, hvalue, roundsTo_mul (Nat.two_pow_pos 148)]
    exact ⟨by omega, by omega, fun _ => by decide, fun _ => by decide⟩

/-- A decimal near a magnitude that is no whole number. -/
theorem IsNear.roundsToReal {x : Magnitude} {value q k : Nat} (h : IsNear x x.expansion value)
    (hreal : IsReal x.mantissa q) (hexponent : x.exponent = q - 149)
    (hnarrow : x.narrowBelow = true ↔ x.mantissa = 2 ^ 23 ∧ 0 < q) (hk : q + k = 149) (hpos : 0 < k) :
    RoundsToReal (value * 2 ^ 149) (10 ^ k) x.mantissa q := by
  have hexpansion : x.expansion = ⟨x.mantissa * 5 ^ k, -k, 5 ^ k⟩ := expansion_of_neg (by omega) hpos
  rw [hexpansion] at h
  obtain ⟨hlow, hhigh, hlowTie, hhighTie⟩ := h
  have hp : 0 < 5 ^ k := by positivity
  have hscale : 10 ^ k * 2 ^ q = 5 ^ k * 2 ^ 149 := by
    rw [← hk, Nat.pow_add, show 10 = 5 * 2 from rfl, Nat.mul_pow]
    ring
  generalize 5 ^ k = p at *
  have hgap : gapBelow x ⟨x.mantissa * p, -k, p⟩ = if x.narrowBelow then p else 2 * p := rfl
  rw [hgap] at hlow hlowTie
  dsimp only at hlow hhigh hlowTie hhighTie
  by_cases hcarry : x.narrowBelow = true ∧ value < 2 ^ 23 * p
  · obtain ⟨hm, hq⟩ := hnarrow.mp hcarry.1
    obtain ⟨r, rfl⟩ : ∃ r, q = r + 1 := ⟨q - 1, by omega⟩
    rw [hcarry.1, if_pos rfl, hm] at hlow
    rw [hm]
    exact roundsToReal_carried hscale hlow hcarry.2
  · have hgapLe : (if x.narrowBelow = true then p else 2 * p) ≤ 2 * p := by split <;> omega
    refine roundsToReal_inside hreal hscale ⟨?_, ?_, ?_, ?_⟩ fun hq => ?_
    · omega
    · omega
    · intro htie
      exact hlowTie (by omega)
    · intro htie
      exact hhighTie (by omega)
    · have hm : 2 ^ 23 ≤ x.mantissa := hreal.normal.resolve_right hq.ne'
      by_cases heq : x.mantissa = 2 ^ 23
      · exact Nat.le_of_not_lt fun hlt => hcarry ⟨hnarrow.mpr ⟨heq, hq⟩, hlt⟩
      · have hstep : (2 ^ 23 + 1) * p ≤ x.mantissa * p := Nat.mul_le_mul_right _ (by omega)
        omega

/-! ### Reading back -/

theorem floor_mul {x : Magnitude} {q : Nat} (h : x.isWhole = true) (hexponent : x.exponent = q - 149) :
    x.floor * 2 ^ 149 = x.mantissa * 2 ^ q := by
  rw [Magnitude.isWhole, decide_eq_true_eq, Nat.pow_eq] at h
  rw [Magnitude.floor, Nat.pow_eq, Nat.pow_eq]
  have hdvd : 2 ^ (-x.exponent).toNat ∣ x.mantissa * 2 ^ x.exponent.toNat :=
    (Nat.dvd_of_mod_eq_zero h).mul_right _
  obtain ⟨up, down, hup, hdown, hsum⟩ : ∃ up down : Nat, x.exponent.toNat = up ∧ (-x.exponent).toNat = down ∧
      up + 149 = down + q := ⟨_, _, rfl, rfl, by omega⟩
  rw [hup, hdown] at hdvd ⊢
  refine Nat.eq_of_mul_eq_mul_right (Nat.two_pow_pos down) ?_
  rw [Nat.mul_right_comm, Nat.div_mul_cancel hdvd, Nat.mul_assoc, Nat.mul_assoc, ← Nat.pow_add, ← Nat.pow_add, hsum,
    Nat.add_comm down]

/-- The decimal that a real is written as rounds to the real. -/
theorem IsSpelled.roundsToReal {x : Float32} {n places q : Nat} (h : IsSpelled x n places) (hfinite : x.isFinite = true)
    (hreal : IsReal (magnitude x).mantissa q) (hexponent : (magnitude x).exponent = q - 149)
    (hnarrow : (magnitude x).narrowBelow = true ↔ (magnitude x).mantissa = 2 ^ 23 ∧ 0 < q) :
    0 < places ∧ RoundsToReal (n * 2 ^ 149) (10 ^ places) (magnitude x).mantissa q := by
  rw [IsSpelled] at h
  split at h
  · rename_i hwhole
    obtain ⟨rfl, rfl⟩ := h
    have hfloor := floor_mul (x := magnitude x) (by simpa [isWhole, hfinite] using hwhole) hexponent
    refine ⟨Nat.one_pos, (roundsToReal_self hreal).congr Nat.one_pos (by decide) ?_⟩
    rw [← hfloor]
    ring
  · rename_i hwhole
    have hwhole : (magnitude x).isWhole = false := by simpa [isWhole, hfinite] using hwhole
    obtain ⟨rfl, hplaces⟩ := h
    have hneg := exponent_shortest_neg .upward hwhole
    have hbelow : (magnitude x).exponent < 0 := exponent_neg hwhole
    obtain ⟨k, hk, hpos⟩ : ∃ k, q + k = 149 ∧ 0 < k := ⟨149 - q, by omega, by omega⟩
    have hexpansion := expansion_of_neg (x := magnitude x) (k := k) (by omega) hpos
    obtain ⟨up, hup, hnear⟩ := isNear_shortest .upward (magnitude x) (by
      rw [hexpansion]
      exact Nat.pow_pos (by decide))
    have hsum : k = places + up := by
      rw [hexpansion] at hup
      dsimp only at hup
      omega
    refine ⟨by omega, (hnear.roundsToReal hreal hexponent hnarrow hk hpos).congr (by positivity) (by positivity) ?_⟩
    rw [hsum, Nat.pow_eq, Nat.pow_add]
    ring

/-- The sign in front of the digits. -/
theorem signed_eq {x : Float32} {m q : Nat} (hreal : IsReal m q)
    (hx : x = .ofModel (.pack (.finite (signOf x) m (q - 149) hreal.pos))) :
    (if isNegative x then -(Float32.ofModel (.pack (.finite .positive m (q - 149) hreal.pos)))
      else .ofModel (.pack (.finite .positive m (q - 149) hreal.pos))) = x := by
  have hneg : -(Float32.ofModel (.pack (.finite .positive m (q - 149) hreal.pos))) =
      .ofModel (.pack (.finite .negative m (q - 149) hreal.pos)) := by
    change Float32.ofModel (.pack (Float32.Model.pack (.finite .positive m (q - 149) hreal.pos)).unpack.neg) = _
    rw [unpack_pack hreal]
    rfl
  rw [signOf] at hx
  by_cases hsign : isNegative x = true
  · rw [if_pos hsign] at hx ⊢
    exact hneg.trans hx.symm
  · rw [if_neg hsign] at hx ⊢
    exact hx.symm

theorem eq_zero {x : Float32} (hm : (magnitude x).mantissa = 0) :
    (if isNegative x then -(nearest 0 (-1)) else nearest 0 (-1)) = x := by
  have hbits := x.toBits.toNat_lt
  have hsign := toNat_signOf x
  rw [signOf] at hsign
  have hstored : x.toBits.toNat / 2 ^ 23 % 2 ^ 8 = 0 ∧ x.toBits.toNat % 2 ^ 23 = 0 := by
    rw [magnitude_eq] at hm
    split at hm
    · exact ⟨by assumption, hm⟩
    · dsimp only at hm
      omega
  split
  · rename_i h
    rw [if_pos h] at hsign
    change 1 = _ at hsign
    refine eq_of_toBits ?_
    change 0x80000000 = _
    omega
  · rename_i h
    rw [if_neg h] at hsign
    change 0 = _ at hsign
    refine eq_of_toBits ?_
    change 0 = _
    omega

/-- A finite real is read back from its text. -/
theorem readReal?_spell {x : Float32} (h : x.isFinite = true) : readReal? (spell x) = some x := by
  obtain ⟨whole, fraction, hw, hf, htext, hspelled⟩ := spell_spec h
  rw [← String.ofList_toList (s := spell x), htext, readReal?_point hw hf, ofParts]
  generalize digitsValue (whole ++ fraction) = n at hspelled
  generalize fraction.length = places at hspelled
  refine congrArg some ?_
  by_cases hm : (magnitude x).mantissa = 0
  · have hwhole : isWhole x = true := by simp [isWhole, h, Magnitude.isWhole, hm]
    have hfloor : (magnitude x).floor = 0 := by simp [Magnitude.floor, hm]
    rw [IsSpelled, if_pos hwhole, hfloor] at hspelled
    obtain ⟨rfl, rfl⟩ := hspelled
    exact eq_zero hm
  · obtain ⟨q, hexponent, hnarrow, hreal, hx⟩ := eq_pack h hm
    obtain ⟨hplaces, hrounds⟩ := hspelled.roundsToReal h hreal hexponent hnarrow
    rw [nearest_eq hplaces hreal.exponent hrounds]
    exact signed_eq hreal hx

end Offside.Decimal
