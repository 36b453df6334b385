import Offside.Proofs.NumberText
import Offside.Proofs.Rounding

/-!
# The bits of a real

A finite real that is not zero is its sign, a mantissa and an exponent, and no two of these make the same real. The
exponent is counted in least reals, as it is for rounding.
-/

namespace Offside.Decimal

open Float.Model (Format UnpackedFloat)
open Float.Model.UnpackedFloat

/-! ### Packing -/

/-- The mantissa and the exponent, in least reals, of a finite real that is not zero. -/
structure IsReal (m q : Nat) : Prop where
  pos : 0 < m
  lt : m < 2 ^ 24
  exponent : q ≤ 253
  normal : 2 ^ 23 ≤ m ∨ q = 0

theorem toNat_packComponents (sign : Sign) (exponent : BitVec 8) (mantissa : BitVec 23) :
    (packComponents .binary32 sign exponent mantissa).toNat =
      sign.toBitVec.toNat * 2 ^ 31 + exponent.toNat * 2 ^ 23 + mantissa.toNat := by
  rw [packComponents, BitVec.toNat_append, BitVec.toNat_append, ← Nat.shiftLeft_add_eq_or_of_lt exponent.isLt,
    ← Nat.shiftLeft_add_eq_or_of_lt mantissa.isLt, Nat.shiftLeft_eq, Nat.shiftLeft_eq]
  omega

theorem unpackSign_packComponents (sign : Sign) (exponent : BitVec 8) (mantissa : BitVec 23) :
    Sign.ofBitVec (unpackSign (packComponents .binary32 sign exponent mantissa)) = sign := by
  have hbits : unpackSign (packComponents .binary32 sign exponent mantissa) = sign.toBitVec := by
    delta unpackSign
    rw [← BitVec.toNat_inj, BitVec.toNat_cast, BitVec.extractLsb_toNat, Nat.shiftRight_eq_div_pow,
      toNat_packComponents]
    change (_ : Nat) / 2 ^ 31 % 2 ^ 1 = _
    have he := exponent.isLt
    have hm := mantissa.isLt
    have hs := sign.toBitVec.isLt
    omega
  rw [hbits]
  cases sign <;> rfl

theorem pack_finite {sign : Sign} {m q : Nat} (h : IsReal m q) :
    UnpackedFloat.pack .binary32 (.finite sign m (q - 149) h.pos) =
      packComponents .binary32 sign (.ofNat 8 (if 2 ^ 23 ≤ m then q + 1 else 0)) (.ofNat 23 m) := by
  have hbias : ((q - 149 : Int) + Format.binary32.exponentBias + (23 : Nat)).toNat = q + 1 := by
    have : (Format.binary32.exponentBias : Int) = 127 := rfl
    omega
  have hexponent := h.exponent
  delta UnpackedFloat.pack
  dsimp only
  rw [hbias, if_neg (by change ¬ 256 ≤ q + 1 + 1; omega)]
  by_cases hnormal : 2 ^ 23 ≤ m
  · have hlog : m.log2 = 23 := (Nat.log2_eq_iff h.pos.ne').mpr ⟨hnormal, h.lt⟩
    rw [hlog, if_pos hnormal]
    rfl
  · have hlog : m.log2 < 23 := (Nat.log2_lt h.pos.ne').mpr (by omega)
    rw [if_neg (by change ¬ m.log2 + 1 = 24; omega), if_neg hnormal]

theorem finite_congr {sign : Sign} {m m' : Nat} {e e' : Int} (h : 0 < m) (h' : 0 < m') (hm : m = m') (he : e = e') :
    UnpackedFloat.finite sign m e h = .finite sign m' e' h' := by
  subst hm he
  rfl

theorem unpack_packComponents {sign : Sign} {exponent : BitVec 8} {mantissa : BitVec 23} {m q : Nat} (h : IsReal m q)
    (hexponent : exponent.toNat = if 2 ^ 23 ≤ m then q + 1 else 0) (hmantissa : mantissa.toNat = m % 2 ^ 23) :
    UnpackedFloat.unpack .binary32 (packComponents .binary32 sign exponent mantissa) =
      .finite sign m (q - 149) h.pos := by
  have hsign := unpackSign_packComponents sign exponent mantissa
  have he : unpackExponent (packComponents .binary32 sign exponent mantissa) = exponent := unpackExponent_packComponents
  have hm : unpackMantissa (packComponents .binary32 sign exponent mantissa) = mantissa := unpackMantissa_packComponents
  generalize packComponents .binary32 sign exponent mantissa = bits at hsign he hm
  have hlt := h.lt
  have hpos := h.pos
  have hq := h.exponent
  have hones : ¬ unpackExponent bits = -1#8 := by
    rw [he, ← BitVec.toNat_inj, hexponent]
    change ¬ _ = 255
    split <;> omega
  subst hsign
  delta UnpackedFloat.unpack
  dsimp only
  rw [if_neg hones]
  by_cases hnormal : 2 ^ 23 ≤ m
  · rw [if_pos hnormal] at hexponent
    have hzero : ¬ unpackExponent bits = 0#8 := by
      rw [he, ← BitVec.toNat_inj, hexponent]
      exact Nat.succ_ne_zero q
    rw [if_neg hzero]
    refine finite_congr _ _ ?_ ?_
    · rw [BitVec.toNat_append, hm, ← Nat.shiftLeft_add_eq_or_of_lt mantissa.isLt, hmantissa, Nat.shiftLeft_eq]
      change 1 * 2 ^ 23 + m % 2 ^ 23 = m
      omega
    · rw [he, hexponent]
      change ((q + 1 : Nat) : Int) - (127 + 23) = _
      omega
  · rw [if_neg hnormal] at hexponent
    have hzero : unpackExponent bits = 0#8 := by
      rw [he, ← BitVec.toNat_inj, hexponent]
      rfl
    have hm' : mantissa.toNat = m := by omega
    have hmantissa : ¬ unpackMantissa bits = 0#23 := by
      rw [hm, ← BitVec.toNat_inj, hm']
      exact h.pos.ne'
    rw [if_pos hzero, dif_neg hmantissa]
    refine finite_congr _ _ ?_ ?_
    · rw [hm, hm']
    · have hq : q = 0 := h.normal.resolve_left hnormal
      rw [he, hexponent, hq]
      rfl

theorem unpack_pack {sign : Sign} {m q : Nat} (h : IsReal m q) :
    (Float32.Model.pack (.finite sign m (q - 149) h.pos)).unpack = .finite sign m (q - 149) h.pos := by
  have hq := h.exponent
  change UnpackedFloat.unpack .binary32 (UnpackedFloat.pack .binary32 (.finite sign m (q - 149) h.pos)) = _
  rw [pack_finite h]
  refine unpack_packComponents h ?_ (BitVec.toNat_ofNat ..)
  rw [BitVec.toNat_ofNat]
  split <;> omega

/-! ### Magnitudes -/

theorem eq_of_toBits {x y : Float32} (h : x.toBits.toNat = y.toBits.toNat) : x = y := by
  obtain ⟨⟨a, ha⟩⟩ := x
  obtain ⟨⟨b, hb⟩⟩ := y
  obtain rfl : a = b := UInt32.toNat_inj.mp h
  rfl

/-- The stored exponent and the fraction of a real. -/
theorem magnitude_eq (x : Float32) : magnitude x =
    if x.toBits.toNat / 2 ^ 23 % 2 ^ 8 = 0 then ⟨x.toBits.toNat % 2 ^ 23, -149, false⟩
    else ⟨2 ^ 23 + x.toBits.toNat % 2 ^ 23, x.toBits.toNat / 2 ^ 23 % 2 ^ 8 - 150,
      x.toBits.toNat % 2 ^ 23 = 0 ∧ 1 < x.toBits.toNat / 2 ^ 23 % 2 ^ 8⟩ := by
  have hstored : ((x.toBits >>> 23) &&& 0xFF).toNat = x.toBits.toNat / 2 ^ 23 % 2 ^ 8 := by
    rw [UInt32.toNat_and, UInt32.toNat_shiftRight, Nat.shiftRight_eq_div_pow]
    exact Nat.and_two_pow_sub_one_eq_mod _ 8
  have hfraction : (x.toBits &&& 0x7FFFFF).toNat = x.toBits.toNat % 2 ^ 23 := by
    rw [UInt32.toNat_and]
    exact Nat.and_two_pow_sub_one_eq_mod _ 23
  rw [magnitude, Magnitude.ofBits, hstored, hfraction]
  rfl

theorem stored_lt {x : Float32} (h : x.isFinite = true) : x.toBits.toNat / 2 ^ 23 % 2 ^ 8 < 255 := by
  have hexponent : (@unpackExponent .binary32 x.toModel.toBits.toBitVec).toNat = x.toBits.toNat / 2 ^ 23 % 2 ^ 8 := by
    delta unpackExponent
    rw [BitVec.toNat_cast, BitVec.extractLsb_toNat, Nat.shiftRight_eq_div_pow]
    rfl
  by_contra hge
  have hones : @unpackExponent .binary32 x.toModel.toBits.toBitVec = -1#8 := by
    rw [← BitVec.toNat_inj, hexponent]
    change _ = 255
    omega
  revert h
  change (UnpackedFloat.unpack .binary32 x.toModel.toBits.toBitVec).isFinite ≠ true
  delta UnpackedFloat.unpack
  dsimp only
  rw [if_pos hones]
  split <;> exact Bool.false_ne_true

def signOf (x : Float32) : Sign :=
  if isNegative x then .negative else .positive

theorem toNat_signOf (x : Float32) : (signOf x).toBitVec.toNat = x.toBits.toNat / 2 ^ 31 := by
  have hlt := x.toBits.toNat_lt
  rw [signOf]
  split
  · rename_i h
    have : ¬ x.toBits.toNat < 0x80000000 := fun hlt => by simp [isNegative_eq_false_iff.mpr hlt] at h
    change 1 = _
    omega
  · rename_i h
    have := isNegative_eq_false_iff.mp (by simpa using h)
    change 0 = _
    omega

/-- A finite real that is not zero is the real of its sign, its mantissa and its exponent. -/
theorem eq_pack {x : Float32} (h : x.isFinite = true) (hm : (magnitude x).mantissa ≠ 0) :
    ∃ q : Nat, (magnitude x).exponent = q - 149 ∧
      ((magnitude x).narrowBelow = true ↔ (magnitude x).mantissa = 2 ^ 23 ∧ 0 < q) ∧
      ∃ hreal : IsReal (magnitude x).mantissa q,
        x = .ofModel (.pack (.finite (signOf x) (magnitude x).mantissa (q - 149) hreal.pos)) := by
  have hstored := stored_lt h
  have hbits := x.toBits.toNat_lt
  have hsign := toNat_signOf x
  have hmagnitude := magnitude_eq x
  split at hmagnitude
  · rename_i hzero
    rw [hmagnitude] at hm ⊢
    dsimp only at hm
    have hreal : IsReal (x.toBits.toNat % 2 ^ 23) 0 := ⟨by omega, by omega, by omega, .inr rfl⟩
    refine ⟨0, rfl, by simp, hreal, eq_of_toBits ?_⟩
    change _ = (UnpackedFloat.pack .binary32 (.finite (signOf x) _ ((0 : Nat) - 149) hreal.pos)).toNat
    rw [pack_finite hreal, toNat_packComponents, hsign, if_neg (by omega), BitVec.toNat_ofNat, BitVec.toNat_ofNat]
    omega
  · rename_i hne
    rw [hmagnitude]
    dsimp only
    have hreal : IsReal (2 ^ 23 + x.toBits.toNat % 2 ^ 23) (x.toBits.toNat / 2 ^ 23 % 2 ^ 8 - 1) :=
      ⟨by omega, by omega, by omega, .inl (by omega)⟩
    refine ⟨x.toBits.toNat / 2 ^ 23 % 2 ^ 8 - 1, by omega, by simp, hreal, eq_of_toBits ?_⟩
    change _ = (UnpackedFloat.pack .binary32 (.finite (signOf x) _ (_ - 149) hreal.pos)).toNat
    rw [pack_finite hreal, toNat_packComponents, hsign, if_pos (by omega), BitVec.toNat_ofNat, BitVec.toNat_ofNat]
    omega

end Offside.Decimal
