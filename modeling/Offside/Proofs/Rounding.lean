import Mathlib.Tactic.Linarith
import Mathlib.Tactic.Ring

/-!
# Rounding to the nearest real

A 32-bit real is a whole number of the least positive reals, which are `2 ^ -149`, so fractions are compared with
reals in these units: `a / b` of them rounds to `m * 2 ^ q` of them. A quotient is computed with at least as many bits
as a mantissa has and with a note on the rest, and is rounded once.
-/

namespace Offside.Decimal

open Float.Model (Format UnpackedFloat totalExponent)
open Float.Model.UnpackedFloat

/-! ### Whole numbers -/

/-- No whole number is nearer to `a / b` than `m`, and if another is as near then `m` is the even one. -/
@[mk_iff]
structure RoundsTo (a b m : Nat) : Prop where
  low : 2 * (m * b) ≤ 2 * a + b
  high : 2 * a ≤ 2 * (m * b) + b
  lowTie : 2 * (m * b) = 2 * a + b → m % 2 = 0
  highTie : 2 * a = 2 * (m * b) + b → m % 2 = 0

theorem roundsTo_mul {a b m n : Nat} (hn : 0 < n) : RoundsTo (a * n) (b * n) m ↔ RoundsTo a b m := by
  have hmul : 2 * (m * (b * n)) = 2 * (m * b) * n := by ring
  have hmulAdd : 2 * (m * (b * n)) + b * n = (2 * (m * b) + b) * n := by ring
  have hdouble : 2 * (a * n) = 2 * a * n := by ring
  have hdoubleAdd : 2 * (a * n) + b * n = (2 * a + b) * n := by ring
  rw [roundsTo_iff, roundsTo_iff, hmulAdd, hdoubleAdd, hmul, hdouble, Nat.mul_le_mul_right_iff hn,
    Nat.mul_le_mul_right_iff hn, Nat.mul_left_inj hn.ne', Nat.mul_left_inj hn.ne']

/-- Only the value of a fraction matters. -/
theorem RoundsTo.congr {a b a' b' m : Nat} (h : RoundsTo a b m) (hb : 0 < b) (hb' : 0 < b')
    (heq : a * b' = a' * b) : RoundsTo a' b' m := by
  rw [← roundsTo_mul hb, ← heq, Nat.mul_comm b' b, roundsTo_mul hb']
  exact h

/-- An extended mantissa that holds a fraction. -/
structure Holds (em : ExtendedMantissa) (a b : Nat) : Prop where
  mantissa : em.mantissa = a / b
  roundBit : em.roundBit = true ↔ b ≤ 2 * (a % b)
  stickyBit : em.stickyBit = true ↔ a % b ≠ 0 ∧ 2 * (a % b) ≠ b

theorem holds_ofMantissaAndAccuracy (a : Nat) {b : Nat} (hb : 0 < b) :
    Holds (.ofMantissaAndAccuracy (a / b) (accuracyOfFraction (a % b) b)) a b := by
  rw [accuracyOfFraction]
  split
  · rename_i hzero
    exact ⟨rfl, by simp [ExtendedMantissa.ofMantissaAndAccuracy, hzero]; omega,
      by simp [ExtendedMantissa.ofMantissaAndAccuracy, hzero]⟩
  · rename_i hne
    cases hcompare : compare (2 * (a % b)) b with
    | lt =>
      have := Nat.compare_eq_lt.mp hcompare
      exact ⟨rfl, by simp [ExtendedMantissa.ofMantissaAndAccuracy]; omega,
        by simp [ExtendedMantissa.ofMantissaAndAccuracy]; omega⟩
    | eq =>
      have := Nat.compare_eq_eq.mp hcompare
      exact ⟨rfl, by simp [ExtendedMantissa.ofMantissaAndAccuracy]; omega,
        by simp [ExtendedMantissa.ofMantissaAndAccuracy]; omega⟩
    | gt =>
      have := Nat.compare_eq_gt.mp hcompare
      exact ⟨rfl, by simp [ExtendedMantissa.ofMantissaAndAccuracy]; omega,
        by simp [ExtendedMantissa.ofMantissaAndAccuracy]; omega⟩

theorem Holds.shiftRightOne {em : ExtendedMantissa} {a b : Nat} (h : Holds em a b) (hb : 0 < b) :
    Holds em.shiftRightOne a (b * 2) := by
  have hmod : a % (b * 2) = a % b + b * (a / b % 2) := Nat.mod_mul
  have hlt : a % b < b := Nat.mod_lt a hb
  have hround := h.roundBit
  have hsticky := h.stickyBit
  refine ⟨?_, ?_, ?_⟩
  · rw [ExtendedMantissa.shiftRightOne, h.mantissa, Nat.div_div_eq_div_mul]
  · rw [hmod, ExtendedMantissa.shiftRightOne, h.mantissa]
    rcases Nat.mod_two_eq_zero_or_one (a / b) with hbit | hbit <;> simp [hbit] <;> omega
  · rw [hmod, ExtendedMantissa.shiftRightOne, Bool.or_eq_true, hround, hsticky]
    rcases Nat.mod_two_eq_zero_or_one (a / b) with hbit | hbit <;> simp [hbit] <;> omega

theorem Holds.shiftRight {em : ExtendedMantissa} {a b : Nat} (h : Holds em a b) (hb : 0 < b) (n : Nat) :
    Holds (em >>> n) a (b * 2 ^ n) := by
  induction n with
  | zero =>
    rw [Nat.pow_zero, Nat.mul_one]
    exact h
  | succ n ih =>
    rw [Nat.pow_succ, ← Nat.mul_assoc]
    exact ih.shiftRightOne (by positivity)

theorem Holds.roundedMantissa {em : ExtendedMantissa} {a b m : Nat} (h : Holds em a b) (hb : 0 < b)
    (hm : RoundsTo a b m) : em.roundedMantissa = m := by
  obtain ⟨mantissa, roundBit, stickyBit⟩ := em
  obtain ⟨rfl, hround, hsticky⟩ := h
  dsimp only at hround hsticky
  have hdiv : a = a / b * b + a % b := (Nat.div_add_mod' a b).symm
  have hlt : a % b < b := Nat.mod_lt a hb
  have hlow := hm.low
  have hhigh := hm.high
  -- the candidates are the two whole numbers around the fraction
  have hcases : m = a / b ∨ m = a / b + 1 := by
    have hge : a / b < m + 1 := by
      refine Nat.lt_of_mul_lt_mul_right (a := b) ?_
      rw [Nat.add_mul]
      omega
    have hle : m < a / b + 2 := by
      refine Nat.lt_of_mul_lt_mul_right (a := b) ?_
      rw [Nat.add_mul]
      omega
    omega
  have hlowTie := hm.lowTie
  have hhighTie := hm.highTie
  generalize a / b = n at *
  generalize a % b = r at *
  rcases hcases with rfl | rfl
  · cases roundBit <;> cases stickyBit <;>
      simp [ExtendedMantissa.roundedMantissa, ExtendedMantissa.accuracy, Accuracy.roundToNearestEven] at * <;> omega
  · rw [Nat.add_mul] at *
    cases roundBit <;> cases stickyBit <;>
      simp [ExtendedMantissa.roundedMantissa, ExtendedMantissa.accuracy, Accuracy.roundToNearestEven] at * <;> omega

/-! ### Exponents -/

/-- `a / b` least reals rounds to `m * 2 ^ q` of them. Below a power of two the reals lie twice as close, and what
is rounded up to the power is rounded with the exponent of the reals below it. -/
inductive RoundsToReal (a b : Nat) : Nat → Nat → Prop where
  | inside {m q : Nat} (hm : 0 < m) (hlt : m < 2 ^ 24) (hlow : 2 ^ (23 + q) * b ≤ a ∨ q = 0)
      (h : RoundsTo a (b * 2 ^ q) m) : RoundsToReal a b m q
  | carried {q : Nat} (hlt : a < 2 ^ (24 + q) * b) (hlow : 2 ^ (23 + q) * b ≤ a ∨ q = 0)
      (h : RoundsTo a (b * 2 ^ q) (2 ^ 24)) : RoundsToReal a b (2 ^ 23) (q + 1)

theorem RoundsToReal.pos {a b m q : Nat} (h : RoundsToReal a b m q) : 0 < m := by
  cases h with
  | inside hm => exact hm
  | carried => decide

theorem RoundsToReal.le {a b m q : Nat} (h : RoundsToReal a b m q) : b ≤ 2 * a := by
  have hle : ∀ {n r : Nat}, 0 < n → RoundsTo a (b * 2 ^ r) n → b ≤ 2 * a := by
    intro n r hn h
    have hlow := h.low
    have hunit : b * 2 ^ r ≤ n * (b * 2 ^ r) := Nat.le_mul_of_pos_left _ hn
    have hb : b ≤ b * 2 ^ r := Nat.le_mul_of_pos_right _ (Nat.two_pow_pos r)
    omega
  cases h with
  | inside hm hlt hlow h => exact hle hm h
  | carried hlt hlow h => exact hle (by decide) h

theorem RoundsTo.lt {a b m q : Nat} (h : RoundsTo a (b * 2 ^ q) m) (hb : 0 < b) (hm : m < 2 ^ 24) :
    a < 2 ^ (24 + q) * b := by
  have hhigh := h.high
  have hunit : 0 < b * 2 ^ q := by positivity
  have hle : (m + 1) * (b * 2 ^ q) ≤ 2 ^ 24 * (b * 2 ^ q) := Nat.mul_le_mul_right _ hm
  have hpower : 2 ^ (24 + q) * b = 2 ^ 24 * (b * 2 ^ q) := by rw [Nat.pow_add]; ring
  rw [hpower]
  rw [Nat.add_mul] at hle
  omega

theorem RoundsToReal.lt {a b m q : Nat} (h : RoundsToReal a b m q) (hb : 0 < b) : a < 2 ^ (24 + q) * b := by
  cases h with
  | inside hm hlt hlow h => exact h.lt hb hlt
  | carried hlt hlow h => exact hlt.trans_le (Nat.mul_le_mul_right _ (Nat.pow_le_pow_right (by decide) (by omega)))

theorem RoundsToReal.congr {a b a' b' m q : Nat} (h : RoundsToReal a b m q) (hb : 0 < b) (hb' : 0 < b')
    (heq : a * b' = a' * b) : RoundsToReal a' b' m q := by
  have hle : ∀ n, n * b ≤ a → n * b' ≤ a' := by
    intro n hn
    refine Nat.le_of_mul_le_mul_right ?_ hb
    calc n * b' * b = n * b * b' := Nat.mul_right_comm ..
      _ ≤ a * b' := Nat.mul_le_mul_right _ hn
      _ = a' * b := heq
  have hlt : ∀ n, a < n * b → a' < n * b' := by
    intro n hn
    refine Nat.lt_of_mul_lt_mul_right (a := b) ?_
    calc a' * b = a * b' := heq.symm
      _ < n * b * b' := Nat.mul_lt_mul_of_pos_right hn hb'
      _ = n * b' * b := Nat.mul_right_comm ..
  have hrounds : ∀ {n r : Nat}, RoundsTo a (b * 2 ^ r) n → RoundsTo a' (b' * 2 ^ r) n := by
    intro n r h
    refine h.congr (by positivity) (by positivity) ?_
    rw [← Nat.mul_assoc, heq, Nat.mul_assoc]
  cases h with
  | inside hm hm' hlow h => exact .inside hm hm' (hlow.imp_left (hle _)) (hrounds h)
  | carried hup hlow h => exact .carried (hlt _ hup) (hlow.imp_left (hle _)) (hrounds h)

theorem log2_le {m : Nat} (h : m < 2 ^ 24) : m.log2 ≤ 23 := by
  by_cases hm : m = 0
  · subst hm
    decide
  · have := (Nat.log2_lt hm).mpr h
    omega

theorem targetExponent_eq {m q k : Nat} (hk : k ≤ q) (hlt : m < 2 ^ (24 + q - k))
    (hlow : 2 ^ (23 + q - k) ≤ m ∨ q = 0) :
    Format.binary32.targetExponent (totalExponent m (k - 149)) = q - 149 := by
  have htarget : ∀ t : Int, Format.binary32.targetExponent t = max (t - 24) (-149) := fun _ => rfl
  rw [htarget, totalExponent]
  rcases hlow with hlow | rfl
  · have hm : m ≠ 0 := by
      have := Nat.two_pow_pos (23 + q - k)
      omega
    have hnext : 23 + q - k + 1 = 24 + q - k := by omega
    have hlog : m.log2 = 23 + q - k := (Nat.log2_eq_iff hm).mpr ⟨hlow, by rwa [hnext]⟩
    omega
  · have hlog := log2_le (hlt.trans_le (Nat.pow_le_pow_right (by decide) (by omega)))
    omega

theorem shiftToTargetExponent_holds {a b k q : Nat} (hb : 0 < b) (hfine : 2 ^ 23 ≤ a / b ∨ k = 0)
    (hlt : a * 2 ^ k < 2 ^ (24 + q) * b) (hlow : 2 ^ (23 + q) * b ≤ a * 2 ^ k ∨ q = 0) :
    k ≤ q ∧ ∃ em, Holds em a (b * 2 ^ (q - k)) ∧
      shiftToTargetExponent .binary32 (a / b) (k - 149) (accuracyOfFraction (a % b) b) = (em, (q - 149 : Int)) := by
  have hk : k ≤ q := by
    rcases hfine with hfine | rfl
    · rw [Nat.le_div_iff_mul_le hb] at hfine
      have hpower : 2 ^ (23 + k) * b < 2 ^ (24 + q) * b := by
        calc 2 ^ (23 + k) * b = 2 ^ 23 * b * 2 ^ k := by rw [Nat.pow_add]; ring
          _ ≤ a * 2 ^ k := Nat.mul_le_mul_right _ hfine
          _ < _ := hlt
      have := (Nat.pow_lt_pow_iff_right (by decide)).mp (Nat.lt_of_mul_lt_mul_right hpower)
      omega
    · omega
  refine ⟨hk, _, (holds_ofMantissaAndAccuracy a hb).shiftRight hb (q - k), ?_⟩
  have hscale : ∀ n, k ≤ n → 2 ^ n * b = 2 ^ (n - k) * b * 2 ^ k := by
    intro n hn
    rw [Nat.mul_right_comm, ← Nat.pow_add, Nat.sub_add_cancel hn]
  have htarget : Format.binary32.targetExponent (totalExponent (a / b) (k - 149)) = q - 149 := by
    refine targetExponent_eq hk ?_ (hlow.imp_left fun hlow => ?_)
    · rw [hscale _ (by omega)] at hlt
      exact (Nat.div_lt_iff_lt_mul hb).mpr (Nat.lt_of_mul_lt_mul_right hlt)
    · rw [hscale _ (by omega)] at hlow
      exact (Nat.le_div_iff_mul_le hb).mpr (Nat.le_of_mul_le_mul_right hlow (Nat.two_pow_pos k))
  have hshift : ((q - 149 : Int) - (k - 149)).toNat = q - k := by omega
  rw [shiftToTargetExponent, htarget, shiftToExponent, hshift]
  refine Prod.ext rfl ?_
  dsimp only
  omega

/-- A mantissa that fits keeps its exponent. -/
theorem shiftToTargetExponent_exact {m : Nat} (q : Nat) (hm : m < 2 ^ 24) :
    shiftToTargetExponent .binary32 m (q - 149) .exact = (⟨m, false, false⟩, (q - 149 : Int)) := by
  have htarget : Format.binary32.targetExponent (totalExponent m (q - 149)) ≤ q - 149 := by
    have hlog := log2_le hm
    change max ((m.log2 + 1 + (q - 149 : Int)) - 24) (-149) ≤ _
    omega
  have hshift : (Format.binary32.targetExponent (totalExponent m (q - 149)) - (q - 149)).toNat = 0 := by omega
  rw [shiftToTargetExponent, shiftToExponent, hshift]
  exact Prod.ext rfl (Int.add_zero _)

/-- A mantissa that rounding has made one bit too long. -/
theorem shiftToTargetExponent_carried (q : Nat) :
    shiftToTargetExponent .binary32 (2 ^ 24) (q - 149) .exact =
      (⟨2 ^ 23, false, false⟩, ((q + 1 : Nat) - 149 : Int)) := by
  have htarget : Format.binary32.targetExponent (totalExponent (2 ^ 24) (q - 149)) = q - 148 := by
    rw [totalExponent, Nat.log2_two_pow]
    change max ((24 + 1 + (q - 149 : Int)) - 24) (-149) = _
    omega
  have hshift : ((q - 148 : Int) - (q - 149)).toNat = 1 := by omega
  rw [shiftToTargetExponent, shiftToExponent, htarget, hshift]
  refine Prod.ext rfl ?_
  dsimp only
  omega

theorem roundWithAccuracy_eq (sign : Sign) {a b k m q : Nat} (hb : 0 < b) (hfine : 2 ^ 23 ≤ a / b ∨ k = 0)
    (h : RoundsToReal (a * 2 ^ k) b m q) :
    roundWithAccuracy .binary32 sign (a / b) (k - 149) (accuracyOfFraction (a % b) b) =
      .finite sign m (q - 149) h.pos := by
  have hrounded : ∀ {n r : Nat} {em : ExtendedMantissa}, k ≤ r → Holds em a (b * 2 ^ (r - k)) →
      RoundsTo (a * 2 ^ k) (b * 2 ^ r) n → em.roundedMantissa = n := by
    intro n r em hk hem hn
    refine hem.roundedMantissa (by positivity) ((roundsTo_mul (Nat.two_pow_pos k)).mp ?_)
    rwa [Nat.mul_assoc, ← Nat.pow_add, Nat.sub_add_cancel hk]
  cases h with
  | inside hm hlt hlow h =>
    obtain ⟨hk, em, hem, hshift⟩ := shiftToTargetExponent_holds hb hfine (h.lt hb hlt) hlow
    rw [roundWithAccuracy, hshift]
    dsimp only
    rw [hrounded hk hem h, shiftToTargetExponent_exact q hlt]
    exact dif_neg hm.ne'
  | carried hlt hlow h =>
    obtain ⟨hk, em, hem, hshift⟩ := shiftToTargetExponent_holds hb hfine hlt hlow
    rw [roundWithAccuracy, hshift]
    dsimp only
    rw [hrounded hk hem h, shiftToTargetExponent_carried]
    rfl

/-! ### Quotients -/

theorem div_eq {m₁ m₂ m q j : Nat} {e₁ e₂ : Int} (h₁ : 0 < m₁) (h₂ : 0 < m₂) (hj : e₁ - e₂ = j - 149)
    (h : RoundsToReal (m₁ * 2 ^ j) m₂ m q) :
    UnpackedFloat.div .binary32 (.finite .positive m₁ e₁ h₁) (.finite .positive m₂ e₂ h₂) =
      .finite .positive m (q - 149) h.pos := by
  -- the exponent with which the quotient is computed
  obtain ⟨k, hk⟩ : ∃ k : Nat, min (e₁ - e₂)
      (Format.binary32.targetExponent (totalExponent m₁ e₁ - totalExponent m₂ e₂)) = k - 149 := by
    have hleast : -149 ≤ Format.binary32.targetExponent (totalExponent m₁ e₁ - totalExponent m₂ e₂) := le_max_right _ _
    obtain ⟨k, hk⟩ := Int.le.dest (le_min (show -149 ≤ e₁ - e₂ by omega) hleast)
    exact ⟨k, by omega⟩
  have hshift : (e₁ - e₂ - (k - 149)).toNat = j - k := by omega
  have hkj : k ≤ j := by omega
  have hfine : 2 ^ 23 ≤ m₁ * 2 ^ (j - k) / m₂ ∨ k = 0 := by
    by_cases hzero : k = 0
    · exact .inr hzero
    · have htarget : Format.binary32.targetExponent (totalExponent m₁ e₁ - totalExponent m₂ e₂) =
          max (m₁.log2 + 1 + e₁ - (m₂.log2 + 1 + e₂) - 24) (-149) := rfl
      have hbits : m₂.log2 + 24 ≤ m₁.log2 + (j - k) := by omega
      refine .inl ((Nat.le_div_iff_mul_le h₂).mpr ?_)
      calc 2 ^ 23 * m₂ ≤ 2 ^ 23 * 2 ^ (m₂.log2 + 1) := Nat.mul_le_mul_left _ Nat.lt_log2_self.le
        _ = 2 ^ (m₂.log2 + 24) := by rw [← Nat.pow_add]; congr 1; omega
        _ ≤ 2 ^ (m₁.log2 + (j - k)) := Nat.pow_le_pow_right (by decide) hbits
        _ = 2 ^ m₁.log2 * 2 ^ (j - k) := Nat.pow_add ..
        _ ≤ m₁ * 2 ^ (j - k) := Nat.mul_le_mul_right _ (Nat.log2_self_le h₁.ne')
  have hscale : m₁ * 2 ^ (j - k) * 2 ^ k = m₁ * 2 ^ j := by
    rw [Nat.mul_assoc, ← Nat.pow_add, Nat.sub_add_cancel hkj]
  rw [← hscale] at h
  have hcore : divCore .binary32 m₁ e₁ m₂ e₂ =
      (m₁ * 2 ^ (j - k) / m₂, (k - 149 : Int), accuracyOfFraction (m₁ * 2 ^ (j - k) % m₂) m₂) := by
    rw [divCore, hk, hshift, Nat.shiftLeft_eq]
  have hround := roundWithAccuracy_eq .positive h₂ hfine h
  delta UnpackedFloat.div
  dsimp only
  rw [hcore]
  exact hround

/-- The real nearest to a decimal with a fraction. -/
theorem ofScientific_eq {n e m q : Nat} (he : 0 < e) (h : RoundsToReal (n * 2 ^ 149) (10 ^ e) m q) :
    UnpackedFloat.ofScientific .binary32 n (-e) = .finite .positive m (q - 149) h.pos := by
  have hpower : 10 ^ e ≤ 2 * (n * 2 ^ 149) := h.le
  have hn : n ≠ 0 := by
    rintro rfl
    have := Nat.pow_pos (n := e) (show 0 < 10 by decide)
    omega
  have hsize : e ≤ 256 + n.log2 := by
    have hlt : 2 ^ (3 * e) < 2 ^ (151 + n.log2) := by
      calc 2 ^ (3 * e) = 8 ^ e := by rw [Nat.pow_mul]
        _ ≤ 10 ^ e := Nat.pow_le_pow_left (by decide) e
        _ ≤ n * 2 ^ 150 := by omega
        _ < 2 ^ (n.log2 + 1) * 2 ^ 150 := by gcongr; exact Nat.lt_log2_self
        _ = 2 ^ (151 + n.log2) := by rw [← Nat.pow_add]; congr 1; omega
    have := (Nat.pow_lt_pow_iff_right (by decide)).mp hlt
    omega
  have hnat : (-(-(e : Int))).toNat = e := by omega
  rw [UnpackedFloat.ofScientific, dif_neg hn, if_neg (by change ¬ (-(e : Int) > 256); omega),
    if_neg (by change ¬ (-(e : Int) < -(256 + n.log2)); omega), if_neg (by omega)]
  have hquotient : RoundsToReal (n * 2 ^ 149) (10 ^ (-(-(e : Int))).toNat) m q := by
    rw [hnat]
    exact h
  exact div_eq _ _ (by omega) hquotient

end Offside.Decimal
