import Offside.Value.Operators

/-!
# Integers that wrap around

An operation on two integers of 32 bits takes the exact result and wraps it around: what comes out is the one integer
of 32 bits that differs from the exact result by a multiple of 2 to the 32. Sums, differences and products are nothing
else. A quotient goes toward zero, and only the least integer divided by minus one has to be wrapped; a remainder never
has to. So the quotient times the divisor, with the remainder added, is the dividend again, at both ends of the range
too.
-/

namespace Offside

/-- An exact integer wraps around to one of 32 bits: a multiple of their number lies between the two. -/
def WrapsTo (exact : Int) (n : Int32) : Prop :=
  (Int32.size : Int) ∣ exact - n.toInt

namespace WrapsTo

variable {x y : Int} {m n : Int32}

theorem ofInt (x : Int) : WrapsTo x (.ofInt x) := by
  rw [WrapsTo, Int32.toInt_ofInt]
  exact Int.dvd_self_sub_bmod

/-- An exact integer wraps around to one integer only. -/
theorem unique (hm : WrapsTo x m) (hn : WrapsTo x n) : m = n := by
  have hlow := m.le_toInt
  have hhigh := m.toInt_lt
  have hlow' := n.le_toInt
  have hhigh' := n.toInt_lt
  have hsize : (Int32.size : Int) = 4294967296 := rfl
  rw [WrapsTo, hsize] at hm hn
  apply Int32.toInt_inj.mp
  omega

theorem iff_ofInt : WrapsTo x n ↔ n = .ofInt x := by
  constructor
  · intro h
    exact h.unique (ofInt x)
  · rintro rfl
    exact ofInt x

theorem toInt (n : Int32) : WrapsTo n.toInt n :=
  iff_ofInt.mpr n.ofInt_toInt.symm

theorem add (hm : WrapsTo x m) (hn : WrapsTo y n) : WrapsTo (x + y) (m + n) := by
  rw [iff_ofInt] at hm hn ⊢
  rw [hm, hn, Int32.ofInt_add]

theorem sub (hm : WrapsTo x m) (hn : WrapsTo y n) : WrapsTo (x - y) (m - n) := by
  rw [iff_ofInt] at hm hn ⊢
  rw [hm, hn, Int32.ofInt_sub]

theorem mul (hm : WrapsTo x m) (hn : WrapsTo y n) : WrapsTo (x * y) (m * n) := by
  rw [iff_ofInt] at hm hn ⊢
  rw [hm, hn, Int32.ofInt_mul]

theorem div (a b : Int32) : WrapsTo (a.toInt.tdiv b.toInt) (a / b) := by
  rw [WrapsTo, Int32.toInt_div]
  exact Int.dvd_self_sub_bmod

/-- A remainder is in the range. -/
theorem mod (a b : Int32) : WrapsTo (a.toInt.tmod b.toInt) (a % b) := by
  rw [← Int32.toInt_mod]
  exact toInt (a % b)

end WrapsTo

/-! ### Quotients and remainders -/

/-- The two exact results make up the dividend, and each step of putting them together wraps around. -/
theorem quotient_mul_add_remainder (a b : Int32) : a / b * b + a % b = a := by
  have hsum : WrapsTo (a.toInt.tdiv b.toInt * b.toInt + a.toInt.tmod b.toInt) (a / b * b + a % b) :=
    ((WrapsTo.div a b).mul (.toInt b)).add (.mod a b)
  rw [Int.tdiv_mul_add_tmod] at hsum
  exact hsum.unique (.toInt a)

theorem natAbs_remainder_lt (a : Int32) {b : Int32} (hb : b ≠ 0) : (a % b).toInt.natAbs < b.toInt.natAbs := by
  have hpos : b.toInt ≠ 0 := fun h => hb (Int32.toInt_inj.mp h)
  rw [Int32.toInt_mod, Int.natAbs_tmod]
  exact Nat.mod_lt _ (by omega)

theorem remainder_sign (a b : Int32) : a % b = 0 ∨ (a % b).toInt.sign = a.toInt.sign := by
  rw [Int32.toInt_mod, Int.sign_tmod]
  by_cases hdvd : b.toInt ∣ a.toInt
  · left
    apply Int32.toInt_inj.mp
    rw [Int32.toInt_mod]
    exact Int.tmod_eq_zero_of_dvd hdvd
  · exact .inr (if_neg hdvd)

/-- Only one exact quotient is out of the range. -/
theorem toInt_quotient {a b : Int32} (h : ¬(a = .minValue ∧ b = -1)) : (a / b).toInt = a.toInt.tdiv b.toInt := by
  by_cases ha : a = .minValue
  · exact Int32.toInt_div_of_ne_right a b fun hb => h ⟨ha, hb⟩
  · exact Int32.toInt_div_of_ne_left a b ha

/-! ### Operations on values -/

namespace Arithmetic

/-- An operation joins two integers to a third. -/
def Yields (op : Arithmetic) (a b n : Int32) : Prop :=
  op.apply (.integer a) (.integer b) = .ok (.integer n)

variable {op : Arithmetic} {a b n : Int32}

theorem yields_of_onIntegers (h : op.onIntegers a b = .ok n) : op.Yields a b n := by
  rw [Yields, apply, h]
  rfl

theorem apply_eq_error_iff {cause : Cause} :
    op.apply (.integer a) (.integer b) = .error cause ↔ op.onIntegers a b = .error cause := by
  rw [apply]
  cases op.onIntegers a b with
  | ok n => simp [Except.map]
  | error cause' => simp [Except.map]

theorem onIntegers_divisor (hop : op = divide ∨ op = modulo) (a b : Int32) (cause : Cause) :
    op.onIntegers a b = .error cause ↔ b = 0 ∧ cause = .divisionByZero := by
  rcases hop with rfl | rfl
  · by_cases hb : b = 0 <;> simp [onIntegers, hb, eq_comm]
  · by_cases hb : b = 0 <;> simp [onIntegers, hb, eq_comm]

/-- Sums, differences and products are exact up to wrapping around. Division fails by zero and by nothing else; its
quotient goes toward zero, its remainder has the sign of the dividend, and the two give the dividend back, also where
the quotient is wrapped around. A change of sign is a difference from zero. -/
theorem integers_wrap (a b : Int32) :
    (∃ n, add.Yields a b n ∧ WrapsTo (a.toInt + b.toInt) n) ∧
    (∃ n, subtract.Yields a b n ∧ WrapsTo (a.toInt - b.toInt) n) ∧
    (∃ n, multiply.Yields a b n ∧ WrapsTo (a.toInt * b.toInt) n) ∧
    (∀ op, op = divide ∨ op = modulo → ∀ cause,
      op.apply (.integer a) (.integer b) = .error cause ↔ b = 0 ∧ cause = .divisionByZero) ∧
    (b ≠ 0 → ∃ q r, divide.Yields a b q ∧ modulo.Yields a b r ∧
      (∃ p, multiply.Yields q b p ∧ add.Yields p r a) ∧
      r.toInt.natAbs < b.toInt.natAbs ∧ (r = 0 ∨ r.toInt.sign = a.toInt.sign) ∧
      (a = .minValue ∧ b = -1 → q = .minValue ∧ r = 0) ∧
      (¬(a = .minValue ∧ b = -1) → q.toInt = a.toInt.tdiv b.toInt)) ∧
    ∃ n, (Value.integer a).negate = .ok (.integer n) ∧ subtract.Yields 0 a n := by
  refine ⟨⟨a + b, rfl, .add (.toInt a) (.toInt b)⟩, ⟨a - b, rfl, .sub (.toInt a) (.toInt b)⟩,
    ⟨a * b, rfl, .mul (.toInt a) (.toInt b)⟩, fun op hop cause => ?_, fun hb => ?_, -a, rfl, ?_⟩
  · rw [apply_eq_error_iff, onIntegers_divisor hop]
  · refine ⟨a / b, a % b, yields_of_onIntegers (if_neg hb), yields_of_onIntegers (if_neg hb), ⟨a / b * b, rfl, ?_⟩,
      natAbs_remainder_lt a hb, remainder_sign a b, ?_, toInt_quotient⟩
    · exact yields_of_onIntegers (congrArg Except.ok (quotient_mul_add_remainder a b))
    · -- The exact quotient is one above the range.
      rintro ⟨rfl, rfl⟩
      exact ⟨by decide, by decide⟩
  · exact yields_of_onIntegers (congrArg Except.ok (Int32.zero_sub a))

/-- The one quotient that is wrapped around. -/
theorem integers_wrap_least : divide.Yields .minValue (-1) .minValue ∧ modulo.Yields .minValue (-1) 0 := by
  obtain ⟨-, -, -, -, hdivision, -⟩ := integers_wrap .minValue (-1)
  obtain ⟨q, r, hq, hr, -, -, -, hleast, -⟩ := hdivision (by decide)
  obtain ⟨rfl, rfl⟩ := hleast ⟨rfl, rfl⟩
  exact ⟨hq, hr⟩

end Arithmetic

end Offside
