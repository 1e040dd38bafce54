import Mathlib.Algebra.Order.Field.Rat
import Mathlib.Data.Rat.Defs
import Mathlib.Data.Rat.Floor

/-! Rounding of exact results to binary64: to nearest, ties to even. The exponent is not
bounded, so this is the rounding of numbers that are neither too large nor too small.
-/

namespace Rustikv.Library

/-- The nearest integer, and of two the even one. -/
def roundToEven (x : ℚ) : Int :=
  let below := x.floor
  let rest := x - below
  if rest < 1 / 2 ∨ (rest = 1 / 2 ∧ below % 2 = 0) then below else below + 1

/-- `x * 2 ^ exponent` -/
def scale (x : ℚ) : Int → ℚ
  | .ofNat n => x * (2 ^ n : Nat)
  | .negSucc n => x / (2 ^ (n + 1) : Nat)

/-- The place of the leading bit: `2 ^ leading x ≤ |x| < 2 ^ (leading x + 1)`. -/
def leading (x : ℚ) : Int :=
  let guess : Int := (x.num.natAbs.log2 : Int) - x.den.log2
  if scale 1 guess ≤ |x| then guess else guess - 1

/-- The 53 leading bits are kept. -/
def roundBinary64 (x : ℚ) : ℚ :=
  let unit := leading x - 52
  scale (roundToEven (scale x (-unit))) unit

theorem roundToEven_intCast (n : Int) : roundToEven n = n := by
  simp [roundToEven, Rat.floor_intCast]

theorem scale_eq (x : ℚ) (exponent : Int) : scale x exponent = x * 2 ^ exponent := by
  cases exponent with
  | ofNat n => simp [scale]
  | negSucc n => simp [scale, zpow_negSucc, div_eq_mul_inv]

/-- A number of at most 53 bits is not changed: its scaled value is a whole number. -/
theorem roundBinary64_of_whole {x : ℚ} {n : Int} (whole : scale x (52 - leading x) = n)
    : roundBinary64 x = x := by
  have back : -(leading x - 52) = 52 - leading x := by omega
  rw [roundBinary64, back, whole, roundToEven_intCast, ← whole, scale_eq, scale_eq, mul_assoc,
    ← zpow_add₀ two_ne_zero, ← back, neg_add_cancel, zpow_zero, mul_one]

theorem leading_natCast {n : Nat} (positive : n ≠ 0) : leading n = n.log2 := by
  have below : scale 1 (n.log2 : Int) ≤ |(n : ℚ)| := by
    rw [scale_eq, one_mul, zpow_natCast, abs_of_nonneg n.cast_nonneg]
    exact_mod_cast Nat.log2_self_le positive
  have length : Nat.log2 1 = 0 := by decide
  simp only [leading, Rat.num_natCast, Rat.den_natCast, Int.natAbs_natCast, length,
    Int.ofNat_zero, sub_zero, if_pos below]

/-- Numbers below `2 ^ 53` are represented. -/
theorem roundBinary64_natCast {n : Nat} (small : n < 2 ^ 53) : roundBinary64 n = n := by
  by_cases zero : n = 0
  · have whole : scale n (52 - leading n) = (0 : Int) := by
      simp [zero, scale_eq]
    exact roundBinary64_of_whole whole
  · have bits : n.log2 < 53 := (Nat.log2_lt zero).mpr small
    have exponent : (52 - n.log2 : Int) = (52 - n.log2 : Nat) := by omega
    have whole : scale n (52 - leading n) = ((n * 2 ^ (52 - n.log2) : Nat) : Int) := by
      rw [leading_natCast zero, exponent, scale_eq, zpow_natCast]
      push_cast
      rfl
    exact roundBinary64_of_whole whole

example : roundBinary64 (1 / 3) = 6004799503160661 / 2 ^ 54 := by decide +kernel

example : [2 ^ 53 + 1, 2 ^ 53 + 3].map roundBinary64 = [2 ^ 53, 2 ^ 53 + 4] := by
  decide +kernel

end Rustikv.Library
