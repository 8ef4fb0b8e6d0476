/-
  Toso.Lib.Binary64 — rationals rounded to binary64.

  A finite float is a rational, and an operation on floats is the exact one
  rounded to 53 significant bits, ties to even.  Exponents have the least value
  of the format and no greatest one: an overflow is not told apart.

  Main results:
    * `round_intCast` — a whole number of at most 53 bits is its own rounding.
    * `sub_intCast` — the difference of two is exact where it has as few.
-/
import Mathlib.Data.Int.Log
import Mathlib.Data.Rat.Floor
import Mathlib.Tactic.Linarith
import Mathlib.Tactic.Positivity

namespace Lib.Binary64

/-! ## §1. Rounding. -/

/-- The nearest whole number, the even one of two as near. -/
def roundEven (x : ℚ) : ℤ :=
  if x - ⌊x⌋ < 1 / 2 then ⌊x⌋
  else if 1 / 2 < x - ⌊x⌋ then ⌊x⌋ + 1
  else if ⌊x⌋ % 2 = 0 then ⌊x⌋ else ⌊x⌋ + 1

/-- The exponent of the unit a number is rounded to. -/
def unitExponent (x : ℚ) : ℤ := max (Int.log 2 |x| - 52) (-1074)

/-- The float nearest to a number. -/
def round (x : ℚ) : ℚ := roundEven (x / 2 ^ unitExponent x) * 2 ^ unitExponent x

/-- Subtraction of floats. -/
def sub (x y : ℚ) : ℚ := round (x - y)

/-- A float cut to a whole number, towards zero. -/
def truncate (x : ℚ) : ℤ := if 0 ≤ x then ⌊x⌋ else ⌈x⌉

/-! ## §2. Whole numbers. -/

@[simp] theorem roundEven_intCast (n : ℤ) : roundEven n = n := by
  simp [roundEven]

@[simp] theorem truncate_intCast (n : ℤ) : truncate n = n := by
  simp [truncate]

/-- Below `2 ^ 53` the unit is at most one. -/
theorem unitExponent_nonpos {x : ℚ} (hne : x ≠ 0) (h : |x| < 2 ^ (53 : ℤ)) :
    unitExponent x ≤ 0 := by
  have hlog : Int.log 2 |x| < 53 :=
    (Int.lt_zpow_iff_log_lt (by decide) (abs_pos.mpr hne)).mp (by exact_mod_cast h)
  refine max_le ?_ (by decide)
  omega

/-- **A whole number of at most 53 bits** is its own rounding. -/
theorem round_intCast {n : ℤ} (h : |n| < 2 ^ 53) : round n = n := by
  by_cases hn : n = 0
  · subst hn
    simp [round, roundEven]
  · have hcast : |(n : ℚ)| < 2 ^ (53 : ℤ) := by exact_mod_cast h
    have hunit := unitExponent_nonpos (Int.cast_ne_zero.mpr hn) hcast
    obtain ⟨k, hk⟩ := Int.eq_ofNat_of_zero_le (neg_nonneg.mpr hunit)
    have hpow : (2 : ℚ) ^ unitExponent (n : ℚ) = (2 ^ k)⁻¹ := by
      rw [show unitExponent (n : ℚ) = -(k : ℤ) by omega, zpow_neg, zpow_natCast]
    -- in its unit the number is whole
    have hunits : (n : ℚ) / 2 ^ unitExponent (n : ℚ) = ((n * 2 ^ k : ℤ) : ℚ) := by
      rw [hpow, div_inv_eq_mul]
      push_cast
      rfl
    unfold round
    rw [hunits, roundEven_intCast, hpow]
    push_cast
    rw [mul_assoc, mul_inv_cancel₀ (by positivity), mul_one]

/-- The difference of two whole numbers of few bits is exact. -/
theorem sub_intCast {m n : ℤ} (h : |m - n| < 2 ^ 53) : sub m n = ((m - n : ℤ) : ℚ) := by
  unfold sub
  rw [← Int.cast_sub, round_intCast h]

end Lib.Binary64
