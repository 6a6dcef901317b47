import Mathlib.Data.Rat.Floor

/-!
# The `(int)` casts

Java's and C's narrowing of a real value to an integer drops the fraction.
Rationals stand for the floating-point values, so the cast is exact
truncation.  Narrowing a `long` keeps the low 32 bits.
-/

namespace CardScanner

/-- `(int) q`: truncation toward zero. -/
def toInt (q : ℚ) : ℤ := if 0 ≤ q then ⌊q⌋ else ⌈q⌉

/-- The cast to int rounds towards zero, which for what is not negative is
downwards. -/
theorem toInt_of_nonneg {q : ℚ} (hq : 0 ≤ q) : toInt q = ⌊q⌋ := if_pos hq

theorem toInt_nonneg {q : ℚ} (hq : 0 ≤ q) : 0 ≤ toInt q := by
  rw [toInt_of_nonneg hq]
  exact Int.floor_nonneg.mpr hq

/-- The cast keeps the order, across zero too. -/
theorem toInt_mono {a b : ℚ} (hab : a ≤ b) : toInt a ≤ toInt b := by
  unfold toInt
  split_ifs with ha hb hb
  · exact Int.floor_le_floor hab
  · exact absurd (ha.trans hab) hb
  · have hceil : ⌈a⌉ ≤ 0 := Int.ceil_le.mpr (by exact_mod_cast (not_le.mp ha).le)
    exact hceil.trans (Int.floor_nonneg.mpr hb)
  · exact Int.ceil_le_ceil hab

/-- On nonnegative values the cast never rounds up. -/
theorem toInt_le {q : ℚ} (hq : 0 ≤ q) : (toInt q : ℚ) ≤ q := by
  rw [toInt_of_nonneg hq]
  exact Int.floor_le q

/-- The cast keeps a nonnegative value exactly when it is whole. -/
theorem le_toInt_iff {q : ℚ} (hq : 0 ≤ q) : q ≤ toInt q ↔ q.den = 1 := by
  constructor
  · intro hle
    have heq : q = (toInt q : ℤ) := le_antisymm hle (toInt_le hq)
    rw [heq]
    exact Rat.den_intCast _
  · intro hden
    rw [toInt_of_nonneg hq, ← (Rat.den_eq_one_iff q).mp hden, Int.floor_intCast]

/-- `(int) v` of a `long`: the low 32 bits, signed. -/
def intOfLong (v : ℤ) : ℤ := (v + 2 ^ 31) % 2 ^ 32 - 2 ^ 31

theorem intOfLong_of_lt {v : ℤ} (hlow : -2 ^ 31 ≤ v) (hhigh : v < 2 ^ 31) : intOfLong v = v := by
  unfold intOfLong
  omega

end CardScanner
