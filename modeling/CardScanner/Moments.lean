import Mathlib.Algebra.Field.Basic
import Mathlib.Data.Nat.Choose.Sum
import Mathlib.Tactic.FieldSimp
import Mathlib.Tactic.Ring

/-!
# Sums of powers of deviations

The moments of a list about a point `c` are the sums of the powers of the
deviations from `c`.  They add up over a concatenation, and moving the point
expands by the binomial theorem (`deviationSum_shift`).  About the mean the
first one vanishes, so there the expansions of the second, third and fourth are
short; any scheme that carries the moments about the mean from list to list
rests on these three equations.
-/

namespace Moments

variable {K : Type*} [Field K]

/-- The sum of the `k`-th powers of the deviations from `c`. -/
def deviationSum (k : ℕ) (c : K) (xs : List K) : K := (xs.map fun x => (x - c) ^ k).sum

/-- The mean; 0 for the empty list. -/
def mean (xs : List K) : K := xs.sum / xs.length

@[simp] theorem deviationSum_nil (k : ℕ) (c : K) : deviationSum k c [] = 0 := rfl

@[simp] theorem deviationSum_cons (k : ℕ) (c x : K) (xs : List K) :
    deviationSum k c (x :: xs) = (x - c) ^ k + deviationSum k c xs := by
  simp [deviationSum]

/-- Two sequences one after the other have their deviations added up, whatever
they are taken from. -/
theorem deviationSum_append (k : ℕ) (c : K) (xs ys : List K) :
    deviationSum k c (xs ++ ys) = deviationSum k c xs + deviationSum k c ys := by
  simp [deviationSum]

theorem deviationSum_zero (c : K) (xs : List K) : deviationSum 0 c xs = xs.length := by
  induction xs with
  | nil => simp
  | cons x xs ih =>
      rw [deviationSum_cons, ih]
      simp [add_comm]

/-- The first powers add up to the sum, less as many times the centre. -/
theorem deviationSum_one (c : K) (xs : List K) :
    deviationSum 1 c xs = xs.sum - xs.length * c := by
  induction xs with
  | nil => simp
  | cons x xs ih =>
      rw [deviationSum_cons, ih]
      push_cast [List.sum_cons, List.length_cons]
      ring

/-- Moving the point expands by the binomial theorem. -/
theorem deviationSum_shift (k : ℕ) (c t : K) (xs : List K) :
    deviationSum k (c + t) xs =
      ∑ i ∈ Finset.range (k + 1), (-t) ^ (k - i) * k.choose i * deviationSum i c xs := by
  induction xs with
  | nil => simp
  | cons x xs ih =>
      have hsplit : x - (c + t) = (x - c) + -t := by ring
      rw [deviationSum_cons, ih, hsplit, add_pow, ← Finset.sum_add_distrib]
      apply Finset.sum_congr rfl
      intro i _
      rw [deviationSum_cons]
      ring

@[simp] theorem mean_nil : mean ([] : List K) = 0 := by simp [mean]

variable [CharZero K]

/-- The mean times the number of values is their sum, for no values too. -/
theorem length_mul_mean (xs : List K) : xs.length * mean xs = xs.sum := by
  cases xs with
  | nil => simp
  | cons x xs =>
      have hlength : ((x :: xs).length : K) ≠ 0 := by
        rw [Nat.cast_ne_zero]
        exact Nat.succ_ne_zero _
      rw [mean, mul_div_cancel₀ _ hlength]

/-- The mean of a concatenation is the mean of the means, weighted by the
lengths. -/
theorem mean_append (xs ys : List K) :
    mean (xs ++ ys) =
      (xs.length * mean xs + ys.length * mean ys) / ((xs.length : K) + ys.length) := by
  rw [length_mul_mean, length_mul_mean, mean, List.sum_append, List.length_append, Nat.cast_add]

/-- About the mean the deviations cancel. -/
theorem deviationSum_one_mean (xs : List K) : deviationSum 1 (mean xs) xs = 0 := by
  rw [deviationSum_one, length_mul_mean, sub_self]

/-- How the sum of squares changes when the centre moves away from the mean by
`t`. -/
theorem deviationSum_two_shift (t : K) (xs : List K) :
    deviationSum 2 (mean xs + t) xs = deviationSum 2 (mean xs) xs + xs.length * t ^ 2 := by
  rw [deviationSum_shift]
  simp only [Finset.sum_range_succ, Finset.sum_range_zero, deviationSum_one_mean,
    deviationSum_zero]
  norm_num [Nat.choose]
  ring

/-- The same for the sum of cubes, where that of the squares comes in. -/
theorem deviationSum_three_shift (t : K) (xs : List K) :
    deviationSum 3 (mean xs + t) xs =
      deviationSum 3 (mean xs) xs - 3 * t * deviationSum 2 (mean xs) xs - xs.length * t ^ 3 := by
  rw [deviationSum_shift]
  simp only [Finset.sum_range_succ, Finset.sum_range_zero, deviationSum_one_mean,
    deviationSum_zero]
  norm_num [Nat.choose]
  ring

theorem deviationSum_four_shift (t : K) (xs : List K) :
    deviationSum 4 (mean xs + t) xs =
      deviationSum 4 (mean xs) xs - 4 * t * deviationSum 3 (mean xs) xs +
        6 * t ^ 2 * deviationSum 2 (mean xs) xs + xs.length * t ^ 4 := by
  rw [deviationSum_shift]
  simp only [Finset.sum_range_succ, Finset.sum_range_zero, deviationSum_one_mean,
    deviationSum_zero]
  norm_num [Nat.choose]
  ring

end Moments
