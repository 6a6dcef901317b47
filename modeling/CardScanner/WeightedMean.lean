import Mathlib.Algebra.Order.BigOperators.Ring.Finset
import Mathlib.Tactic.FieldSimp
import Mathlib.Tactic.Linarith

/-!
# Weighted means and variances

Values `x` with weights `w`, given by three sums: of the weights, of the
weighted values and of the weighted squares.  The variance that is computed
from them in one pass is the weighted mean of the squared deviations from the
mean (`variance_eq`), so it is never negative; and the mean lies between any
bounds of the values.  Where the values are in two classes, what these scatter
less than all values together is the variance between them (`scatter_union`).
-/

namespace WeightedMean

variable {ι K : Type*} [Field K] (s : Finset ι) (w x : ι → K)

/-- The mean, as a quotient of two sums. -/
def mean : K := (∑ i ∈ s, w i * x i) / ∑ i ∈ s, w i

/-- The one-pass variance, from three sums. -/
def variance : K :=
  (∑ i ∈ s, w i * x i ^ 2) / (∑ i ∈ s, w i) -
    (∑ i ∈ s, w i * x i) * (∑ i ∈ s, w i * x i) / ((∑ i ∈ s, w i) * ∑ i ∈ s, w i)

variable {s w x}

/-- The squared deviations from the mean sum to the variance times the weight. -/
theorem variance_eq (hpos : ∑ i ∈ s, w i ≠ 0) :
    variance s w x = (∑ i ∈ s, w i * (x i - mean s w x) ^ 2) / ∑ i ∈ s, w i := by
  have hexpand : ∑ i ∈ s, w i * (x i - mean s w x) ^ 2 =
      ∑ i ∈ s, w i * x i ^ 2 - 2 * mean s w x * (∑ i ∈ s, w i * x i) +
        mean s w x ^ 2 * ∑ i ∈ s, w i := by
    rw [Finset.mul_sum, Finset.mul_sum, ← Finset.sum_sub_distrib, ← Finset.sum_add_distrib]
    refine Finset.sum_congr rfl fun i _ => ?_
    ring
  rw [hexpand]
  unfold variance mean
  field_simp
  ring

variable [LinearOrder K] [IsStrictOrderedRing K]

/-- **A variance is not negative**, being a sum of squares with weights that
are not. -/
theorem variance_nonneg (hw : ∀ i ∈ s, 0 ≤ w i) (hpos : 0 < ∑ i ∈ s, w i) :
    0 ≤ variance s w x := by
  rw [variance_eq hpos.ne']
  refine div_nonneg (Finset.sum_nonneg fun i hi => ?_) hpos.le
  exact mul_nonneg (hw i hi) (sq_nonneg _)

/-- A mean of values that are not negative is not. -/
theorem mean_nonneg (hw : ∀ i ∈ s, 0 ≤ w i) (hpos : 0 < ∑ i ∈ s, w i)
    (hx : ∀ i ∈ s, 0 ≤ x i) : 0 ≤ mean s w x :=
  div_nonneg (Finset.sum_nonneg fun i hi => mul_nonneg (hw i hi) (hx i hi)) hpos.le

/-- A mean is at most what all values are. -/
theorem mean_le (hw : ∀ i ∈ s, 0 ≤ w i) (hpos : 0 < ∑ i ∈ s, w i) {b : K}
    (hx : ∀ i ∈ s, x i ≤ b) : mean s w x ≤ b := by
  rw [mean, div_le_iff₀ hpos, Finset.mul_sum]
  refine Finset.sum_le_sum fun i hi => ?_
  rw [mul_comm b]
  exact mul_le_mul_of_nonneg_left (hx i hi) (hw i hi)

/-! ## Two classes -/

/-- The weighted squares of the deviations from the mean. -/
def scatter {ι K : Type*} [Field K] (s : Finset ι) (w x : ι → K) : K :=
  ∑ i ∈ s, w i * (x i - mean s w x) ^ 2

/-- Without weight there are no weighted values. -/
theorem sum_mul_eq_zero (hw : ∀ i ∈ s, 0 ≤ w i) (hzero : ∑ i ∈ s, w i = 0) (g : ι → K) :
    ∑ i ∈ s, w i * g i = 0 := by
  refine Finset.sum_eq_zero fun i hi => ?_
  rw [(Finset.sum_eq_zero_iff_of_nonneg hw).mp hzero i hi, zero_mul]

/-- The scatter as it is computed: the weighted squares, less the square of the
weighted sum over the weights. -/
theorem scatter_eq (hw : ∀ i ∈ s, 0 ≤ w i) :
    scatter s w x = ∑ i ∈ s, w i * x i ^ 2 - (∑ i ∈ s, w i * x i) ^ 2 / ∑ i ∈ s, w i := by
  by_cases hzero : ∑ i ∈ s, w i = 0
  · unfold scatter
    rw [sum_mul_eq_zero hw hzero, sum_mul_eq_zero hw hzero, hzero, div_zero, sub_zero]
  · have hvariance := variance_eq (x := x) hzero
    unfold scatter
    rw [eq_div_iff hzero] at hvariance
    rw [← hvariance]
    unfold variance
    field_simp

/-- **The variance between two classes.**  Taken together they scatter more
than each for itself, by the square of the distance of their means, weighted
by the product of their weights over the sum. -/
theorem scatter_union [DecidableEq ι] {t : Finset ι} (hdisjoint : Disjoint s t)
    (hs : ∀ i ∈ s, 0 ≤ w i) (ht : ∀ i ∈ t, 0 ≤ w i) :
    scatter (s ∪ t) w x - scatter s w x - scatter t w x =
      (∑ i ∈ s, w i) * (∑ i ∈ t, w i) / ((∑ i ∈ s, w i) + ∑ i ∈ t, w i) *
        (mean t w x - mean s w x) ^ 2 := by
  have hunion : ∀ i ∈ s ∪ t, 0 ≤ w i := by
    intro i hi
    exact (Finset.mem_union.mp hi).elim (hs i) (ht i)
  rw [scatter_eq hunion, scatter_eq hs, scatter_eq ht]
  simp only [Finset.sum_union hdisjoint]
  by_cases hzero : ∑ i ∈ s, w i = 0
  · rw [sum_mul_eq_zero hs hzero, sum_mul_eq_zero hs hzero, hzero]
    simp
  by_cases hzero' : ∑ i ∈ t, w i = 0
  · rw [sum_mul_eq_zero ht hzero', sum_mul_eq_zero ht hzero', hzero']
    simp
  have hpos : 0 < (∑ i ∈ s, w i) + ∑ i ∈ t, w i :=
    add_pos_of_pos_of_nonneg ((Finset.sum_nonneg hs).lt_of_ne' hzero) (Finset.sum_nonneg ht)
  have hne := hpos.ne'
  unfold mean
  field_simp
  ring

end WeightedMean
