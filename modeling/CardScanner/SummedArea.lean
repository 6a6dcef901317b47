import Mathlib.Algebra.BigOperators.Intervals
import Mathlib.Algebra.BigOperators.Ring.Finset
import Mathlib.Data.BitVec
import Mathlib.Tactic.Abel

/-!
# Summed area tables

A summed area table holds at each place the sum of all values before it, in both
directions.  It is made line by line, each line from the one above, and then gives the sum
over any window by four of its entries (`accum_window`).

All this is true in any commutative group, and so in the words of a machine: the entries
may wrap around as often as they like, a window whose own sum fits into a word comes out
exact (`toNat_window`).
-/

namespace SummedArea

open Finset

section Group

variable {M : Type*} [AddCommGroup M]

/-- The sums along the first line. -/
def firstLine (v : ℕ → M) : ℕ → M
  | 0 => v 0
  | j + 1 => firstLine v j + v (j + 1)

/-- The sums along a further line, from those of the line above. -/
def nextLine (above v : ℕ → M) : ℕ → M
  | 0 => v 0 + above 0
  | j + 1 => v (j + 1) + nextLine above v j + above (j + 1) - above j

/-- The table, by line and column. -/
def accum (v : ℕ → ℕ → M) : ℕ → ℕ → M
  | 0 => firstLine (v 0)
  | i + 1 => nextLine (accum v i) (v (i + 1))

theorem firstLine_eq (v : ℕ → M) (j : ℕ) : firstLine v j = ∑ b ∈ range (j + 1), v b := by
  induction j with
  | zero => simp [firstLine]
  | succ j ih => rw [firstLine, ih, sum_range_succ _ (j + 1)]

/-- The line above enters by its own entry only. -/
theorem nextLine_eq (above v : ℕ → M) (j : ℕ) :
    nextLine above v j = above j + ∑ b ∈ range (j + 1), v b := by
  induction j with
  | zero => simp [nextLine, add_comm]
  | succ j ih =>
      rw [nextLine, ih, sum_range_succ _ (j + 1)]
      abel

/-- **An entry of the table** is the sum of all values up to it: the entry
above it and the sum of its own line. -/
theorem accum_eq (v : ℕ → ℕ → M) (i j : ℕ) :
    accum v i j = ∑ a ∈ range (i + 1), ∑ b ∈ range (j + 1), v a b := by
  induction i generalizing j with
  | zero => simp [accum, firstLine_eq]
  | succ i ih => rw [accum, nextLine_eq, ih, sum_range_succ _ (i + 1)]

/-- **The sum over a window** from the entries at its corners: the large
rectangle less the two beside the window, and the common part of these added
again. -/
theorem accum_window (v : ℕ → ℕ → M) {imin imax jmin jmax : ℕ} (hi : imin ≤ imax)
    (hj : jmin ≤ jmax) :
    accum v imax jmax - accum v imax jmin - accum v imin jmax + accum v imin jmin =
      ∑ a ∈ Ico (imin + 1) (imax + 1), ∑ b ∈ Ico (jmin + 1) (jmax + 1), v a b := by
  have hline : ∀ i, accum v i jmax - accum v i jmin =
      ∑ a ∈ range (i + 1), ∑ b ∈ Ico (jmin + 1) (jmax + 1), v a b := by
    intro i
    rw [accum_eq, accum_eq, ← sum_sub_distrib]
    refine sum_congr rfl fun a _ => ?_
    rw [sum_Ico_eq_sub _ (Nat.succ_le_succ hj)]
  rw [sum_Ico_eq_sub _ (Nat.succ_le_succ hi), ← hline, ← hline]
  abel

end Group

section Words

variable {w : ℕ}

/-- **A window in words.**  Whatever wraps around in the table, a sum that
fits comes out right, since addition and subtraction of words are those of
integers modulo their number. -/
theorem toNat_window (v : ℕ → ℕ → ℕ) {imin imax jmin jmax : ℕ} (hi : imin ≤ imax)
    (hj : jmin ≤ jmax)
    (hfits : ∑ a ∈ Ico (imin + 1) (imax + 1), ∑ b ∈ Ico (jmin + 1) (jmax + 1), v a b < 2 ^ w) :
    (accum (fun i j => (v i j : BitVec w)) imax jmax -
        accum (fun i j => (v i j : BitVec w)) imax jmin -
        accum (fun i j => (v i j : BitVec w)) imin jmax +
        accum (fun i j => (v i j : BitVec w)) imin jmin).toNat =
      ∑ a ∈ Ico (imin + 1) (imax + 1), ∑ b ∈ Ico (jmin + 1) (jmax + 1), v a b := by
  rw [accum_window _ hi hj]
  simp only [← Nat.cast_sum]
  exact (BitVec.toNat_ofNat _ _).trans (Nat.mod_eq_of_lt hfits)

end Words

end SummedArea
