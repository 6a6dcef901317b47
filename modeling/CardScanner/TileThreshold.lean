import CardScanner.WeightedMean
import Mathlib.Analysis.Real.Sqrt
import Mathlib.Data.List.Induction

/-!
# The threshold of a tile

`PixBinarizer::determineThresholdForTile` finds a threshold from the histogram
of a tile: the mean grey value, lowered by three square roots of the deviation
when the deviation is small against the mean.  Divisions by zero and square
roots of negative numbers have no value here, so that the function has one is
part of what is proved.

The loop leaves out the last bin that is not empty, but not the first, so the
weights do not sum to zero; the radicand is a weighted variance; and the two
tests that lead to the second branch put the mean above twice the deviation and
that above three times its square root.
-/

namespace CardScanner

/-! ## The function -/

/-- The counts of the 256 grey values. -/
structure GrayHistogram where
  bin : ℕ → ℝ
  nonneg : ∀ i, 0 ≤ bin i

/-- `numaSetValue(histo, 255, 0)`: white pixels are not counted. -/
def GrayHistogram.ignoreWhite (gray : GrayHistogram) : GrayHistogram where
  bin := Function.update gray.bin 255 0
  nonneg i := by
    by_cases hi : i = 255
    · simp [hi]
    · simpa [hi] using gray.nonneg i

/-- `numaGetNonzeroRange` with `eps` 0: the first and last bin above it. -/
noncomputable def numaGetNonzeroRange (histo : GrayHistogram) : Option (ℕ × ℕ) :=
  match (List.range 256).find? fun i => 0 < histo.bin i,
    (List.range 256).reverse.find? fun i => 0 < histo.bin i with
  | some first, some last => some (first, last)
  | _, _ => none

/-- A division, which has no value when the divisor is zero. -/
noncomputable def quotient (a b : ℝ) : Option ℝ := if b = 0 then none else some (a / b)

/-- A square root, which has no value below zero. -/
noncomputable def squareRoot (a : ℝ) : Option ℝ := if a < 0 then none else some (Real.sqrt a)

/-- The conversion of a float to an `int`: truncation. -/
noncomputable def truncate (a : ℝ) : ℤ := if 0 ≤ a then ⌊a⌋ else ⌈a⌉

/-- The sums of the loop. -/
structure TileSums where
  sum : ℝ
  moment : ℝ
  var : ℝ

/-- The body of the loop, for the bin `i` of the normalized histogram. -/
def TileSums.add (norm : ℕ → ℝ) (s : TileSums) (i : ℕ) : TileSums :=
  let y := norm i
  let iMulty := i * y
  { sum := s.sum + y, moment := s.moment + iMulty, var := s.var + i * iMulty }

/-- The end of `determineThresholdForTile`: the two branches. -/
noncomputable def thresholdOf (variance mean : ℝ) : Option ℤ :=
  if variance < 8 then some 0
  else if mean * 0.5 < variance then some (truncate mean)
  else do
    let root ← squareRoot variance
    return truncate (mean - root * 3)

/-- `determineThresholdForTile` from its loop on, which leaves out the bin
`stop` of the normalized histogram. -/
noncomputable def thresholdForRange (norm : ℕ → ℝ) (start stop : ℕ) : Option ℤ := do
  let s := (List.range' start (stop - start)).foldl (TileSums.add norm) ⟨0, 0, 0⟩
  let square ← quotient s.var s.sum
  let squareOfMean ← quotient (s.moment * s.moment) (s.sum * s.sum)
  let variance ← squareRoot (square - squareOfMean)
  let mean ← quotient s.moment s.sum
  let _meanY ← quotient s.sum (stop - start)
  thresholdOf variance mean

/-- `determineThresholdForTile`, from the histogram of the tile;
`numaNormalizeHistogram` multiplies every bin by `factor`. -/
noncomputable def determineThresholdForTile (factor : ℝ) (gray : GrayHistogram) : Option ℤ :=
  let histo := gray.ignoreWhite
  match numaGetNonzeroRange histo with
  | none => some 0
  | some (start, stop) =>
    if stop = start then some 0
    else thresholdForRange (fun i => factor * histo.bin i) start stop

/-! ## The range -/

/-- The bins the range is between: both hold something, neither is white.  The
search from the right cannot pass the bin at which that from the left has
stopped. -/
theorem nonzeroRange_spec {gray : GrayHistogram} {start stop : ℕ}
    (h : numaGetNonzeroRange gray.ignoreWhite = some (start, stop)) :
    start ≤ stop ∧ stop < 255 ∧ 0 < gray.ignoreWhite.bin start := by
  unfold numaGetNonzeroRange at h
  cases hfirst : (List.range 256).find? fun i => 0 < gray.ignoreWhite.bin i with
  | none => simp [hfirst] at h
  | some first =>
      cases hlast : (List.range 256).reverse.find? fun i => 0 < gray.ignoreWhite.bin i with
      | none => simp [hfirst, hlast] at h
      | some last =>
          simp only [hfirst, hlast, Option.some.injEq, Prod.mk.injEq] at h
          obtain ⟨rfl, rfl⟩ := h
          have hlastpos : 0 < gray.ignoreWhite.bin last := by
            simpa using List.find?_some hlast
          have hlastlt : last < 256 := by
            simpa using List.mem_of_find?_eq_some hlast
          have hwhite : last ≠ 255 := by
            rintro rfl
            simp [GrayHistogram.ignoreWhite] at hlastpos
          rw [List.find?_range_eq_some] at hfirst
          refine ⟨?_, by omega, by simpa using hfirst.1⟩
          by_contra hlt
          have hempty := hfirst.2.2 last (not_le.mp hlt)
          simp [hlastpos] at hempty

/-! ## The sums -/

/-- The loop computes the three sums of a weighted mean: of the weights, of
the values and of their squares. -/
theorem foldl_tileSums (norm : ℕ → ℝ) (start n : ℕ) :
    (List.range' start n).foldl (TileSums.add norm) ⟨0, 0, 0⟩ =
      ⟨∑ i ∈ Finset.Ico start (start + n), norm i,
        ∑ i ∈ Finset.Ico start (start + n), norm i * i,
        ∑ i ∈ Finset.Ico start (start + n), norm i * (i : ℝ) ^ 2⟩ := by
  induction n with
  | zero => simp
  | succ n ih =>
      rw [List.range'_concat, List.foldl_append, ih, ← Nat.add_assoc]
      simp only [List.foldl_cons, List.foldl_nil, TileSums.add, Nat.mul_comm 1, Nat.mul_one,
        Finset.sum_Ico_succ_top (Nat.le_add_right start n)]
      congr 1
      · ring
      · ring

/-! ## The two branches -/

/-- A quotient has a value unless the divisor is zero. -/
theorem quotient_of_ne {a b : ℝ} (hb : b ≠ 0) : quotient a b = some (a / b) := if_neg hb

theorem squareRoot_of_nonneg {a : ℝ} (ha : 0 ≤ a) : squareRoot a = some (Real.sqrt a) :=
  if_neg (not_lt.mpr ha)

/-- A truncated value between 0 and 254 stays there. -/
theorem truncate_bounds {a : ℝ} (ha : 0 ≤ a) (hle : a ≤ 254) :
    0 ≤ truncate a ∧ truncate a ≤ 254 := by
  rw [truncate, if_pos ha]
  refine ⟨Int.floor_nonneg.mpr ha, ?_⟩
  have hfloor := (Int.floor_le a).trans hle
  exact_mod_cast hfloor

/-- A deviation of at least eight is more than three times half its root. -/
theorem three_roots_le {v : ℝ} (hv : 8 ≤ v) : Real.sqrt v * 3 ≤ 2 * v := by
  have hroot : Real.sqrt v * Real.sqrt v = v := Real.mul_self_sqrt (by linarith)
  have hlarge : 2 ≤ Real.sqrt v := by
    apply Real.le_sqrt_of_sq_le
    linarith
  nlinarith

/-- Both branches have a value in the range. -/
theorem thresholdOf_bounds {variance mean : ℝ} (hmean : 0 ≤ mean) (hmeanle : mean ≤ 254) :
    ∃ threshold, thresholdOf variance mean = some threshold ∧
      0 ≤ threshold ∧ threshold ≤ 254 := by
  unfold thresholdOf
  split_ifs with hsmall hplain
  · exact ⟨0, rfl, le_rfl, by norm_num⟩
  · exact ⟨_, rfl, truncate_bounds hmean hmeanle⟩
  · have hlarge : 8 ≤ variance := not_lt.mp hsmall
    have hroots := three_roots_le hlarge
    have hrootpos := Real.sqrt_nonneg variance
    rw [squareRoot_of_nonneg (by linarith)]
    exact ⟨_, rfl, truncate_bounds (by linarith) (by linarith)⟩

/-- The sums have the quotients and roots that are taken of them, and the
result is the one for the weighted mean and deviation. -/
theorem thresholdForRange_eq {norm : ℕ → ℝ} {start stop : ℕ} (hlt : start < stop)
    (hnorm : ∀ i ∈ Finset.Ico start stop, 0 ≤ norm i)
    (hpos : 0 < ∑ i ∈ Finset.Ico start stop, norm i) :
    thresholdForRange norm start stop =
      thresholdOf (Real.sqrt (WeightedMean.variance (Finset.Ico start stop) norm (↑)))
        (WeightedMean.mean (Finset.Ico start stop) norm (↑)) := by
  have hloop := foldl_tileSums norm start (stop - start)
  rw [show start + (stop - start) = stop by omega] at hloop
  have hsquare : (∑ i ∈ Finset.Ico start stop, norm i) *
      ∑ i ∈ Finset.Ico start stop, norm i ≠ 0 := (mul_pos hpos hpos).ne'
  have hextent : ((stop : ℝ) - start) ≠ 0 := by
    rw [sub_ne_zero]
    exact_mod_cast hlt.ne'
  have hradicand := WeightedMean.variance_nonneg (x := fun i : ℕ => (i : ℝ)) hnorm hpos
  simp only [thresholdForRange, hloop, quotient_of_ne hpos.ne', quotient_of_ne hsquare,
    quotient_of_ne hextent, Option.bind_eq_bind, Option.bind_some]
  exact congrArg (Option.bind · _) (squareRoot_of_nonneg hradicand)

/-- **The threshold of a tile is a grey value.**  Whatever the tile, nothing is
divided by zero, no root of a negative number is taken, and the result lies
between 0 and 254. -/
theorem determineThresholdForTile_bounds {factor : ℝ} (hfactor : 0 < factor)
    (gray : GrayHistogram) :
    ∃ threshold, determineThresholdForTile factor gray = some threshold ∧
      0 ≤ threshold ∧ threshold ≤ 254 := by
  unfold determineThresholdForTile
  cases hrange : numaGetNonzeroRange gray.ignoreWhite with
  | none => exact ⟨0, by simp [hrange], by norm_num, by norm_num⟩
  | some range =>
      obtain ⟨start, stop⟩ := range
      obtain ⟨hle, hstop, hstart⟩ := nonzeroRange_spec hrange
      by_cases heq : stop = start
      · exact ⟨0, by simp [hrange, heq], by norm_num, by norm_num⟩
      · have hnorm : ∀ i ∈ Finset.Ico start stop, 0 ≤ factor * gray.ignoreWhite.bin i :=
          fun i _ => mul_nonneg hfactor.le (gray.ignoreWhite.nonneg i)
        have hpos : 0 < ∑ i ∈ Finset.Ico start stop, factor * gray.ignoreWhite.bin i :=
          Finset.sum_pos' hnorm ⟨start, Finset.mem_Ico.mpr ⟨le_rfl, by omega⟩,
            mul_pos hfactor hstart⟩
        have hvalue : ∀ i ∈ Finset.Ico start stop, (0 : ℝ) ≤ i ∧ (i : ℝ) ≤ 254 := by
          intro i hi
          have hlt := (Finset.mem_Ico.mp hi).2
          exact ⟨Nat.cast_nonneg i, by exact_mod_cast (by omega : i ≤ 254)⟩
        simp only [hrange, heq, if_false]
        rw [thresholdForRange_eq (by omega) hnorm hpos]
        apply thresholdOf_bounds
        · exact WeightedMean.mean_nonneg hnorm hpos fun i hi => (hvalue i hi).1
        · exact WeightedMean.mean_le hnorm hpos fun i hi => (hvalue i hi).2

/-- Four bins of a histogram, the last one of which the loop leaves out. -/
noncomputable def fourBins : GrayHistogram where
  bin i := if i = 100 then 1 else if i = 140 then 1 else if i = 180 then 1 else if i = 200 then 1
    else 0
  nonneg i := by
    split_ifs <;> norm_num

/-- The deviation of the first three bins is 33, less than half their mean of
140, so that the threshold is lowered. -/
theorem determineThresholdForTile_four_bins :
    ∃ threshold, determineThresholdForTile (1 / 4) fourBins = some threshold ∧
      0 ≤ threshold ∧ threshold ≤ 254 :=
  determineThresholdForTile_bounds (by norm_num) _

end CardScanner
