import CardScanner.Plateau
import CardScanner.WeightedMean
import Mathlib.Algebra.BigOperators.Intervals
import Mathlib.Data.List.GetD
import Mathlib.Algebra.Order.Ring.Rat
import Mathlib.Algebra.Field.Rat
import Mathlib.Tactic.Linarith
import Mathlib.Tactic.NormNum

/-!
# Where a histogram is split

`numaSplitDistribution` goes once through a histogram and keeps, for the bins up to the
current one and for those behind it, the number of values and their mean, each from
the one before.  The score of a split is the variance between the two classes
(`score_eq`), so the best split is the one whose classes scatter least.

The histogram is lowest, among the splits around the best one whose score is almost as
high, at the split that is returned (`numaSplitDistribution_otsu`).  The numbers are
those of an ordered field here, so that nothing is rounded.
-/

namespace CardScanner

open WeightedMean Plateau Finset

section Scan

variable {K : Type*} [Field K] [LinearOrder K]

/-- `numaGetFValue`, which is 0 where there is no value. -/
def numaGetFValue (na : List K) (index : ℕ) : K := na.getD index 0

/-- The mean of `numaGetHistogramStats`, for bins at 0, 1 and so on. -/
def histogramMean (na : List K) : K :=
  let sums := (List.range na.length).foldl
    (fun (sums : K × K) i =>
      (sums.1 + numaGetFValue na i, sums.2 + i * numaGetFValue na i)) (0, 0)
  if sums.1 = 0 then 0 else sums.2 / sums.1

/-- The variables of the first loop, after a bin. -/
structure SplitScan (K : Type*) where
  num1 : K
  num2 : K
  ave1 : K
  ave2 : K
  nascore : List K
  maxscore : K
  maxindex : ℕ

/-- The body of the first loop.  A bin goes from the upper side to the lower,
and a best score is kept with its place. -/
def SplitScan.read (na : List K) (norm sum : K) (s : SplitScan K) (i : ℕ) : SplitScan K :=
  let val := numaGetFValue na i
  let num1 := s.num1 + val
  let ave1 := if num1 = 0 then s.ave1 else (s.num1 * s.ave1 + i * val) / num1
  let num2 := s.num2 - val
  let ave2 := if num2 = 0 then s.ave2 else (s.num2 * s.ave2 - i * val) / num2
  let fract1 := num1 / sum
  let score := norm * (fract1 * (1 - fract1)) * (ave2 - ave1) * (ave2 - ave1)
  { num1 := num1
    num2 := num2
    ave1 := ave1
    ave2 := ave2
    nascore := s.nascore ++ [score]
    maxscore := if score > s.maxscore then score else s.maxscore
    maxindex := if score > s.maxscore then i else s.maxindex }

/-- Its normalisation. -/
def scoreNorm (na : List K) : K := 4 / ((na.length - 1) * (na.length - 1))

/-- The first `k` rounds of the first loop. -/
def scoreSplits (na : List K) (k : ℕ) : SplitScan K :=
  (List.range k).foldl (SplitScan.read na (scoreNorm na) na.sum)
    ⟨0, na.sum, 0, histogramMean na, [], 0, na.length / 2⟩

/-- `numaSplitDistribution`, which also sets its other results if they are
asked for. -/
def numaSplitDistribution (na : List K) (scorefract : K) : Option ℕ :=
  if na.length ≤ 1 then none
  else if na.sum ≤ 0 then none
  else
    let scan := scoreSplits na na.length
    let minscore := (1 - scorefract) * scan.maxscore
    let passes := fun i => !decide (numaGetFValue scan.nascore i < minscore)
    let minrange := leftEnd passes scan.maxindex
    let maxrange := rightEnd passes scan.maxindex na.length
    let bestsplit := lowest (numaGetFValue na) minrange (maxrange - minrange)
    some (min 255 (bestsplit + 1))

end Scan

/-! ## The two classes of a split -/

section Classes

variable {K : Type*} [Field K]

/-- How much the values up to the bin `i`, and those behind it, scatter. -/
def withinScatter (na : List K) (i : ℕ) : K :=
  scatter (range (i + 1)) (numaGetFValue na) (fun k => (k : K)) +
    scatter (Ico (i + 1) na.length) (numaGetFValue na) fun k => (k : K)

/-- What the split explains of the scatter of all values. -/
def explained (na : List K) (i : ℕ) : K :=
  scatter (range na.length) (numaGetFValue na) (fun k => (k : K)) - withinScatter na i

/-- The score of a split, in terms of its classes. -/
def splitScore (na : List K) (i : ℕ) : K := scoreNorm na / na.sum * explained na i

theorem sum_numaGetFValue (na : List K) :
    ∑ k ∈ range na.length, numaGetFValue na k = na.sum := by
  unfold numaGetFValue
  induction na with
  | nil => rfl
  | cons v na ih =>
      rw [List.length_cons, sum_range_succ', List.sum_cons, ← ih, add_comm]
      rfl

variable [LinearOrder K] [IsStrictOrderedRing K]

omit [IsStrictOrderedRing K] in
theorem numaGetFValue_nonneg {na : List K} (hna : ∀ v ∈ na, 0 ≤ v) (k : ℕ) :
    0 ≤ numaGetFValue na k := by
  unfold numaGetFValue
  rcases Nat.lt_or_ge k na.length with hlt | hge
  · rw [List.getD_eq_getElem _ _ hlt]
    exact hna _ (List.getElem_mem hlt)
  · rw [List.getD_eq_default _ _ hge]

/-- The variance between the classes, from their two weights and the
difference of their means. -/
theorem explained_eq {na : List K} (hna : ∀ v ∈ na, 0 ≤ v) {i : ℕ} (hi : i < na.length) :
    explained na i =
      (∑ k ∈ range (i + 1), numaGetFValue na k) *
          (∑ k ∈ Ico (i + 1) na.length, numaGetFValue na k) / na.sum *
        (mean (Ico (i + 1) na.length) (numaGetFValue na) (fun k => (k : K)) -
          mean (range (i + 1)) (numaGetFValue na) fun k => (k : K)) ^ 2 := by
  have hunion : range (i + 1) ∪ Ico (i + 1) na.length = range na.length := by
    rw [range_eq_Ico, range_eq_Ico, Ico_union_Ico_eq_Ico (Nat.zero_le _) hi]
  have hdisjoint : Disjoint (range (i + 1)) (Ico (i + 1) na.length) := by
    rw [range_eq_Ico]
    exact Ico_disjoint_Ico_consecutive 0 (i + 1) na.length
  have hnonneg : ∀ {t : Finset ℕ}, ∀ k ∈ t, 0 ≤ numaGetFValue na k :=
    fun k _ => numaGetFValue_nonneg hna k
  have hscatter := scatter_union (x := fun k : ℕ => (k : K)) hdisjoint hnonneg hnonneg
  rw [hunion, ← sum_union hdisjoint, hunion, sum_numaGetFValue] at hscatter
  rw [← hscatter]
  unfold explained withinScatter
  ring

omit [LinearOrder K] [IsStrictOrderedRing K] in
/-- A running mean times its weight is the moment of its class. -/
theorem ave_eq_mean {t : Finset ℕ} {w : ℕ → K} {num ave : K} (hnum : num = ∑ k ∈ t, w k)
    (hmoment : num * ave = ∑ k ∈ t, w k * k) (hne : num ≠ 0) :
    ave = mean t w fun k => (k : K) := by
  unfold mean
  rw [← hmoment, ← hnum, mul_div_cancel_left₀ _ hne]

/-- **The score.**  Where the running counts and means are those of the
classes, the score is the variance between these.  That they are is what
`Scanned` says after each turn. -/
theorem score_eq {na : List K} (hna : ∀ v ∈ na, 0 ≤ v) (hsum : 0 < na.sum) {i : ℕ}
    (hi : i < na.length) {num1 num2 ave1 ave2 : K}
    (hnum1 : num1 = ∑ k ∈ range (i + 1), numaGetFValue na k)
    (hmoment1 : num1 * ave1 = ∑ k ∈ range (i + 1), numaGetFValue na k * k)
    (hnum2 : num2 = ∑ k ∈ Ico (i + 1) na.length, numaGetFValue na k)
    (hmoment2 : num2 * ave2 = ∑ k ∈ Ico (i + 1) na.length, numaGetFValue na k * k) :
    scoreNorm na * (num1 / na.sum * (1 - num1 / na.sum)) * (ave2 - ave1) * (ave2 - ave1) =
      splitScore na i := by
  have htotal : num1 + num2 = na.sum := by
    rw [hnum1, hnum2, range_eq_Ico, sum_Ico_consecutive _ (Nat.zero_le _) hi, ← range_eq_Ico,
      sum_numaGetFValue]
  have hrest : 1 - num1 / na.sum = num2 / na.sum := by
    rw [← htotal, eq_div_iff (htotal ▸ hsum.ne'), sub_mul, one_mul,
      div_mul_cancel₀ _ (htotal ▸ hsum.ne')]
    ring
  unfold splitScore
  rw [explained_eq hna hi, ← hnum1, ← hnum2, hrest]
  by_cases hzero : num1 = 0
  · simp [hzero]
  by_cases hzero' : num2 = 0
  · simp [hzero']
  rw [← ave_eq_mean hnum1 hmoment1 hzero, ← ave_eq_mean hnum2 hmoment2 hzero']
  ring

/-! ## The first loop -/

/-- What the first loop knows after `k` bins. -/
structure Scanned (na : List K) (k : ℕ) (s : SplitScan K) : Prop where
  num1 : s.num1 = ∑ j ∈ range k, numaGetFValue na j
  moment1 : s.num1 * s.ave1 = ∑ j ∈ range k, numaGetFValue na j * j
  num2 : s.num2 = ∑ j ∈ Ico k na.length, numaGetFValue na j
  moment2 : s.num2 * s.ave2 = ∑ j ∈ Ico k na.length, numaGetFValue na j * j
  nascore : s.nascore = (List.range k).map (splitScore na)
  le_max : ∀ i < k, splitScore na i ≤ s.maxscore
  max_nonneg : 0 ≤ s.maxscore
  index : (s.maxscore = 0 ∧ s.maxindex = na.length / 2) ∨
    (s.maxindex < k ∧ splitScore na s.maxindex = s.maxscore)

omit [LinearOrder K] [IsStrictOrderedRing K] in
/-- The loop for the sums over the whole array: that of the values, and that
of the values times their index. -/
theorem foldl_pair (w : ℕ → K) (k : ℕ) :
    (List.range k).foldl (fun (sums : K × K) i => (sums.1 + w i, sums.2 + i * w i)) (0, 0) =
      (∑ j ∈ range k, w j, ∑ j ∈ range k, w j * j) := by
  induction k with
  | zero => rfl
  | succ k ih =>
      rw [List.range_succ, List.foldl_append, ih, List.foldl_cons, List.foldl_nil,
        sum_range_succ, sum_range_succ, mul_comm (k : K)]

omit [IsStrictOrderedRing K] in
/-- Before the first turn the lower class is empty and the upper one is
everything. -/
theorem Scanned.start {na : List K} (hsum : 0 < na.sum) :
    Scanned na 0 (scoreSplits na 0) := by
  refine ⟨rfl, ?_, ?_, ?_, rfl, fun i hi => absurd hi (Nat.not_lt_zero i), le_rfl,
    .inl ⟨rfl, rfl⟩⟩
  · exact zero_mul _
  · rw [← range_eq_Ico, sum_numaGetFValue]
    rfl
  · rw [← range_eq_Ico]
    change na.sum * histogramMean na = _
    unfold histogramMean
    rw [foldl_pair, sum_numaGetFValue]
    simp only [if_neg hsum.ne']
    exact mul_div_cancel₀ _ hsum.ne'

/-- One more bin: it changes sides, and both running sums and means are
brought up to date. -/
theorem Scanned.read {na : List K} (hna : ∀ v ∈ na, 0 ≤ v) (hsum : 0 < na.sum) {k : ℕ}
    (hk : k < na.length) {s : SplitScan K} (h : Scanned na k s) :
    Scanned na (k + 1) (s.read na (scoreNorm na) na.sum k) := by
  have hnonneg : ∀ {t : Finset ℕ}, ∀ j ∈ t, 0 ≤ numaGetFValue na j :=
    fun j _ => numaGetFValue_nonneg hna j
  let t := s.read na (scoreNorm na) na.sum k
  have hnum1 : t.num1 = ∑ j ∈ range (k + 1), numaGetFValue na j := by
    rw [sum_range_succ, ← h.num1]
    rfl
  have hnum2 : t.num2 = ∑ j ∈ Ico (k + 1) na.length, numaGetFValue na j := by
    have hsplit := sum_eq_sum_Ico_succ_bot hk (numaGetFValue na)
    rw [← h.num2] at hsplit
    exact sub_eq_of_eq_add' hsplit
  have hmoment1 : t.num1 * t.ave1 = ∑ j ∈ range (k + 1), numaGetFValue na j * j := by
    by_cases hzero : t.num1 = 0
    · rw [hzero, zero_mul, sum_mul_eq_zero hnonneg (hnum1 ▸ hzero)]
    · have have1 : t.ave1 = (s.num1 * s.ave1 + k * numaGetFValue na k) / t.num1 := if_neg hzero
      rw [have1, mul_div_cancel₀ _ hzero, h.moment1, sum_range_succ, mul_comm (k : K)]
  have hmoment2 : t.num2 * t.ave2 = ∑ j ∈ Ico (k + 1) na.length, numaGetFValue na j * j := by
    by_cases hzero : t.num2 = 0
    · rw [hzero, zero_mul, sum_mul_eq_zero hnonneg (hnum2 ▸ hzero)]
    · have have2 : t.ave2 = (s.num2 * s.ave2 - k * numaGetFValue na k) / t.num2 := if_neg hzero
      rw [have2, mul_div_cancel₀ _ hzero, h.moment2, sum_eq_sum_Ico_succ_bot hk]
      ring
  have hscore := score_eq hna hsum hk hnum1 hmoment1 hnum2 hmoment2
  have hscores : t.nascore = (List.range (k + 1)).map (splitScore na) := by
    rw [List.range_succ, List.map_append, ← h.nascore, List.map_singleton, ← hscore]
    rfl
  have hmax : t.maxscore =
      if splitScore na k > s.maxscore then splitScore na k else s.maxscore := by
    rw [← hscore]
    rfl
  have hindex : t.maxindex = if splitScore na k > s.maxscore then k else s.maxindex := by
    rw [← hscore]
    rfl
  rcases lt_or_ge s.maxscore (splitScore na k) with hmore | hless
  · rw [if_pos hmore] at hmax hindex
    refine ⟨hnum1, hmoment1, hnum2, hmoment2, hscores, fun i hi => ?_, ?_, .inr ⟨?_, ?_⟩⟩
    · change splitScore na i ≤ t.maxscore
      rw [hmax]
      rcases (Nat.le_of_lt_succ hi).lt_or_eq with hlt | rfl
      · exact (h.le_max i hlt).trans hmore.le
      · exact le_rfl
    · exact hmax ▸ h.max_nonneg.trans hmore.le
    · change t.maxindex < k + 1
      rw [hindex]
      exact Nat.lt_succ_self k
    · change splitScore na t.maxindex = t.maxscore
      rw [hindex, hmax]
  · rw [if_neg hless.not_gt] at hmax hindex
    refine ⟨hnum1, hmoment1, hnum2, hmoment2, hscores, fun i hi => ?_, ?_, ?_⟩
    · change splitScore na i ≤ t.maxscore
      rw [hmax]
      rcases (Nat.le_of_lt_succ hi).lt_or_eq with hlt | rfl
      · exact h.le_max i hlt
      · exact hless
    · exact hmax ▸ h.max_nonneg
    · change (t.maxscore = 0 ∧ t.maxindex = _) ∨ (t.maxindex < _ ∧ _ = t.maxscore)
      rw [hmax, hindex]
      exact h.index.imp_right fun hi => ⟨hi.1.trans (Nat.lt_succ_self k), hi.2⟩

/-- After every number of turns the running values are what they stand for.  By
induction, with `Scanned.read` for a turn. -/
theorem scoreSplits_scanned {na : List K} (hna : ∀ v ∈ na, 0 ≤ v) (hsum : 0 < na.sum) {k : ℕ}
    (hk : k ≤ na.length) : Scanned na k (scoreSplits na k) := by
  induction k with
  | zero => exact Scanned.start hsum
  | succ k ih =>
      have hnext : scoreSplits na (k + 1) =
          (scoreSplits na k).read na (scoreNorm na) na.sum k := by
        unfold scoreSplits
        rw [List.range_succ, List.foldl_append, List.foldl_cons, List.foldl_nil]
      rw [hnext]
      exact (ih (Nat.le_of_succ_le hk)).read hna hsum hk

/-- After `k` bins the counts and, where there are values, the means are those
of the bins read and of the others. -/
structure RunningMeans (na : List K) (k : ℕ) (s : SplitScan K) : Prop where
  num1 : s.num1 = ∑ j ∈ range k, numaGetFValue na j
  ave1 : s.num1 ≠ 0 → s.ave1 = mean (range k) (numaGetFValue na) fun j => (j : K)
  num2 : s.num2 = ∑ j ∈ Ico k na.length, numaGetFValue na j
  ave2 : s.num2 ≠ 0 → s.ave2 = mean (Ico k na.length) (numaGetFValue na) fun j => (j : K)

/-- Carrying the means along is exact. -/
theorem scoreSplits_runningMeans {na : List K} (hna : ∀ v ∈ na, 0 ≤ v) (hsum : 0 < na.sum) {k : ℕ}
    (hk : k ≤ na.length) : RunningMeans na k (scoreSplits na k) := by
  have h := scoreSplits_scanned hna hsum hk
  exact ⟨h.num1, ave_eq_mean h.num1 h.moment1, h.num2, ave_eq_mean h.num2 h.moment2⟩

/-! ## The split -/

/-- The factor before each score is positive, so it does not change which is
the best. -/
theorem scoreFactor_pos {na : List K} (hlen : 1 < na.length) (hsum : 0 < na.sum) :
    0 < scoreNorm na / na.sum := by
  have hcast : (0 : K) < na.length - 1 := sub_pos.mpr (by exact_mod_cast hlen)
  exact div_pos (div_pos four_pos (mul_pos hcast hcast)) hsum

theorem explained_nonneg {na : List K} (hna : ∀ v ∈ na, 0 ≤ v) (hsum : 0 < na.sum) {i : ℕ}
    (hi : i < na.length) : 0 ≤ explained na i := by
  have hnonneg : ∀ {t : Finset ℕ}, ∀ k ∈ t, 0 ≤ numaGetFValue na k :=
    fun k _ => numaGetFValue_nonneg hna k
  rw [explained_eq hna hi]
  exact mul_nonneg (div_nonneg (mul_nonneg (sum_nonneg hnonneg) (sum_nonneg hnonneg)) hsum.le)
    (sq_nonneg _)

/-- The loop ends with the best split.  If all scores are 0 it has moved
nowhere, and the middle where it began is as good as any. -/
theorem scoreSplits_max {na : List K} (hna : ∀ v ∈ na, 0 ≤ v) (hlen : 1 < na.length)
    (hsum : 0 < na.sum) :
    (scoreSplits na na.length).maxindex < na.length ∧
      splitScore na (scoreSplits na na.length).maxindex =
        (scoreSplits na na.length).maxscore := by
  have hscan := scoreSplits_scanned hna hsum le_rfl
  rcases hscan.index with ⟨hzero, hmiddle⟩ | hfound
  · have hlt : na.length / 2 < na.length := Nat.div_lt_self (by omega) (by decide)
    have hle := hscan.le_max _ hlt
    have hge : 0 ≤ splitScore na (na.length / 2) :=
      mul_nonneg (scoreFactor_pos hlen hsum).le (explained_nonneg hna hsum hlt)
    rw [hmiddle]
    exact ⟨hlt, le_antisymm hle (hzero ▸ hge)⟩
  · exact hfound

/-- The splits from `peak` to `i` explain almost as much as this one. -/
def OnPlateau (na : List K) (scorefract : K) (peak i : ℕ) : Prop :=
  ∀ j, min peak i ≤ j → j ≤ max peak i → (1 - scorefract) * explained na peak ≤ explained na j

/-- Where the second and third loop go on. -/
def scorePasses (na : List K) (scorefract : K) (i : ℕ) : Bool :=
  !decide (numaGetFValue (scoreSplits na na.length).nascore i <
    (1 - scorefract) * (scoreSplits na na.length).maxscore)

/-- The test against the best score is one on the explained scatter, which
differs by a positive factor. -/
theorem scorePasses_iff {na : List K} (hna : ∀ v ∈ na, 0 ≤ v) (hlen : 1 < na.length)
    (hsum : 0 < na.sum) (scorefract : K) {i : ℕ} (hi : i < na.length) :
    scorePasses na scorefract i = true ↔
      (1 - scorefract) * explained na (scoreSplits na na.length).maxindex ≤ explained na i := by
  have hscan := scoreSplits_scanned hna hsum (le_refl na.length)
  have hscore : numaGetFValue (scoreSplits na na.length).nascore i = splitScore na i := by
    unfold numaGetFValue
    rw [hscan.nascore, List.getD_eq_getElem _ _ (by simpa using hi)]
    simp
  unfold scorePasses
  rw [hscore, ← (scoreSplits_max hna hlen hsum).2]
  unfold splitScore
  rw [mul_left_comm]
  simp [mul_le_mul_iff_right₀ (scoreFactor_pos hlen hsum)]

/-- The peak is on its own plateau. -/
theorem scorePasses_peak {na : List K} (hna : ∀ v ∈ na, 0 ≤ v) (hlen : 1 < na.length)
    (hsum : 0 < na.sum) {scorefract : K} (hfract : 0 ≤ scorefract) :
    scorePasses na scorefract (scoreSplits na na.length).maxindex = true := by
  have hpeak := (scoreSplits_max hna hlen hsum).1
  rw [scorePasses_iff hna hlen hsum scorefract hpeak]
  have hnonneg := mul_nonneg hfract (explained_nonneg hna hsum hpeak)
  linarith only [hnonneg]

/-- So the loops to both sides stay on the plateau of the best split. -/
theorem joined_scorePasses_iff {na : List K} (hna : ∀ v ∈ na, 0 ≤ v) (hlen : 1 < na.length)
    (hsum : 0 < na.sum) (scorefract : K) {i : ℕ} (hi : i < na.length) :
    Joined (scorePasses na scorefract) (scoreSplits na na.length).maxindex i ↔
      OnPlateau na scorefract (scoreSplits na na.length).maxindex i := by
  have hpeak := (scoreSplits_max hna hlen hsum).1
  refine forall_congr' fun j => forall_congr' fun _ => forall_congr' fun hj => ?_
  exact scorePasses_iff hna hlen hsum scorefract (hj.trans_lt (max_lt hpeak hi))

/-- **The split of a histogram.**  The means that are carried along are the
means.  Some split leaves the least scatter within its two classes.  Among the
splits around it that explain all but the fraction `scorefract` of what it
explains, the histogram is lowest at the one that is returned, as the
threshold above it; of several it is the first. -/
theorem numaSplitDistribution_otsu {na : List K} {scorefract : K} (hfract : 0 ≤ scorefract)
    (hna : ∀ v ∈ na, 0 ≤ v) (hlen : 1 < na.length) (hsum : 0 < na.sum) :
    (∀ k ≤ na.length, RunningMeans na k (scoreSplits na k)) ∧
      ∃ peak split, peak < na.length ∧ split < na.length ∧
        numaSplitDistribution na scorefract = some (min 255 (split + 1)) ∧
        (∀ i < na.length, withinScatter na peak ≤ withinScatter na i) ∧
        OnPlateau na scorefract peak split ∧
        ∀ i < na.length, OnPlateau na scorefract peak i →
          numaGetFValue na split ≤ numaGetFValue na i ∧
          (i < split → numaGetFValue na split < numaGetFValue na i) := by
  obtain ⟨hpeak, hmaxscore⟩ := scoreSplits_max hna hlen hsum
  have hscan := scoreSplits_scanned hna hsum (le_refl na.length)
  have hpass := scorePasses_peak hna hlen hsum hfract
  let peak := (scoreSplits na na.length).maxindex
  let minrange := leftEnd (scorePasses na scorefract) peak
  let maxrange := rightEnd (scorePasses na scorefract) peak na.length
  let split := lowest (numaGetFValue na) minrange (maxrange - minrange)
  have hplateau : ∀ {i}, i < na.length →
      (minrange ≤ i ∧ i ≤ maxrange ↔ OnPlateau na scorefract peak i) := by
    intro i hi
    exact (mem_plateau_iff hpass hi).trans (joined_scorePasses_iff hna hlen hsum scorefract hi)
  have hminmax : minrange ≤ maxrange := (leftEnd_le peak).trans le_rightEnd
  obtain ⟨hge, hle, hleast⟩ := lowest_spec (numaGetFValue na) minrange (maxrange - minrange)
  rw [Nat.add_sub_cancel' hminmax] at hle hleast
  have hsplit : split < na.length := hle.trans_lt (rightEnd_lt hpeak)
  refine ⟨fun k hk => scoreSplits_runningMeans hna hsum hk, peak, split, hpeak, hsplit, ?_,
    fun i hi => ?_, (hplateau hsplit).mp ⟨hge, hle⟩, fun i hi hon => ?_⟩
  · unfold numaSplitDistribution
    rw [if_neg (by omega), if_neg hsum.not_ge]
    rfl
  · have hbest := hscan.le_max i hi
    rw [← hmaxscore] at hbest
    have hexplained := le_of_mul_le_mul_left hbest (scoreFactor_pos hlen hsum)
    unfold explained at hexplained
    linarith only [hexplained]
  · obtain ⟨hmin, hmax⟩ := (hplateau hi).mpr hon
    exact hleast i hmin hmax

/-- Two groups of values, with an empty bin between them. -/
def twoGroups : List ℚ := [3, 1, 0, 1, 3]

theorem numaSplitDistribution_otsu_two :
    (∀ k ≤ 5, RunningMeans twoGroups k (scoreSplits twoGroups k)) ∧
      ∃ peak split, peak < 5 ∧ split < 5 ∧
        numaSplitDistribution twoGroups (1 / 10) = some (min 255 (split + 1)) ∧
        (∀ i < 5, withinScatter twoGroups peak ≤ withinScatter twoGroups i) ∧
        OnPlateau twoGroups (1 / 10) peak split ∧
        ∀ i < 5, OnPlateau twoGroups (1 / 10) peak i →
          numaGetFValue twoGroups split ≤ numaGetFValue twoGroups i ∧
          (i < split → numaGetFValue twoGroups split < numaGetFValue twoGroups i) :=
  numaSplitDistribution_otsu (by norm_num) (show ∀ v ∈ twoGroups, 0 ≤ v by simp [twoGroups])
    (by simp [twoGroups]) (by norm_num [twoGroups])

end Classes

end CardScanner
