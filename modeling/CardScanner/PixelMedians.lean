import CardScanner.BubbleSort
import CardScanner.JavaCast
import CardScanner.Machine
import CardScanner.Medians
import Mathlib.Data.List.TakeDrop

/-!
# The two medians of `convertGray`

`cal_median` copies an array, sorts the copy in two nested loops and takes the
element in the middle, or the mean of two.  `median_mat` finds the median of an
image from its histogram: the first grey value up to which there are more than
half of the pixels.

Both are given by the elements of a rank (`Medians.ranked`).  The passes of the
sort carry one element after the other to its place (`BubbleSort.Settled`), and
the element of rank `k` is the least value that more than `k` elements do not
exceed (`ranked_le_iff`), which is what the scan looks for.
-/

namespace CardScanner

open Medians

/-! ## The copy -/

section CalMedian

variable {K : Type*}

/-- The two arrays of `cal_median`. -/
structure MedianArrays (K : Type*) where
  daArray : List K
  dpSorted : List K

/-- `values[i] = v`, undefined outside the array. -/
def storeAt (values : List K) (i : ℕ) (v : K) : Option (List K) :=
  if i < values.length then some (values.set i v) else none

theorem storeAt_length (before after : List K) (v w : K) :
    storeAt (before ++ w :: after) before.length v = some (before ++ v :: after) := by
  unfold storeAt
  rw [if_pos (by simp)]
  simp

/-- The body of the loop that copies. -/
def copyElement (s : MedianArrays K) (i : ℕ) : Option (MedianArrays K) := do
  let v ← s.daArray[i]?
  let dpSorted ← storeAt s.dpSorted i v
  pure { s with dpSorted }

/-- The first loop copies every element, whatever the new array holds; by
induction on the elements that are left. -/
theorem foldlM_copyElement (before after fresh : List K) (hlength : fresh.length = after.length) :
    (List.range' before.length after.length).foldlM copyElement
        ⟨before ++ after, before ++ fresh⟩ =
      some ⟨before ++ after, before ++ after⟩ := by
  induction after generalizing before fresh with
  | nil =>
      rw [List.length_nil] at hlength
      rw [List.eq_nil_of_length_eq_zero hlength]
      rfl
  | cons v after ih =>
      obtain ⟨w, fresh, rfl⟩ := List.exists_cons_of_length_eq_add_one hlength
      have hstep : copyElement ⟨before ++ v :: after, before ++ w :: fresh⟩ before.length =
          some ⟨before ++ v :: after, before ++ v :: fresh⟩ := by
        simp [copyElement, storeAt_length]
      have hrest := ih (before ++ [v]) fresh (Nat.succ_injective hlength)
      simp only [List.append_assoc, List.singleton_append, List.length_append,
        List.length_singleton] at hrest
      rw [List.length_cons, List.range'_succ, List.foldlM_cons, hstep]
      exact hrest

/-! ## The sort -/

variable [LinearOrder K]

/-- The body of the inner loop of the sort. -/
def exchangeNeighbours (s : MedianArrays K) (j : ℕ) : Option (MedianArrays K) := do
  let left ← s.dpSorted[j]?
  let right ← s.dpSorted[j + 1]?
  if left > right then do
    let dTemp := left
    let dpSorted ← storeAt s.dpSorted j right
    let dpSorted ← storeAt dpSorted (j + 1) dTemp
    pure { s with dpSorted }
  else pure s

/-- The outer loop of the sort, from `i` down to 1. -/
def sortPasses : ℕ → MedianArrays K → Option (MedianArrays K)
  | 0, s => some s
  | i + 1, s => do
    let s ← (List.range (i + 1)).foldlM exchangeNeighbours s
    sortPasses i s

/-- Two neighbours are put in order. -/
theorem exchangeNeighbours_eq (values before after : List K) (a b : K) :
    exchangeNeighbours ⟨values, before ++ a :: b :: after⟩ before.length =
      some ⟨values, before ++ min a b :: max a b :: after⟩ := by
  have hsecond : storeAt (before ++ b :: b :: after) (before.length + 1) a =
      some (before ++ b :: a :: after) := by
    have hstore := storeAt_length (before ++ [b]) after a b
    simpa using hstore
  unfold exchangeNeighbours
  by_cases hlt : a > b
  · simp [hlt, storeAt_length, hsecond, min_eq_right hlt.le, max_eq_left hlt.le]
  · rw [not_lt] at hlt
    simp [not_lt.mpr hlt, min_eq_left hlt, max_eq_right hlt]

/-- The inner loop is a pass over the front. -/
theorem foldlM_exchangeNeighbours (values before l back : List K) (a : K) :
    (List.range' before.length l.length).foldlM exchangeNeighbours
        ⟨values, before ++ (a :: l) ++ back⟩ =
      some ⟨values, before ++ (BubbleSort.carry a l).1 ++ (BubbleSort.carry a l).2 :: back⟩ := by
  induction l generalizing before a with
  | nil => simp [BubbleSort.carry]
  | cons b l ih =>
      have hrest := ih (before ++ [min a b]) (max a b)
      rw [List.length_cons, List.range'_succ, List.foldlM_cons, List.append_assoc,
        List.cons_append, List.cons_append, exchangeNeighbours_eq]
      simpa [BubbleSort.carry] using hrest

/-- **The outer loop sorts**, when all behind the front is settled; by
induction on the passes that are left. -/
theorem sortPasses_sorts (values : List K) {front back : List K} {i : ℕ}
    (hlength : front.length = i + 1) (h : BubbleSort.Settled front back) :
    ∃ sorted, sortPasses i ⟨values, front ++ back⟩ = some ⟨values, sorted⟩ ∧
      sorted.Perm (front ++ back) ∧ sorted.Pairwise (· ≤ ·) := by
  induction i generalizing front back with
  | zero =>
      obtain ⟨a, rfl⟩ := List.length_eq_one_iff.mp hlength
      exact ⟨a :: back, rfl, .refl _, h.sorted_cons⟩
  | succ i ih =>
      obtain ⟨a, l, rfl⟩ := List.exists_cons_of_length_eq_add_one hlength
      have hl : l.length = i + 1 := Nat.succ_injective hlength
      have hpass := foldlM_exchangeNeighbours values [] l back a
      rw [List.length_nil, hl, ← List.range_eq_range'] at hpass
      obtain ⟨sorted, hrun, hperm, hsorted⟩ := ih (by simpa using hl) h.carry
      refine ⟨sorted, ?_, hperm.trans ?_, hsorted⟩
      · unfold sortPasses
        rw [List.nil_append, List.nil_append] at hpass
        rw [hpass]
        exact hrun
      · rw [List.append_cons]
        exact (BubbleSort.carry_perm a l).append_right back

/-- Started on a copy of the array, it leaves the sorted array, and the
original alone. -/
theorem sortPasses_eq {values : List K} (hne : values ≠ []) :
    sortPasses (values.length - 1) ⟨values, values⟩ =
      some ⟨values, values.insertionSort (· ≤ ·)⟩ := by
  have hlength : values.length = values.length - 1 + 1 := by
    have := List.length_pos_iff.mpr hne
    omega
  obtain ⟨sorted, hrun, hperm, hsorted⟩ :=
    sortPasses_sorts values hlength (BubbleSort.settled_nil values)
  rw [List.append_nil] at hrun hperm
  have heq : sorted = values.insertionSort (· ≤ ·) :=
    (hperm.trans (List.perm_insertionSort _ values).symm).eq_of_pairwise' hsorted
      (List.pairwise_insertionSort _ values)
  rw [hrun, heq]

/-! ## `cal_median` -/

/-- `cal_median`: its result, and the array of the caller.  `K` stands for the
doubles; no law of their arithmetic is used, so it may round. -/
def calMedian [Zero K] [Add K] [Div K] [OfNat K 2] (daArray : List K) (iSize : ℕ) :
    Option (K × List K) := do
  let s ← (List.range iSize).foldlM copyElement ⟨daArray, List.replicate iSize 0⟩
  let s ← sortPasses (iSize - 1) s
  if iSize % 2 = 0 then do
    let upper ← s.dpSorted[iSize / 2]?
    let lower ← s.dpSorted[iSize / 2 - 1]?
    pure ((upper + lower) / 2, s.daArray)
  else do
    let middle ← s.dpSorted[iSize / 2]?
    pure (middle, s.daArray)

/-- The element in the middle of the sorted values, or the mean of the two. -/
def IsMedian [Add K] [Div K] [OfNat K 2] (values : List K) (m : K) : Prop :=
  if values.length % 2 = 0 then
    ∃ upper lower, ranked values (values.length / 2) = some upper ∧
      ranked values (values.length / 2 - 1) = some lower ∧ m = (upper + lower) / 2
  else ranked values (values.length / 2) = some m

theorem IsMedian.unique [Add K] [Div K] [OfNat K 2] {values : List K} {m m' : K}
    (h : IsMedian values m) (h' : IsMedian values m') : m = m' := by
  unfold IsMedian at h h'
  split_ifs at h h'
  · obtain ⟨upper, lower, hupper, hlower, hm⟩ := h
    obtain ⟨upper', lower', hupper', hlower', hm'⟩ := h'
    have hsameUpper := Option.some.inj (hupper.symm.trans hupper')
    have hsameLower := Option.some.inj (hlower.symm.trans hlower')
    rw [hm, hm', hsameUpper, hsameLower]
  · exact Option.some.inj (h.symm.trans h')

/-- A median does not depend on the order of the values. -/
theorem isMedian_of_perm [Add K] [Div K] [OfNat K 2] {values other : List K} {m : K}
    (hperm : other.Perm values) (h : IsMedian other m) : IsMedian values m := by
  unfold IsMedian at *
  simpa only [hperm.length_eq, ranked_of_perm hperm] using h

variable [Zero K] [Add K] [Div K] [OfNat K 2]

/-- `cal_median` finds the median, and leaves the array as it is, since it
sorts a copy. -/
theorem exists_calMedian {values : List K} (hne : values ≠ []) :
    ∃ m, calMedian values values.length = some (m, values) ∧ IsMedian values m := by
  have hpos := List.length_pos_iff.mpr hne
  have hcopy := foldlM_copyElement [] values (List.replicate values.length 0) (by simp)
  rw [List.length_nil, ← List.range_eq_range'] at hcopy
  simp only [List.nil_append] at hcopy
  unfold calMedian IsMedian
  rw [hcopy]
  simp only [Option.bind_eq_bind, Option.bind_some, sortPasses_eq hne]
  obtain ⟨upper, hupper⟩ := exists_ranked (l := values) (k := values.length / 2) (by omega)
  have hfound : (values.insertionSort (· ≤ ·))[values.length / 2]? = some upper := hupper
  split_ifs with heven
  · obtain ⟨lower, hlower⟩ := exists_ranked (l := values) (k := values.length / 2 - 1) (by omega)
    have hfoundLower : (values.insertionSort (· ≤ ·))[values.length / 2 - 1]? = some lower := hlower
    rw [hfound, hfoundLower]
    exact ⟨_, rfl, upper, lower, hupper, hlower, rfl⟩
  · rw [hfound]
    exact ⟨_, rfl, hupper⟩

/-- **`cal_median` computes the median.**  No index is out of range, the array
of the caller is unchanged, and the order of its elements does not matter: the
copy that is sorted in place is a sorted permutation of it. -/
theorem calMedian_median {daArray : List K} (hne : daArray ≠ []) :
    ∃ m, calMedian daArray daArray.length = some (m, daArray) ∧ IsMedian daArray m ∧
      ∀ other : List K, other.Perm daArray → calMedian other other.length = some (m, other) := by
  obtain ⟨m, hrun, hmedian⟩ := exists_calMedian hne
  refine ⟨m, hrun, hmedian, ?_⟩
  intro other hperm
  have hother : other ≠ [] := by
    intro hnil
    rw [hnil] at hperm
    exact hne (List.nil_perm.mp hperm)
  obtain ⟨m', hrun', hmedian'⟩ := exists_calMedian hother
  rw [hrun', hmedian.unique (isMedian_of_perm hperm hmedian')]

end CalMedian

/-- Four background samples. -/
theorem calMedian_median_four :
    ∃ m : ℚ, calMedian [7, 3, 200, 5] 4 = some (m, [7, 3, 200, 5]) ∧ IsMedian [7, 3, 200, 5] m ∧
      ∀ other : List ℚ, other.Perm [7, 3, 200, 5] →
        calMedian other other.length = some (m, other) :=
  calMedian_median (by simp)

/-! ## `median_mat` -/

/-- An 8-bit image.  It lies in the 32-bit address space of the target. -/
structure GrayMat where
  rows : ℕ
  cols : ℕ
  data : List UInt8
  size : data.length = rows * cols
  addressable : rows * cols < 2 ^ 31

/-- The number of pixels of a grey value, as `calcHist` counts them. -/
def calcHist (channel : GrayMat) (i : ℕ) : ℚ := channel.data.countP fun v => v.toNat = i

/-- `cvRound`: to the nearest integer, and half of the way to the even one. -/
def cvRound (value : ℚ) : ℤ :=
  let rest := value - ⌊value⌋
  if rest < 1 / 2 ∨ rest = 1 / 2 ∧ ⌊value⌋ % 2 = 0 then ⌊value⌋ else ⌊value⌋ + 1

/-- The loop of `median_mat`, over the bins that are left. -/
def scanHist (hist : ℕ → ℚ) (m : ℚ) : List ℕ → ℤ → ℚ → ℚ
  | [], _, med => med
  | i :: rest, bin, med =>
    if med < 0 then
      let bin := bin + cvRound (hist i)
      let med := if bin > m ∧ med < 0 then (i : ℚ) else med
      scanHist hist m rest bin med
    else med

/-- `median_mat`: the loop over the histogram, with -1 for a median that has
not been found. -/
def medianMat (channel : GrayMat) : ℚ :=
  let m : ℤ := (intOfLong (channel.rows * channel.cols)).tdiv 2
  scanHist (calcHist channel) m (List.range 256) 0 (-1)

/-- A whole number is rounded to itself. -/
theorem cvRound_natCast (k : ℕ) : cvRound k = k := by
  simp [cvRound]

/-- The grey values of the pixels. -/
def GrayMat.values (channel : GrayMat) : List ℕ := channel.data.map UInt8.toNat

theorem GrayMat.length_values (channel : GrayMat) :
    channel.values.length = channel.rows * channel.cols := by
  rw [GrayMat.values, List.length_map, channel.size]

/-- A bin of the histogram counts its value in the whole matrix. -/
theorem calcHist_eq (channel : GrayMat) (i : ℕ) :
    calcHist channel i = channel.values.countP fun v => v = i := by
  rw [calcHist, GrayMat.values, List.countP_map]
  rfl

/-- One more bin. -/
theorem countP_lt_succ (values : List ℕ) (i : ℕ) :
    (values.countP fun v => v < i + 1) =
      (values.countP fun v => v < i) + values.countP fun v => v = i := by
  induction values with
  | nil => rfl
  | cons v values ih =>
      simp only [List.countP_cons, ih, decide_eq_true_eq]
      grind

/-- What has been found stays. -/
theorem scanHist_of_found (hist : ℕ → ℚ) (m : ℚ) (bins : List ℕ) (bin : ℤ) {med : ℚ}
    (hmed : 0 ≤ med) : scanHist hist m bins bin med = med := by
  cases bins with
  | nil => rfl
  | cons i rest => exact if_neg (not_lt.mpr hmed)

/-- The scan finds the pixel of rank `m`, as long as it has not passed its
value; by induction on the bins that are left. -/
theorem scanHist_eq {channel : GrayMat} {m v : ℕ} (hv : ranked channel.values m = some v)
    {i k : ℕ} (hi : i ≤ v) (hk : v < i + k) :
    scanHist (calcHist channel) m (List.range' i k) (channel.values.countP fun w => w < i) (-1) =
      v := by
  induction k generalizing i with
  | zero => omega
  | succ k ih =>
      have hbin : ((channel.values.countP fun w => w < i : ℕ) : ℤ) + cvRound (calcHist channel i) =
          (channel.values.countP fun w => w < i + 1 : ℕ) := by
        rw [calcHist_eq, cvRound_natCast, countP_lt_succ]
        push_cast
        rfl
      have hrank : m < (channel.values.countP fun w => w < i + 1) ↔ v ≤ i := by
        simp only [Nat.lt_succ_iff]
        exact (ranked_le_iff hv i).symm
      rw [List.range'_succ, scanHist, if_pos (by norm_num)]
      simp only [hbin]
      by_cases hfound : v ≤ i
      · rw [if_pos ⟨by exact_mod_cast hrank.mpr hfound, by norm_num⟩,
          scanHist_of_found _ _ _ _ (Nat.cast_nonneg i), le_antisymm hfound hi]
      · have hnot : ¬ ((((channel.values.countP fun w => w < i + 1 : ℕ) : ℤ) : ℚ) > (m : ℚ) ∧
            (-1 : ℚ) < 0) := by
          intro ⟨hgt, _⟩
          exact hfound (hrank.mp (by exact_mod_cast hgt))
        rw [if_neg hnot]
        exact ih (by omega) (by omega)

/-- **`median_mat` finds the median.**  It is the pixel at half of the sorted
list, so a grey value, and never the -1 it starts with: the loop over the
histogram stops at the first value up to which there are more pixels than
half. -/
theorem medianMat_ranked {channel : GrayMat} (hne : 0 < channel.rows * channel.cols) :
    ∃ v, ranked channel.values (channel.rows * channel.cols / 2) = some v ∧
      medianMat channel = v ∧ v ≤ 255 ∧ medianMat channel ≠ -1 := by
  have hlength := channel.length_values
  obtain ⟨v, hv⟩ := exists_ranked (l := channel.values) (k := channel.rows * channel.cols / 2)
    (by omega)
  have hbyte : v ≤ 255 := by
    have hmem := List.mem_of_getElem? hv
    rw [(List.perm_insertionSort _ _).mem_iff] at hmem
    obtain ⟨pixel, _, rfl⟩ := List.mem_map.mp hmem
    exact Nat.lt_succ_iff.mp pixel.toNat_lt
  have hnonneg : (0 : ℤ) ≤ channel.rows * channel.cols := by positivity
  have hproduct : intOfLong (channel.rows * channel.cols) = channel.rows * channel.cols :=
    intOfLong_of_lt (by omega) (by exact_mod_cast channel.addressable)
  have hhalf : ((channel.rows : ℤ) * channel.cols).tdiv 2 =
      (channel.rows * channel.cols / 2 : ℕ) := by
    rw [Int.tdiv_eq_ediv_of_nonneg hnonneg]
    push_cast
    rfl
  have hscan := scanHist_eq hv (Nat.zero_le v) (k := 256) (by omega)
  have hstart : (channel.values.countP fun w => w < 0) = 0 := by simp
  have hmedian : medianMat channel = v := by
    unfold medianMat
    simp only [hproduct, hhalf, List.range_eq_range']
    rw [hstart] at hscan
    exact_mod_cast hscan
  refine ⟨v, hv, hmedian, hbyte, ?_⟩
  rw [hmedian]
  have hgray : (0 : ℚ) ≤ v := Nat.cast_nonneg v
  intro hnegative
  linarith

/-- Two dark pixels and two bright ones: the median is bright. -/
def halfDark : GrayMat where
  rows := 2
  cols := 2
  data := [10, 240, 20, 230]
  size := rfl
  addressable := by decide

theorem medianMat_ranked_halfDark :
    ∃ v, ranked halfDark.values (2 * 2 / 2) = some v ∧ medianMat halfDark = v ∧ v ≤ 255 ∧
      medianMat halfDark ≠ -1 := by
  have hne : 0 < halfDark.rows * halfDark.cols := by decide
  exact medianMat_ranked hne

end CardScanner
