import CardScanner.BlurScan
import Mathlib.Tactic.NormNum

/-!
# The edge mask

`pixMakeBlurMask` scans the masks that `makeEdgeMask` makes of the same gray
picture: the picture is smoothed, filtered along the scanning direction
(`pixTwoSidedEdgeFilter`) and cut at a threshold of at least 2.

A mask pixel lies within a transition: the gray value falls, or rises, by 2 or
more on either side of it.  Neighbouring mask pixels share a step, so along a
run of them the value falls or rises throughout (`climbs`) and, a gray value
being a byte, the run ends soon (`not_steep`).  The filter leaves the first and
last pixel of a line at 0.  So the runs of these masks are measured as they
should be, which an arbitrary mask's need not be (`passes_measured_iff`).
-/

namespace CardScanner

open LineRuns

variable {width height : Nat}

/-! ## The source -/

/-- The value of a pixel. -/
def grayAt (pixs : Pix UInt8 width height) (x y : Nat) : UInt8 := (pixs.get x y).getD 0

inductive Orientation where
  | L_HORIZONTAL_EDGES
  | L_VERTICAL_EDGES

/-- The smaller of the differences to the two sides, if they have the same
sign. -/
def twoSidedGrad (lgrad rgrad : ℤ) : ℤ :=
  if lgrad * rgrad > 0 then
    if lgrad < 0 then -max lgrad rgrad else min lgrad rgrad
  else 0

/-- `pixTwoSidedEdgeFilter` at position `j` of a line of `n` values. -/
def twoSided (line : Nat → UInt8) (n j : Nat) : UInt8 :=
  if 0 < j ∧ j + 1 < n then
    UInt8.ofNat (twoSidedGrad ((line j).toNat - (line (j - 1)).toNat)
      ((line (j + 1)).toNat - (line j).toNat)).toNat
  else 0

/-- `pixTwoSidedEdgeFilter`: vertical edges along the rows, horizontal ones
along the columns. -/
def pixTwoSidedEdgeFilter (pixs : Pix UInt8 width height) : Orientation → Pix UInt8 width height
  | .L_VERTICAL_EDGES => ⟨fun i j => twoSided (fun x => grayAt pixs x j) width i⟩
  | .L_HORIZONTAL_EDGES => ⟨fun i j => twoSided (fun y => grayAt pixs i y) height j⟩

/-- `pixThresholdToBinary`: values below the threshold are ON. -/
def pixThresholdToBinary (pixs : Pix UInt8 width height) (thresh : ℤ) : Pix Bool width height :=
  ⟨fun i j => decide (((pixs.pixel i j).toNat : ℤ) < thresh)⟩

/-- `pixGetGrayHistogram`: how often each of the 256 values occurs among the
pixels of every `factor`-th column of every `factor`-th row. -/
def pixGetGrayHistogram (pixs : Pix UInt8 width height) (factor : Nat) : List Nat :=
  let values := (List.range' 0 ((height + factor - 1) / factor) factor).flatMap fun i =>
    (List.range' 0 ((width + factor - 1) / factor) factor).map fun j => grayAt pixs j i
  (List.range 256).map fun val => values.countP fun v => v.toNat == val

/-- `convertSlopeToBlurIndicator`: slopes from 0.01 to 0.04 become 255 to 1,
the steeper the less. -/
def convertSlopeToBlurIndicator (slope : ℚ) : ℚ :=
  let maxSharpness : ℚ := 0.040
  let minSharpness : ℚ := 0.01
  let clamped := min maxSharpness slope
  let clamped := max minSharpness clamped
  let clamped := 1 - (clamped - minSharpness) / (maxSharpness - minSharpness)
  max 1 (clamped * 255)

/-- The byte that `SET_DATA_BYTE` keeps of a `double`. -/
def blurByte (slope : ℚ) : UInt8 := UInt8.ofNat ⌊convertSlopeToBlurIndicator slope⌋₊

/-- The measures painted, each at its place, on a picture of zeros. -/
def paint (place : EdgeMeasure → Nat × Nat) (ms : List EdgeMeasure) : Pix UInt8 width height :=
  ms.foldl (fun pix m => pix.set (place m).1 (place m).2 (blurByte m.slope)) ⟨fun _ _ => 0⟩

/-- What `pixMakeBlurMask` gives back. -/
structure BlurMask (width height : Nat) where
  pixBinary : Pix Bool width height
  blurValue : ℚ
  blurMeasure : Pix UInt8 width height

section Source

/- Smoothing, with the half widths of its window, and the split of a histogram
into two parts (3 where there is none to make). -/
variable (pixBlockconvGray : Pix UInt8 width height → Nat → Nat → Pix UInt8 width height)
  (numaSplitDistribution : List Nat → Fin 256)

/-- `makeEdgeMask`, with the rating it reports: how many of the values counted
are 0. -/
def makeEdgeMask (pixs : Pix UInt8 width height) (orientflag : Orientation) :
    Pix Bool width height × Nat :=
  let (convx, convy) := match orientflag with
    | .L_VERTICAL_EDGES => (2, 0)
    | .L_HORIZONTAL_EDGES => (0, 2)
  let pixConv := pixBlockconvGray pixs convx convy
  let pixConvEdges := pixTwoSidedEdgeFilter pixConv orientflag
  let histo := pixGetGrayHistogram pixConvEdges 8
  let thresh : ℤ := (numaSplitDistribution histo).val
  let thresh := max 2 (thresh - 2)
  (pixThresholdToBinary pixConvEdges thresh, histo.headD 0)

/-- `pixMakeBlurMask`: the first pass paints the last pixel of a run, the
second its first. -/
def pixMakeBlurMask (pixMedian : Pix UInt8 width height) : Option (BlurMask width height) :=
  let (pixBinaryy, vertRating) :=
    makeEdgeMask pixBlockconvGray numaSplitDistribution pixMedian .L_VERTICAL_EDGES
  let (pixBinaryx, horzRating) :=
    makeEdgeMask pixBlockconvGray numaSplitDistribution pixMedian .L_HORIZONTAL_EDGES
  let mean := fun ms : List EdgeMeasure =>
    (RunningStats.pushAll longLong (ms.map EdgeMeasure.slope)).mean
  if vertRating < horzRating then
    (leftToRight pixMedian pixBinaryy).map fun ms =>
      ⟨pixBinaryy, mean ms, paint (fun m => (m.last, m.line)) ms⟩
  else
    (topToBottom pixMedian pixBinaryx).map fun ms =>
      ⟨pixBinaryx, mean ms, paint (fun m => (m.line, m.first)) ms⟩

end Source

/-! ## Transitions -/

/-- Position `j` lies within a transition: the values change by 2 or more, the
same way on both sides. -/
def Steep (f : Nat → ℤ) (j : Nat) : Prop :=
  (f (j - 1) + 2 ≤ f j ∧ f j + 2 ≤ f (j + 1)) ∨ (f j + 2 ≤ f (j - 1) ∧ f (j + 1) + 2 ≤ f j)

/-- Turning a picture to its negative does not make an edge less steep. -/
theorem Steep.neg {f : Nat → ℤ} {j : Nat} (h : Steep f j) : Steep (fun i => -f i) j := by
  simp only [Steep] at h ⊢
  omega

/-- A transition that begins upwards goes on upwards, by two at least at each
position. -/
theorem climbs {f : Nat → ℤ} {p k : Nat} (hstep : f (p - 1) + 2 ≤ f p)
    (h : ∀ j, p ≤ j → j ≤ p + k → Steep f j) :
    f (p + k) + 2 ≤ f (p + k + 1) ∧ f (p - 1) + 2 * (k + 2) ≤ f (p + k + 1) := by
  induction k with
  | zero =>
      have hp := h p le_rfl le_rfl
      unfold Steep at hp
      simp only [Nat.add_zero]
      omega
  | succ k ih =>
      obtain ⟨hlast, htotal⟩ := ih fun j hj hj' => h j hj (by omega)
      have hp := h (p + k + 1) (by omega) (by omega)
      unfold Steep at hp
      rw [Nat.add_sub_cancel] at hp
      rw [← Nat.add_assoc]
      push_cast
      omega

/-- Bytes do not go up, or down, for long: at two for each position, 256
positions would be too many. -/
theorem not_steep (line : Nat → UInt8) (p : Nat) :
    ¬ ∀ j, p ≤ j → j < p + 256 → Steep (fun i => ((line i).toNat : ℤ)) j := by
  intro h
  have hbyte : ∀ i, (0 : ℤ) ≤ (line i).toNat ∧ ((line i).toNat : ℤ) < 256 := by
    intro i
    have := (line i).toNat_lt
    omega
  have hlow := hbyte (p - 1)
  have hhigh := hbyte (p + 255 + 1)
  have hfirst := h p le_rfl (by omega)
  simp only [Steep] at hfirst
  rcases hfirst with hup | hdown
  · have hclimb := (climbs (k := 255) hup.1 fun j hj hj' => h j hj (by omega)).2
    omega
  · have hclimb := (climbs (f := fun i => -((line i).toNat : ℤ)) (k := 255) (p := p) (by omega)
      fun j hj hj' => (h j hj (by omega)).neg).2
    omega

/-- A two-sided gradient of 2 or more comes from gradients of one sign on both
sides. -/
theorem grads_of_twoSidedGrad {lgrad rgrad : ℤ} (h : 2 ≤ twoSidedGrad lgrad rgrad) :
    (2 ≤ lgrad ∧ 2 ≤ rgrad) ∨ (lgrad ≤ -2 ∧ rgrad ≤ -2) := by
  unfold twoSidedGrad at h
  split at h
  · split at h
    · exact Or.inr (by omega)
    · exact Or.inl (by omega)
  · omega

/-- A value of at least 2 comes from within a transition: the line goes up on
both sides, or down. -/
theorem steep_of_twoSided {line : Nat → UInt8} {n j : Nat}
    (h : 2 ≤ (twoSided line n j).toNat) :
    j + 1 < n ∧ Steep (fun i => ((line i).toNat : ℤ)) j := by
  unfold twoSided at h
  split at h
  · rename_i hin
    refine ⟨hin.2, ?_⟩
    rw [UInt8.toNat_ofNat'] at h
    have hmod := Nat.mod_le (twoSidedGrad ((line j).toNat - (line (j - 1)).toNat)
      ((line (j + 1)).toNat - (line j).toNat)).toNat (2 ^ 8)
    have hgrad : 2 ≤ twoSidedGrad ((line j).toNat - (line (j - 1)).toNat)
        ((line (j + 1)).toNat - (line j).toNat) := by omega
    have hgrads := grads_of_twoSidedGrad hgrad
    simp only [Steep]
    omega
  · exact absurd h (by decide)

/-- A line of the filtered picture, cut at a threshold of 2 or more, where
`measureDown` and `measureAcross` can follow each of its runs without leaving
it. -/
theorem fits_of_twoSided (line : Nat → UInt8) {n : Nat} {thresh : ℤ} (hthresh : 2 ≤ thresh)
    {off : Nat → Bool}
    (hoff : ∀ j, j < n → off j = true → thresh ≤ ((twoSided line n j).toNat : ℤ)) :
    Fits off 1 n 256 := by
  have hsteep : ∀ j, j < n → off j = true →
      j + 1 < n ∧ Steep (fun i => ((line i).toNat : ℤ)) j := by
    intro j hj hj'
    have := hoff j hj hj'
    exact steep_of_twoSided (by omega)
  refine ⟨?_, ?_⟩
  · rintro p - hp ⟨-, hoff'⟩
    have := (hsteep (p + 1) (by omega) hoff').1
    omega
  · intro p _ hp
    by_contra hall
    refine not_steep line p fun j hj hj' => (hsteep j (by omega) ?_).2
    by_contra hon
    exact hall ⟨j, hj, hj', Bool.not_eq_true _ ▸ hon⟩

/-! ## The masks -/

section Masks

variable (pixBlockconvGray : Pix UInt8 width height → Nat → Nat → Pix UInt8 width height)
  (numaSplitDistribution : List Nat → Fin 256)

/-- A pixel of the thresholded picture is ON exactly where the gray is below
the threshold. -/
theorem get_threshold {pixs : Pix UInt8 width height} {thresh : ℤ} {x y : Nat} (hx : x < width)
    (hy : y < height) :
    pixGetPixel (pixThresholdToBinary pixs thresh) x y =
      decide (((pixs.pixel ⟨x, hx⟩ ⟨y, hy⟩).toNat : ℤ) < thresh) := by
  simp [pixGetPixel, Pix.get, pixThresholdToBinary, hx, hy]

/-- A mask is a filtered picture cut at a threshold of 2 or more. -/
theorem exists_makeEdgeMask_eq (pixs : Pix UInt8 width height) (orientflag : Orientation) :
    ∃ pixConv thresh, 2 ≤ thresh ∧
      (makeEdgeMask pixBlockconvGray numaSplitDistribution pixs orientflag).1 =
        pixThresholdToBinary (pixTwoSidedEdgeFilter pixConv orientflag) thresh :=
  ⟨_, _, le_max_left 2 _, rfl⟩

/-- The mask for vertical edges can be scanned from left to right. -/
theorem fits_makeEdgeMask_vertical (pixs : Pix UInt8 width height) {y : Nat} (hy : y < height) :
    Fits (offRow (makeEdgeMask pixBlockconvGray numaSplitDistribution pixs
      .L_VERTICAL_EDGES).1 y) 1 width 256 := by
  obtain ⟨pixConv, thresh, hthresh, hmask⟩ := exists_makeEdgeMask_eq pixBlockconvGray
    numaSplitDistribution pixs .L_VERTICAL_EDGES
  rw [hmask]
  refine fits_of_twoSided (fun x => grayAt pixConv x y) hthresh fun x hx hoff => ?_
  simpa [offRow, get_threshold hx hy, pixTwoSidedEdgeFilter] using hoff

/-- The mask for horizontal edges can be scanned from top to bottom. -/
theorem fits_makeEdgeMask_horizontal (pixs : Pix UInt8 width height) {x : Nat} (hx : x < width) :
    Fits (offColumn (makeEdgeMask pixBlockconvGray numaSplitDistribution pixs
      .L_HORIZONTAL_EDGES).1 x) 1 height 256 := by
  obtain ⟨pixConv, thresh, hthresh, hmask⟩ := exists_makeEdgeMask_eq pixBlockconvGray
    numaSplitDistribution pixs .L_HORIZONTAL_EDGES
  rw [hmask]
  refine fits_of_twoSided (fun y => grayAt pixConv x y) hthresh fun y hy hoff => ?_
  simpa [offColumn, get_threshold hx hy, pixTwoSidedEdgeFilter] using hoff

/-- The rows of the mask for vertical edges can all be measured: a gray cannot
rise by two from pixel to pixel for as long as 256 pixels. -/
theorem measured_leftToRight_makeEdgeMask (pixMedian : Pix UInt8 width height) :
    Measured (leftToRight pixMedian
      (makeEdgeMask pixBlockconvGray numaSplitDistribution pixMedian .L_VERTICAL_EDGES).1) :=
  (measured_leftToRight_iff _ _).mpr fun _ _ hy =>
    fits_makeEdgeMask_vertical _ _ _ (Nat.lt_of_succ_lt hy)

theorem measured_topToBottom_makeEdgeMask (pixMedian : Pix UInt8 width height) :
    Measured (topToBottom pixMedian
      (makeEdgeMask pixBlockconvGray numaSplitDistribution pixMedian .L_HORIZONTAL_EDGES).1) :=
  (measured_topToBottom_iff _ _).mpr fun _ _ hx =>
    fits_makeEdgeMask_horizontal _ _ _ (Nat.lt_of_succ_lt hx)

end Masks

/-! ## The painted picture -/

/-- A slope becomes a byte that is not zero: zero is kept for what has not been
measured. -/
theorem convertSlopeToBlurIndicator_mem (slope : ℚ) :
    1 ≤ convertSlopeToBlurIndicator slope ∧ convertSlopeToBlurIndicator slope ≤ 255 := by
  refine ⟨le_max_left 1 _, max_le (by norm_num) ?_⟩
  have hclamped : (0.01 : ℚ) ≤ max 0.01 (min 0.040 slope) := le_max_left _ _
  have hratio : (0 : ℚ) ≤ (max 0.01 (min 0.040 slope) - 0.01) / (0.040 - 0.01) :=
    div_nonneg (sub_nonneg.mpr hclamped) (by norm_num)
  linarith

/-- The byte painted keeps the whole part, and is not 0, since the indicator
is between 1 and 255. -/
theorem blurByte_toNat (slope : ℚ) :
    (blurByte slope).toNat = ⌊convertSlopeToBlurIndicator slope⌋₊ ∧
      1 ≤ (blurByte slope).toNat := by
  obtain ⟨hlow, hhigh⟩ := convertSlopeToBlurIndicator_mem slope
  have hfloor : ⌊convertSlopeToBlurIndicator slope⌋₊ < 256 := by
    rw [Nat.floor_lt (by linarith)]
    push_cast
    linarith
  have hbyte : (blurByte slope).toNat = ⌊convertSlopeToBlurIndicator slope⌋₊ := by
    unfold blurByte
    rw [UInt8.toNat_ofNat', Nat.mod_eq_of_lt hfloor]
  refine ⟨hbyte, ?_⟩
  rw [hbyte]
  exact Nat.le_floor (by exact_mod_cast hlow)

/-- The pixels painted are exactly those that are not 0: the byte of a measure
never is. -/
theorem get_paint_ne_zero_iff {place : EdgeMeasure → Nat × Nat} {ms : List EdgeMeasure}
    {x y : Nat} (hx : x < width) (hy : y < height) :
    (paint place ms : Pix UInt8 width height).get x y ≠ some 0 ↔
      ∃ m ∈ ms, place m = (x, y) := by
  unfold paint
  induction ms using List.reverseRecOn with
  | nil => simp [Pix.get, hx, hy]
  | append_singleton ms m ih =>
      have hbyte : blurByte m.slope ≠ 0 := by
        intro hzero
        have := (blurByte_toNat m.slope).2
        rw [hzero] at this
        simp at this
      rw [List.foldl_append, List.foldl_cons, List.foldl_nil, Pix.get_set]
      split
      · rename_i hplace
        refine iff_of_true (by simpa using hbyte) ⟨m, by simp, ?_⟩
        exact Prod.ext hplace.1.symm hplace.2.1.symm
      · rename_i hplace
        rw [ih]
        constructor
        · rintro ⟨m', hm', heq⟩
          exact ⟨m', List.mem_append_left [m] hm', heq⟩
        · rintro ⟨m', hm', heq⟩
          rcases List.mem_append.mp hm' with hm' | hm'
          · exact ⟨m', hm', heq⟩
          · rw [List.mem_singleton] at hm'
            rw [← hm', heq] at hplace
            exact absurd ⟨rfl, rfl, hx, hy⟩ hplace

section Measure

variable (pixBlockconvGray : Pix UInt8 width height → Nat → Nat → Pix UInt8 width height)
  (numaSplitDistribution : List Nat → Fin 256)

/-- **The blur measure.**  `pixMakeBlurMask` gets through on every gray
picture; the pixels of the measure that are not 0 are the ends of the edges
along the lines of the mask, or their beginnings down its columns. -/
theorem exists_pixMakeBlurMask (pixMedian : Pix UInt8 width height) :
    ∃ mask ms, pixMakeBlurMask pixBlockconvGray numaSplitDistribution pixMedian = some mask ∧
      ((leftToRight pixMedian mask.pixBinary = some ms ∧ ∀ x < width, ∀ y < height,
          (mask.blurMeasure.get x y ≠ some 0 ↔ ∃ m ∈ ms, (m.last, m.line) = (x, y))) ∨
        (topToBottom pixMedian mask.pixBinary = some ms ∧ ∀ x < width, ∀ y < height,
          (mask.blurMeasure.get x y ≠ some 0 ↔ ∃ m ∈ ms, (m.line, m.first) = (x, y)))) := by
  obtain ⟨ms, hms, -⟩ := measured_leftToRight_makeEdgeMask pixBlockconvGray
    numaSplitDistribution pixMedian
  obtain ⟨ms', hms', -⟩ := measured_topToBottom_makeEdgeMask pixBlockconvGray
    numaSplitDistribution pixMedian
  unfold pixMakeBlurMask
  simp only [hms, hms', Option.map_some]
  split
  · exact ⟨_, ms, rfl, Or.inl ⟨hms, fun x hx y hy => get_paint_ne_zero_iff hx hy⟩⟩
  · exact ⟨_, ms', rfl, Or.inr ⟨hms', fun x hx y hy => get_paint_ne_zero_iff hx hy⟩⟩

end Measure

/-! ## Any mask -/

/-- **The passes on any mask, and on those of `makeEdgeMask`.**  A pass makes
only reads inside the picture and no division by zero, and each `edgeWidth` is
the length of its run, exactly if no line it scans has a run through its last
two pixels or 256 mask pixels in a row behind its first; a mask made for a
direction, of whatever picture, has none along it. -/
theorem passes_measured_iff :
    (∀ (pixMedian : Pix UInt8 width height) (mask : Pix Bool width height),
      (Measured (leftToRight pixMedian mask) ↔
        ∀ y, 0 < y → y + 1 < height → Fits (offRow mask y) 1 width 256) ∧
      (Measured (topToBottom pixMedian mask) ↔
        ∀ x, 0 < x → x + 1 < width → Fits (offColumn mask x) 1 height 256)) ∧
    ∀ (pixBlockconvGray : Pix UInt8 width height → Nat → Nat → Pix UInt8 width height)
      (numaSplitDistribution : List Nat → Fin 256) (pixMedian : Pix UInt8 width height),
      Measured (leftToRight pixMedian (makeEdgeMask pixBlockconvGray numaSplitDistribution
        pixMedian .L_VERTICAL_EDGES).1) ∧
      Measured (topToBottom pixMedian (makeEdgeMask pixBlockconvGray numaSplitDistribution
        pixMedian .L_HORIZONTAL_EDGES).1) := by
  refine ⟨fun pixMedian mask => ⟨measured_leftToRight_iff pixMedian mask,
    measured_topToBottom_iff pixMedian mask⟩, fun conv split pixMedian => ⟨?_, ?_⟩⟩
  · exact measured_leftToRight_makeEdgeMask conv split pixMedian
  · exact measured_topToBottom_makeEdgeMask conv split pixMedian

/-- A run that reaches the last column is read beyond. -/
theorem not_passes_measured :
    ¬ ∀ (width height : Nat) (pixMedian : Pix UInt8 width height) (mask : Pix Bool width height),
      Measured (leftToRight pixMedian mask) ∧ Measured (topToBottom pixMedian mask) := by
  intro h
  obtain ⟨ms, hms, -⟩ := (h 3 3 ⟨fun _ _ => 0⟩ ⟨fun x y => !(0 < x.val && y.val == 1)⟩).1
  have hnone : leftToRight (⟨fun _ _ => 0⟩ : Pix UInt8 3 3)
      ⟨fun x y => !(0 < x.val && y.val == 1)⟩ = none := by decide
  rw [hnone] at hms
  exact absurd hms (by simp)

end CardScanner
