import CardScanner.JavaCast
import Mathlib.Analysis.SpecialFunctions.Log.Base

/-!
# Scaling a picture down to a view

`Util.determineScaleFactor` finds a power of two by rounding the logarithm of
the ratio of the longer sides of the picture and of the view, and
`CropImageScaler.scale` shrinks the picture by it.  Rounding down leaves the
picture too large, and so does a ratio of longer sides that lie on different
axes.

The factor found is the largest power of two that is at most `√2` times the
ratio (`exponent_bounds`), so the picture fits iff it did from the start or some
power of two below that bound is large enough for both of its sides.
-/

namespace CardScanner

/-! ## The factor -/

/-- A positive `int`. -/
structure PositiveInt where
  val : ℤ
  pos : 0 < val
  lt : val < 2 ^ 31

/-- `Math.round`. -/
noncomputable def mathRound (x : ℝ) : ℤ := ⌊x + 1 / 2⌋

/-- `(int) x`: truncation toward zero, kept within the range. -/
noncomputable def intOfDouble (x : ℝ) : ℤ :=
  if (2 : ℝ) ^ 31 - 1 ≤ x then 2 ^ 31 - 1
  else if x ≤ -(2 : ℝ) ^ 31 then -2 ^ 31
  else if 0 ≤ x then ⌊x⌋ else ⌈x⌉

/-- The exponent of `determineScaleFactor`, for the longer sides of the view
and of the picture. -/
noncomputable def scaleExponent (maxSide side : ℤ) : ℤ :=
  intOfLong (mathRound (Real.log ((maxSide : ℝ) / side) / Real.log 0.5))

/-- `determineScaleFactor`: a power of two if the picture is too large on some
axis, or else 1.  The exponent is rounded, not raised. -/
noncomputable def determineScaleFactor (w h maxWidth maxHeight : ℤ) : ℤ :=
  if w > maxWidth ∨ h > maxHeight then
    intOfDouble ((2 : ℝ) ^ scaleExponent (max maxWidth maxHeight) (max h w))
  else 1

/-- `getScaleFactorToFitScreen`: the smaller quotient of the sides, or 1 if
the picture fits. -/
noncomputable def getScaleFactorToFitScreen (dWidth dHeight vwidth vheight : ℤ) : ℝ :=
  if dWidth ≤ vwidth ∧ dHeight ≤ vheight then 1
  else min ((vwidth : ℝ) / dWidth) ((vheight : ℝ) / dHeight)

/-- The factor `CropImageScaler.scale` multiplies the sides with. -/
noncomputable def cropScale (width height w h : ℤ) : ℝ :=
  let bestScale := 1 / getScaleFactorToFitScreen width height w h
  let scaleFactor : ℝ := determineScaleFactor width height w h
  if scaleFactor = 0 then 1
  else if bestScale < 1 ∧ bestScale > 0.5 then 1 / (2 : ℝ) ^ (0.5 : ℝ)
  else if bestScale ≤ 0.5 then 1 / (2 : ℝ) ^ (0.25 : ℝ)
  else 1 / scaleFactor

/-- The factor is at least one, and what remains of the picture fits the view
on both axes, in `decodeFile` and after `CropImageScaler.scale`. -/
structure ScalingFits (w h maxWidth maxHeight : PositiveInt) : Prop where
  factor : 1 ≤ determineScaleFactor w.val h.val maxWidth.val maxHeight.val
  decoded :
    (w.val : ℝ) / determineScaleFactor w.val h.val maxWidth.val maxHeight.val ≤ maxWidth.val ∧
    (h.val : ℝ) / determineScaleFactor w.val h.val maxWidth.val maxHeight.val ≤ maxHeight.val
  cropped :
    (w.val : ℝ) * cropScale w.val h.val maxWidth.val maxHeight.val ≤ maxWidth.val ∧
    (h.val : ℝ) * cropScale w.val h.val maxWidth.val maxHeight.val ≤ maxHeight.val

/-! ## The exponent -/

/-- The rounded logarithm: `2 ^ k` lies within a factor `√2` of the ratio. -/
theorem mathRound_log_bounds {m s : ℝ} (hm : 0 < m) (hs : 0 < s) :
    let k := mathRound (Real.log (m / s) / Real.log 0.5)
    (2 : ℝ) ^ (2 * k - 1) * m ^ 2 ≤ s ^ 2 ∧ s ^ 2 < (2 : ℝ) ^ (2 * k + 1) * m ^ 2 := by
  intro k
  have hratio : 0 < s / m := div_pos hs hm
  have hlogb : Real.log (m / s) / Real.log 0.5 = Real.logb 2 (s / m) := by
    have hhalf : Real.log 0.5 = -Real.log 2 := by
      rw [← Real.log_inv]
      norm_num
    have hswap : Real.log (m / s) = -Real.log (s / m) := by
      rw [← Real.log_inv, inv_div]
    rw [hhalf, hswap, neg_div_neg_eq, Real.logb]
  have hsquare : ∀ x : ℝ, ((2 : ℝ) ^ x) ^ 2 = (2 : ℝ) ^ (x * 2) := by
    intro x
    rw [Real.rpow_mul (by norm_num)]
    norm_num
  have hk : (k : ℝ) ≤ Real.logb 2 (s / m) + 1 / 2 := by
    rw [← hlogb]
    exact Int.floor_le _
  have hk' : Real.logb 2 (s / m) + 1 / 2 < k + 1 := by
    rw [← hlogb]
    exact Int.lt_floor_add_one _
  have hlow : (2 : ℝ) ^ ((k : ℝ) - 1 / 2) ≤ s / m :=
    (Real.le_logb_iff_rpow_le (by norm_num) hratio).mp (by linarith)
  have hhigh : s / m < (2 : ℝ) ^ ((k : ℝ) + 1 / 2) :=
    (Real.logb_lt_iff_lt_rpow (by norm_num) hratio).mp (by linarith)
  have hlow2 : (2 : ℝ) ^ (2 * k - 1) ≤ (s / m) ^ 2 := by
    calc (2 : ℝ) ^ (2 * k - 1) = ((2 : ℝ) ^ ((k : ℝ) - 1 / 2)) ^ 2 := by
          rw [hsquare, ← Real.rpow_intCast]
          push_cast
          ring_nf
      _ ≤ (s / m) ^ 2 := by gcongr
  have hhigh2 : (s / m) ^ 2 < (2 : ℝ) ^ (2 * k + 1) := by
    calc (s / m) ^ 2 < ((2 : ℝ) ^ ((k : ℝ) + 1 / 2)) ^ 2 := by gcongr
      _ = (2 : ℝ) ^ (2 * k + 1) := by
          rw [hsquare, ← Real.rpow_intCast]
          push_cast
          ring_nf
  have hm2 : 0 < m ^ 2 := by positivity
  rw [div_pow] at hlow2 hhigh2
  exact ⟨(le_div_iff₀ hm2).mp hlow2, (div_lt_iff₀ hm2).mp hhigh2⟩

/-- The exponent for two `int`s: the `long` is not cut, and `2 ^ k` is the
largest power of two that is at most `√2` times the ratio. -/
theorem exponent_bounds {m s : ℤ} (hm : 0 < m) (hm' : m < 2 ^ 31) (hs : 0 < s)
    (hs' : s < 2 ^ 31) :
    (2 : ℝ) ^ (2 * scaleExponent m s - 1) * (m : ℝ) ^ 2 ≤ (s : ℝ) ^ 2 ∧
    (s : ℝ) ^ 2 < (2 : ℝ) ^ (2 * scaleExponent m s + 1) * (m : ℝ) ^ 2 := by
  have hmR : (1 : ℝ) ≤ m := by exact_mod_cast hm
  have hsR : (1 : ℝ) ≤ s := by exact_mod_cast hs
  have hmR' : (m : ℝ) < 2 ^ 31 := by exact_mod_cast hm'
  have hsR' : (s : ℝ) < 2 ^ 31 := by exact_mod_cast hs'
  obtain ⟨hlow, hhigh⟩ := mathRound_log_bounds (m := m) (s := s) (by linarith) (by linarith)
  unfold scaleExponent
  generalize mathRound (Real.log ((m : ℝ) / s) / Real.log 0.5) = k at hlow hhigh ⊢
  have hupper : k ≤ 31 := by
    have hlt : (2 : ℝ) ^ (2 * k - 1) < (2 : ℝ) ^ (62 : ℤ) := by
      calc (2 : ℝ) ^ (2 * k - 1) ≤ (2 : ℝ) ^ (2 * k - 1) * (m : ℝ) ^ 2 :=
            le_mul_of_one_le_right (by positivity) (one_le_pow₀ hmR)
        _ ≤ (s : ℝ) ^ 2 := hlow
        _ < ((2 : ℝ) ^ 31) ^ 2 := by gcongr
        _ = (2 : ℝ) ^ (62 : ℤ) := by norm_num
    have hexp := (zpow_lt_zpow_iff_right₀ (by norm_num : (1 : ℝ) < 2)).mp hlt
    omega
  have hlower : -31 ≤ k := by
    have hlt : (2 : ℝ) ^ (-62 : ℤ) < (2 : ℝ) ^ (2 * k + 1) := by
      by_contra hnot
      have hle : (2 : ℝ) ^ (2 * k + 1) * (m : ℝ) ^ 2 ≤ (2 : ℝ) ^ (-62 : ℤ) * ((2 : ℝ) ^ 31) ^ 2 :=
        mul_le_mul (not_lt.mp hnot) (by gcongr) (by positivity) (by positivity)
      have hone : (2 : ℝ) ^ (-62 : ℤ) * ((2 : ℝ) ^ 31) ^ 2 = 1 := by norm_num
      have hsquare : (1 : ℝ) ≤ (s : ℝ) ^ 2 := one_le_pow₀ hsR
      linarith
    have hexp := (zpow_lt_zpow_iff_right₀ (by norm_num : (1 : ℝ) < 2)).mp hlt
    omega
  rw [intOfLong_of_lt (by omega) (by omega)]
  exact ⟨hlow, hhigh⟩

/-- Powers of two below the range are cast to zero. -/
theorem intOfDouble_zpow_neg {k : ℤ} (hk : k < 0) : intOfDouble ((2 : ℝ) ^ k) = 0 := by
  have hpos : (0 : ℝ) < (2 : ℝ) ^ k := by positivity
  have hlt : (2 : ℝ) ^ k < 1 := zpow_lt_one_of_neg₀ (by norm_num) hk
  unfold intOfDouble
  rw [if_neg (by norm_num; linarith), if_neg (by norm_num; linarith), if_pos hpos.le,
    Int.floor_eq_zero_iff]
  exact ⟨hpos.le, hlt⟩

/-- Those in the range are kept, and `2 ^ 31` becomes the largest `int`. -/
theorem intOfDouble_pow (n : ℕ) :
    intOfDouble ((2 : ℝ) ^ (n : ℤ)) = min (2 ^ n) (2 ^ 31 - 1) := by
  have hone : (1 : ℝ) ≤ (2 : ℝ) ^ n := one_le_pow₀ (by norm_num)
  rw [zpow_natCast]
  unfold intOfDouble
  split_ifs with hlarge hsmall
  · have hcast : (2 : ℤ) ^ 31 - 1 ≤ 2 ^ n := by exact_mod_cast hlarge
    exact (min_eq_right hcast).symm
  · norm_num at hsmall
    linarith
  · have hcast : (2 : ℤ) ^ n ≤ 2 ^ 31 - 1 := by
      rw [not_le] at hlarge
      exact_mod_cast hlarge.le
    rw [min_eq_left hcast]
    exact_mod_cast Int.floor_intCast ((2 : ℤ) ^ n)
  · exact absurd (zero_le_one.trans hone) ‹_›

/-! ## The picture that is left -/

/-- The picture never needs to grow, so it is shrunk by the factor or, where
that is zero, not at all. -/
theorem cropScale_eq (w h maxWidth maxHeight : PositiveInt) :
    cropScale w.val h.val maxWidth.val maxHeight.val =
      if determineScaleFactor w.val h.val maxWidth.val maxHeight.val = 0 then 1
      else 1 / (determineScaleFactor w.val h.val maxWidth.val maxHeight.val : ℝ) := by
  have hw : (0 : ℝ) < w.val := by exact_mod_cast w.pos
  have hh : (0 : ℝ) < h.val := by exact_mod_cast h.pos
  have hW : (0 : ℝ) < maxWidth.val := by exact_mod_cast maxWidth.pos
  have hH : (0 : ℝ) < maxHeight.val := by exact_mod_cast maxHeight.pos
  have hfit : 0 < getScaleFactorToFitScreen w.val h.val maxWidth.val maxHeight.val ∧
      getScaleFactorToFitScreen w.val h.val maxWidth.val maxHeight.val ≤ 1 := by
    unfold getScaleFactorToFitScreen
    split_ifs with hsmall
    · norm_num
    · refine ⟨lt_min (div_pos hW hw) (div_pos hH hh), ?_⟩
      rcases not_and_or.mp hsmall with hwide | hhigh
      · refine (min_le_left _ _).trans ((div_le_one hw).mpr ?_)
        exact_mod_cast (not_le.mp hwide).le
      · refine (min_le_right _ _).trans ((div_le_one hh).mpr ?_)
        exact_mod_cast (not_le.mp hhigh).le
  have hbest : 1 ≤ 1 / getScaleFactorToFitScreen w.val h.val maxWidth.val maxHeight.val :=
    (one_le_div hfit.1).mpr hfit.2
  have hnotBelow : ¬ 1 / getScaleFactorToFitScreen w.val h.val maxWidth.val maxHeight.val < 1 :=
    not_lt.mpr hbest
  have hnotHalf : ¬ 1 / getScaleFactorToFitScreen w.val h.val maxWidth.val maxHeight.val ≤ 0.5 :=
    not_le.mpr (lt_of_lt_of_le (by norm_num) hbest)
  simp only [cropScale, Int.cast_eq_zero, hnotBelow, hnotHalf, false_and, if_false]

/-- A side divided by the factor fits iff it is at most the factor times the
room. -/
theorem scalingFits_iff_le (w h maxWidth maxHeight : PositiveInt) :
    ScalingFits w h maxWidth maxHeight ↔
      1 ≤ determineScaleFactor w.val h.val maxWidth.val maxHeight.val ∧
      w.val ≤ determineScaleFactor w.val h.val maxWidth.val maxHeight.val * maxWidth.val ∧
      h.val ≤ determineScaleFactor w.val h.val maxWidth.val maxHeight.val * maxHeight.val := by
  have hscale := cropScale_eq w h maxWidth maxHeight
  generalize hs : determineScaleFactor w.val h.val maxWidth.val maxHeight.val = s at hscale ⊢
  have hside : 1 ≤ s → ∀ side room : ℤ, (side : ℝ) / s ≤ room ↔ side ≤ s * room := by
    intro hone side room
    have hpos : (0 : ℝ) < s := by exact_mod_cast hone
    rw [div_le_iff₀ hpos, mul_comm]
    exact_mod_cast Iff.rfl
  constructor
  · intro hfits
    have hone := hfits.factor
    have hdecoded := hfits.decoded
    rw [hs] at hone hdecoded
    exact ⟨hone, (hside hone _ _).mp hdecoded.1, (hside hone _ _).mp hdecoded.2⟩
  · intro ⟨hone, hw, hh⟩
    rw [if_neg (by omega)] at hscale
    refine ⟨by rwa [hs], ?_, ?_⟩
    · rw [hs]
      exact ⟨(hside hone _ _).mpr hw, (hside hone _ _).mpr hh⟩
    · rw [hscale, mul_one_div, mul_one_div]
      exact ⟨(hside hone _ _).mpr hw, (hside hone _ _).mpr hh⟩

/-! ## When the picture fits -/

/-- The picture fits without scaling, or some power of two is large enough for
both of its sides and at most `√2` times the ratio of the longer sides. -/
def RoomForScaling (w h maxWidth maxHeight : PositiveInt) : Prop :=
  (w.val ≤ maxWidth.val ∧ h.val ≤ maxHeight.val) ∨
    ∃ n : ℕ, w.val ≤ 2 ^ n * maxWidth.val ∧ h.val ≤ 2 ^ n * maxHeight.val ∧
      (2 ^ n * max maxWidth.val maxHeight.val) ^ 2 ≤ 2 * max h.val w.val ^ 2

/-- What is found for a picture that is too large. -/
theorem factor_of_too_large {w h maxWidth maxHeight : PositiveInt}
    (hlarge : w.val > maxWidth.val ∨ h.val > maxHeight.val) :
    ∃ k : ℤ, determineScaleFactor w.val h.val maxWidth.val maxHeight.val =
        intOfDouble ((2 : ℝ) ^ k) ∧
      (2 : ℝ) ^ (2 * k - 1) * ((max maxWidth.val maxHeight.val : ℤ) : ℝ) ^ 2 ≤
        ((max h.val w.val : ℤ) : ℝ) ^ 2 ∧
      ((max h.val w.val : ℤ) : ℝ) ^ 2 <
        (2 : ℝ) ^ (2 * k + 1) * ((max maxWidth.val maxHeight.val : ℤ) : ℝ) ^ 2 := by
  refine ⟨scaleExponent (max maxWidth.val maxHeight.val) (max h.val w.val), ?_, ?_⟩
  · rw [determineScaleFactor, if_pos hlarge]
  · exact exponent_bounds (lt_max_of_lt_left maxWidth.pos) (max_lt maxWidth.lt maxHeight.lt)
      (lt_max_of_lt_left h.pos) (max_lt h.lt w.lt)

/-- A power of two that is capped at the largest `int` serves as well. -/
theorem le_capped_iff {side room : PositiveInt} {n : ℕ} :
    side.val ≤ min (2 ^ n) (2 ^ 31 - 1) * room.val ↔ side.val ≤ 2 ^ n * room.val := by
  have hside := side.lt
  have hroom := room.pos
  rcases le_total ((2 : ℤ) ^ n) (2 ^ 31 - 1) with hle | hle
  · rw [min_eq_left hle]
  · rw [min_eq_right hle]
    have hcap : (2 : ℤ) ^ 31 - 1 ≤ (2 ^ 31 - 1) * room.val := by omega
    have hpow : (2 : ℤ) ^ 31 - 1 ≤ 2 ^ n * room.val := hcap.trans (by gcongr)
    exact iff_of_true (by omega) (by omega)

/-- A factor that fits a picture that is too large comes from a power of two
that is large enough. -/
theorem roomForScaling_of_fits {w h maxWidth maxHeight : PositiveInt}
    (hfits : ScalingFits w h maxWidth maxHeight) : RoomForScaling w h maxWidth maxHeight := by
  by_cases hlarge : w.val > maxWidth.val ∨ h.val > maxHeight.val
  · right
    obtain ⟨hone, hw, hh⟩ := (scalingFits_iff_le w h maxWidth maxHeight).mp hfits
    obtain ⟨k, hfactor, hlow, _⟩ := factor_of_too_large hlarge
    rw [hfactor] at hone hw hh
    have hk : 0 ≤ k := by
      by_contra hneg
      rw [intOfDouble_zpow_neg (not_le.mp hneg)] at hone
      exact absurd hone (by decide)
    obtain ⟨n, rfl⟩ := Int.eq_ofNat_of_zero_le hk
    rw [intOfDouble_pow, le_capped_iff] at hw hh
    refine ⟨n, hw, hh, ?_⟩
    have hsquare : ((2 : ℝ) ^ n) ^ 2 = 2 * (2 : ℝ) ^ (2 * (n : ℤ) - 1) := by
      rw [zpow_sub_one₀ (by norm_num), ← pow_mul, mul_comm n 2]
      norm_cast
      ring
    have hreal : ((2 : ℝ) ^ n * ((max maxWidth.val maxHeight.val : ℤ) : ℝ)) ^ 2 ≤
        2 * ((max h.val w.val : ℤ) : ℝ) ^ 2 := by
      rw [mul_pow, hsquare]
      linarith
    exact_mod_cast hreal
  · left
    omega

/-- A power of two that is large enough makes the factor large enough, as it
is at most the one that was found. -/
theorem fits_of_roomForScaling {w h maxWidth maxHeight : PositiveInt}
    (hroom : RoomForScaling w h maxWidth maxHeight) : ScalingFits w h maxWidth maxHeight := by
  rw [scalingFits_iff_le]
  by_cases hlarge : w.val > maxWidth.val ∨ h.val > maxHeight.val
  · obtain ⟨hwide, hhigh⟩ | ⟨n, hw, hh, hpower⟩ := hroom
    · omega
    · obtain ⟨k, hfactor, _, hhigh⟩ := factor_of_too_large hlarge
      have hpowerR : ((2 : ℝ) ^ n) ^ 2 * ((max maxWidth.val maxHeight.val : ℤ) : ℝ) ^ 2 ≤
          2 * ((max h.val w.val : ℤ) : ℝ) ^ 2 := by
        rw [← mul_pow]
        exact_mod_cast hpower
      have hside : (0 : ℝ) < ((max maxWidth.val maxHeight.val : ℤ) : ℝ) ^ 2 := by
        have hpos : 0 < max maxWidth.val maxHeight.val := lt_max_of_lt_left maxWidth.pos
        have hposR : (0 : ℝ) < ((max maxWidth.val maxHeight.val : ℤ) : ℝ) := by exact_mod_cast hpos
        positivity
      have hlt : (2 : ℝ) ^ (2 * (n : ℤ)) < (2 : ℝ) ^ (2 * k + 2) := by
        have hleft : (2 : ℝ) ^ (2 * (n : ℤ)) = ((2 : ℝ) ^ n) ^ 2 := by
          rw [← pow_mul, mul_comm n 2]
          norm_cast
        have hright : (2 : ℝ) ^ (2 * k + 2) = 2 * (2 : ℝ) ^ (2 * k + 1) := by
          rw [show 2 * k + 2 = (2 * k + 1) + 1 by ring, zpow_add_one₀ (by norm_num)]
          ring
        rw [hleft, hright]
        refine lt_of_mul_lt_mul_right ?_ hside.le
        linarith
      have hexp := (zpow_lt_zpow_iff_right₀ (by norm_num : (1 : ℝ) < 2)).mp hlt
      obtain ⟨m, rfl⟩ : ∃ m : ℕ, k = m := Int.eq_ofNat_of_zero_le (by omega)
      have hnm : (2 : ℤ) ^ n ≤ 2 ^ m := pow_le_pow_right₀ (by norm_num) (by omega)
      rw [hfactor, intOfDouble_pow, le_capped_iff, le_capped_iff]
      refine ⟨le_min (one_le_pow₀ (by norm_num)) (by norm_num), ?_, ?_⟩
      · exact hw.trans (mul_le_mul_of_nonneg_right hnm maxWidth.pos.le)
      · exact hh.trans (mul_le_mul_of_nonneg_right hnm maxHeight.pos.le)
  · rw [determineScaleFactor, if_neg hlarge]
    omega

/-- **When scaling fits.**  The factor that is found is the power of two next
to the ratio of the longer sides, so it is large enough exactly if a power of
two that is large enough does not exceed that ratio too far. -/
theorem scalingFits_iff (w h maxWidth maxHeight : PositiveInt) :
    ScalingFits w h maxWidth maxHeight ↔ RoomForScaling w h maxWidth maxHeight :=
  ⟨roomForScaling_of_fits, fits_of_roomForScaling⟩

/-- A picture of 130 by 100 is not scaled down to a view of 100 by 100. -/
theorem not_scalingFits :
    ¬ ∀ w h maxWidth maxHeight : PositiveInt, ScalingFits w h maxWidth maxHeight := by
  intro hall
  have hroom := roomForScaling_of_fits (hall ⟨130, by decide, by decide⟩ ⟨100, by decide, by decide⟩
    ⟨100, by decide, by decide⟩ ⟨100, by decide, by decide⟩)
  obtain ⟨hwide, _⟩ | ⟨n, hw, _, hpower⟩ := hroom
  · exact absurd hwide (by decide)
  · simp only at hw hpower
    have hn : (2 : ℤ) ≤ 2 ^ n := by
      cases n with
      | zero => exact absurd hw (by decide)
      | succ n =>
          have hpos : (1 : ℤ) ≤ 2 ^ n := one_le_pow₀ (by norm_num)
          rw [pow_succ]
          omega
    have hmax : max (100 : ℤ) 100 = 100 := rfl
    have hmax' : max (100 : ℤ) 130 = 130 := rfl
    rw [hmax, hmax'] at hpower
    nlinarith

end CardScanner
