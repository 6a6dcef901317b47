import CardScanner.Projective
import CardScanner.Raster
import Mathlib.Data.Rat.Floor

/-!
# The pixels of the upright card

`pixProjectiveColor` asks for each pixel of the upright picture where it comes from, and
mixes the four pixels of the photo around that point, in sixteenths of a pixel.  What comes
from outside of the photo gets a colour of its own.

Every point of a card that is set upright is a mean of the card's corners
(`RectangleEquations.halfPlane`), so it lies in the photo if they do, and the mixture stays
between the pixels that are mixed (`crop_interpolates`).  On the last line of the photo,
where there is no further line to mix with, the code takes the first line of the photo
instead (`mixes_lastLine`).
-/

namespace CardScanner

open Plane

/-- `rval`, `gval` and `bval`: "area weighting (eqiv. to linear
interpolation)". -/
def areaWeight (xf yf : ℕ) (v00 v10 v01 v11 : UInt8) : UInt8 :=
  UInt8.ofNat (((16 - xf) * (16 - yf) * v00.toNat + xf * (16 - yf) * v10.toNat +
    (16 - xf) * yf * v01.toNat + xf * yf * v11.toNat) / 256)

/-- `linearInterpolatePixelColor`.  Coordinates are cut to sixteenths; `wpls`
counts whole lines, and in the last line it is 0. -/
def linearInterpolatePixelColor (pixs : Raster (UInt8 × UInt8 × UInt8)) (x y : ℚ)
    (colorval : UInt8 × UInt8 × UInt8) : UInt8 × UInt8 × UInt8 :=
  if x < 0 ∨ y < 0 ∨ x ≥ pixs.width ∨ y ≥ pixs.height then colorval
  else
    let xpm := ⌊16 * x⌋.toNat
    let ypm := ⌊16 * y⌋.toNat
    let xp := xpm / 16
    let xp2 := if xp + 1 < pixs.width then xp + 1 else xp
    let yp := ypm / 16
    let wpls := if yp + 1 ≥ pixs.height then 0 else 1
    let xf := xpm % 16
    let yf := ypm % 16
    let lines := yp * wpls
    let (r00, g00, b00) := pixs.pixel xp lines
    let (r10, g10, b10) := pixs.pixel xp2 lines
    let (r01, g01, b01) := pixs.pixel xp (lines + wpls)
    let (r11, g11, b11) := pixs.pixel xp2 (lines + wpls)
    (areaWeight xf yf r00 r10 r01 r11, areaWeight xf yf g00 g10 g01 g11,
      areaWeight xf yf b00 b10 b01 b11)

/-- `pixProjectiveColor`, of a picture without an alpha channel; a pixel whose
point is at infinity has no colour. -/
def pixProjectiveColor (pixs : Raster (UInt8 × UInt8 × UInt8)) (vc : Fin 8 → ℚ)
    (colorval : UInt8 × UInt8 × UInt8) : Raster (Option (UInt8 × UInt8 × UInt8)) where
  width := pixs.width
  height := pixs.height
  pixel j i := (projectiveXformPt vc ⟨j, i⟩).map fun p =>
    linearInterpolatePixelColor pixs p.x p.y colorval

/-- `pixProjectivePtaColor`: the transform goes back, from the new picture to
the photo. -/
def pixProjectivePtaColor (pixs : Raster (UInt8 × UInt8 × UInt8)) (ptad ptas : Fin 4 → Point ℚ)
    (colorval : UInt8 × UInt8 × UInt8) : Raster (Option (UInt8 × UInt8 × UInt8)) :=
  pixProjectiveColor pixs (getProjectiveXformCoeffs ptad ptas) colorval

/-! ## Mixing -/

/-- A mean of four values, rounded down, is between any bounds of the values. -/
theorem mean_between {w00 w10 w01 w11 total : ℕ} (htotal : 0 < total)
    (hweights : w00 + w10 + w01 + w11 = total) {v00 v10 v01 v11 lo hi : ℕ}
    (h00 : lo ≤ v00 ∧ v00 ≤ hi) (h10 : lo ≤ v10 ∧ v10 ≤ hi) (h01 : lo ≤ v01 ∧ v01 ≤ hi)
    (h11 : lo ≤ v11 ∧ v11 ≤ hi) :
    lo ≤ (w00 * v00 + w10 * v10 + w01 * v01 + w11 * v11) / total ∧
      (w00 * v00 + w10 * v10 + w01 * v01 + w11 * v11) / total ≤ hi := by
  constructor
  · rw [Nat.le_div_iff_mul_le htotal]
    calc lo * total = w00 * lo + w10 * lo + w01 * lo + w11 * lo := by rw [← hweights]; ring
      _ ≤ w00 * v00 + w10 * v10 + w01 * v01 + w11 * v11 := by
        gcongr
        exacts [h00.1, h10.1, h01.1, h11.1]
  · apply Nat.div_le_of_le_mul
    calc w00 * v00 + w10 * v10 + w01 * v01 + w11 * v11
        ≤ w00 * hi + w10 * hi + w01 * hi + w11 * hi := by
          gcongr
          exacts [h00.2, h10.2, h01.2, h11.2]
      _ = total * hi := by rw [← hweights]; ring

/-- The four weights are the areas of the parts of a square of 16 by 16.
Their mean of four bytes is a byte again, so `UInt8.ofNat` cuts nothing off. -/
theorem areaWeight_between {xf yf : ℕ} (hx : xf < 16) (hy : yf < 16) {v00 v10 v01 v11 : UInt8}
    {lo hi : ℕ} (h00 : lo ≤ v00.toNat ∧ v00.toNat ≤ hi) (h10 : lo ≤ v10.toNat ∧ v10.toNat ≤ hi)
    (h01 : lo ≤ v01.toNat ∧ v01.toNat ≤ hi) (h11 : lo ≤ v11.toNat ∧ v11.toNat ≤ hi) :
    lo ≤ (areaWeight xf yf v00 v10 v01 v11).toNat ∧
      (areaWeight xf yf v00 v10 v01 v11).toNat ≤ hi := by
  obtain ⟨xg, hxg⟩ : ∃ xg, xg + xf = 16 := ⟨16 - xf, by omega⟩
  obtain ⟨yg, hyg⟩ : ∃ yg, yg + yf = 16 := ⟨16 - yf, by omega⟩
  have hxg' : 16 - xf = xg := by omega
  have hyg' : 16 - yf = yg := by omega
  have hweights : xg * yg + xf * yg + xg * yf + xf * yf = 256 := by
    calc xg * yg + xf * yg + xg * yf + xf * yf = (xg + xf) * (yg + yf) := by ring
      _ = 256 := by rw [hxg, hyg]
  have hbyte : ∀ v : UInt8, 0 ≤ v.toNat ∧ v.toNat ≤ 255 :=
    fun v => ⟨Nat.zero_le _, Nat.le_of_lt_succ v.toNat_lt⟩
  have hfits := (mean_between (by decide) hweights (hbyte v00) (hbyte v10) (hbyte v01)
    (hbyte v11)).2
  unfold areaWeight
  rw [hxg', hyg', UInt8.toNat_ofNat', Nat.mod_eq_of_lt (Nat.lt_succ_of_le hfits)]
  exact mean_between (by decide) hweights h00 h10 h01 h11

inductive Channel where
  | red
  | green
  | blue

/-- The byte of a colour for this channel. -/
def Channel.value : Channel → UInt8 × UInt8 × UInt8 → ℕ
  | .red, color => color.1.toNat
  | .green, color => color.2.1.toNat
  | .blue, color => color.2.2.toNat

/-- No channel of the colour is outside of what the pixels of a set have. -/
def Mixes (pixs : Raster (UInt8 × UInt8 × UInt8)) (S : Set (ℕ × ℕ))
    (color : UInt8 × UInt8 × UInt8) : Prop :=
  ∀ (k : Channel) (lo hi : ℕ), (∀ q ∈ S, lo ≤ k.value (pixs.pixel q.1 q.2) ∧
    k.value (pixs.pixel q.1 q.2) ≤ hi) → lo ≤ k.value color ∧ k.value color ≤ hi

/-- The pixels of a picture that are no further than one pixel from a point,
along both axes. -/
def around (w h : ℕ) (x y : ℚ) : Set (ℕ × ℕ) :=
  {q | (q.1 < w ∧ (q.1 : ℚ) ≤ x + 1 ∧ x ≤ q.1 + 1) ∧
    q.2 < h ∧ (q.2 : ℚ) ≤ y + 1 ∧ y ≤ q.2 + 1}

/-- The pixel that a point is in, of which the code takes sixteenths. -/
theorem sixteenths {x : ℚ} (hx : 0 ≤ x) :
    ((⌊16 * x⌋.toNat / 16 : ℕ) : ℚ) ≤ x ∧ x < ((⌊16 * x⌋.toNat / 16 : ℕ) : ℚ) + 1 := by
  have hfloor : 0 ≤ ⌊16 * x⌋ := Int.floor_nonneg.mpr (by linarith)
  generalize hn : ⌊16 * x⌋.toNat = n
  have hcast : ((n : ℕ) : ℚ) = (⌊16 * x⌋ : ℚ) := by
    rw [← hn]
    exact_mod_cast Int.toNat_of_nonneg hfloor
  have hle := Int.floor_le (16 * x)
  have hlt := Int.lt_floor_add_one (16 * x)
  rw [← hcast] at hle hlt
  have hdiv : n / 16 * 16 ≤ n := Nat.div_mul_le_self n 16
  have hdiv' : n < (n / 16 + 1) * 16 := by omega
  have hq : ((n / 16 : ℕ) : ℚ) * 16 ≤ n := by exact_mod_cast hdiv
  have hq' : (n : ℚ) + 1 ≤ (((n / 16 : ℕ) : ℚ) + 1) * 16 := by exact_mod_cast hdiv'
  constructor
  · linarith
  · linarith

section Pixel

variable {pixs : Raster (UInt8 × UInt8 × UInt8)} {x y : ℚ} {colorval : UInt8 × UInt8 × UInt8}

/-- Each channel is mixed by itself, from four pixels of two lines.  The
weights are products of sixteenths. -/
theorem linearInterpolate_mixes (hx : 0 ≤ x) (hx' : x < pixs.width) (hy : 0 ≤ y)
    (hy' : y < pixs.height) {S : Set (ℕ × ℕ)}
    (hS : ∀ a, a < pixs.width → (a : ℚ) ≤ x + 1 → x ≤ a + 1 →
      (a, ⌊16 * y⌋.toNat / 16 * if ⌊16 * y⌋.toNat / 16 + 1 ≥ pixs.height then 0 else 1) ∈ S ∧
      (a, (⌊16 * y⌋.toNat / 16 * if ⌊16 * y⌋.toNat / 16 + 1 ≥ pixs.height then 0 else 1) +
        if ⌊16 * y⌋.toNat / 16 + 1 ≥ pixs.height then 0 else 1) ∈ S) :
    Mixes pixs S (linearInterpolatePixelColor pixs x y colorval) := by
  have hin : ¬ (x < 0 ∨ y < 0 ∨ x ≥ pixs.width ∨ y ≥ pixs.height) := by
    grind
  obtain ⟨hxp, hxp'⟩ := sixteenths hx
  unfold linearInterpolatePixelColor
  rw [if_neg hin]
  simp only
  generalize ⌊16 * x⌋.toNat = xpm at hxp hxp' ⊢
  generalize ⌊16 * y⌋.toNat = ypm at hS ⊢
  have hleft : xpm / 16 < pixs.width := by
    have h : ((xpm / 16 : ℕ) : ℚ) < pixs.width := hxp.trans_lt hx'
    exact_mod_cast h
  have hfirst := hS (xpm / 16) hleft (by linarith) hxp'.le
  have hsecond := hS (if xpm / 16 + 1 < pixs.width then xpm / 16 + 1 else xpm / 16) (by
    split_ifs <;> omega) (by
    split_ifs
    · push_cast
      linarith
    · linarith) (by
    split_ifs
    · push_cast
      linarith
    · linarith)
  intro k lo hi hall
  have h00 := hall _ hfirst.1
  have h10 := hall _ hsecond.1
  have h01 := hall _ hfirst.2
  have h11 := hall _ hsecond.2
  have hxf : xpm % 16 < 16 := Nat.mod_lt _ (by decide)
  have hyf : ypm % 16 < 16 := Nat.mod_lt _ (by decide)
  cases k with
  | red => exact areaWeight_between hxf hyf h00 h10 h01 h11
  | green => exact areaWeight_between hxf hyf h00 h10 h01 h11
  | blue => exact areaWeight_between hxf hyf h00 h10 h01 h11

/-- Above the last line, a colour is mixed from the pixels around its point. -/
theorem mixes_around (hx : 0 ≤ x) (hx' : x < pixs.width) (hy : 0 ≤ y)
    (hy' : y + 1 < pixs.height) :
    Mixes pixs (around pixs.width pixs.height x y)
      (linearInterpolatePixelColor pixs x y colorval) := by
  obtain ⟨hyp, hyp'⟩ := sixteenths hy
  have hline : ¬ ⌊16 * y⌋.toNat / 16 + 1 ≥ pixs.height := by
    have h : ((⌊16 * y⌋.toNat / 16 + 1 : ℕ) : ℚ) < pixs.height := by
      push_cast
      linarith
    have h' : ⌊16 * y⌋.toNat / 16 + 1 < pixs.height := by exact_mod_cast h
    omega
  refine linearInterpolate_mixes hx hx' hy (by linarith) fun a ha hle hle' => ?_
  rw [if_neg hline, Nat.mul_one]
  exact ⟨⟨⟨ha, hle, hle'⟩, by omega, by linarith, hyp'.le⟩,
    ⟨ha, hle, hle'⟩, by omega, by push_cast; linarith, by push_cast; linarith⟩

/-- On the last line, it is mixed from pixels of the first, since the offset
of the line is multiplied by zero. -/
theorem mixes_lastLine (hx : 0 ≤ x) (hx' : x < pixs.width) (hy : pixs.height ≤ y + 1)
    (hy' : y < pixs.height) (hh : 0 < pixs.height) :
    Mixes pixs {q | q.2 = 0 ∧ q.1 < pixs.width ∧ (q.1 : ℚ) ≤ x + 1 ∧ x ≤ q.1 + 1}
      (linearInterpolatePixelColor pixs x y colorval) := by
  have hh' : (1 : ℚ) ≤ pixs.height := by exact_mod_cast hh
  have hy0 : 0 ≤ y := by linarith
  obtain ⟨hyp, hyp'⟩ := sixteenths hy0
  have hline : ⌊16 * y⌋.toNat / 16 + 1 ≥ pixs.height := by
    have h : (pixs.height : ℚ) < ((⌊16 * y⌋.toNat / 16 + 1 + 1 : ℕ) : ℚ) := by
      push_cast
      linarith
    have h' : pixs.height < ⌊16 * y⌋.toNat / 16 + 1 + 1 := by exact_mod_cast h
    omega
  refine linearInterpolate_mixes hx hx' hy0 hy' fun a ha hle hle' => ?_
  rw [if_pos hline, Nat.mul_zero]
  exact ⟨⟨rfl, ha, hle, hle'⟩, rfl, ha, hle, hle'⟩

end Pixel

/-! ## The card -/

section Card

variable {K : Type*} [Field K] [LinearOrder K] [IsStrictOrderedRing K]

/-- How far a point's image is from a line, times the denominator, is affine
in the point. -/
theorem denominator_mul_side {c : Fin 8 → K} {p r : Point K} (hr : projectiveXformPt c p = some r)
    (a b k : K) : (c 6 * p.x + c 7 * p.y + 1) * (k - a * r.x - b * r.y) =
      (k * c 6 - a * c 0 - b * c 3) * p.x + (k * c 7 - a * c 1 - b * c 4) * p.y +
        (k - a * c 2 - b * c 5) := by
  obtain ⟨-, hx, hy⟩ := projectiveXformPt_eq_some_iff.mp hr
  linear_combination a * hx + b * hy

/-- **A point of the upright picture is taken from among the corners**: on
whichever side of a line all corners of the outline are, there its point is.
Multiplied by the denominator, the distance from the line is linear in the
upright picture, and it is positive at the corners. -/
theorem RectangleEquations.halfPlane {w h : K} (hw : 0 < w) (hh : 0 < h) {q : Fin 4 → Point K}
    {c : Fin 8 → K} (heq : RectangleEquations w h q q c)
    (hturns : Turns (q 0) (q 1) (q 2) (q 3)) {p r : Point K} (hp : InRectangle w h p)
    (hr : projectiveXformPt c p = some r) {a b k : K}
    (hside : ∀ i, a * (q i).x + b * (q i).y < k) : a * r.x + b * r.y < k := by
  have hcorner : ∀ i, 0 < (k * c 6 - a * c 0 - b * c 3) * (uprightCorners w h i).x +
      (k * c 7 - a * c 1 - b * c 4) * (uprightCorners w h i).y + (k - a * c 2 - b * c 5) := by
    intro i
    rw [← denominator_mul_side (heq.corners (noThreeOnLine_of_turns hturns) i)]
    apply mul_pos (heq.denominator_pos hw hh hturns (uprightCorners_inRectangle hw hh i))
    linarith only [hside i]
  have h0 := hcorner 0
  have h1 := hcorner 1
  have h2 := hcorner 2
  have h3 := hcorner 3
  simp only [uprightCorners, Matrix.cons_val_zero, Matrix.cons_val_one, Matrix.cons_val, mul_zero,
    add_zero, zero_add] at h0 h1 h2 h3
  have hpos := affine_pos_inRectangle hw hh h0 h1 h2 h3 hp
  rw [← denominator_mul_side hr] at hpos
  have hgap := pos_of_mul_pos_right hpos (heq.denominator_pos hw hh hturns hp).le
  linarith only [hgap]

end Card

/-- **The upright card is mixed from the card.**  Where a convex outline is in
the clipped picture, every pixel of the result has a colour, mixed from the
pixels around its point; only for a point on the last line of the picture they
are those of the first line. -/
theorem crop_interpolates (pixs : Raster (UInt8 × UInt8 × UInt8))
    (colorval : UInt8 × UInt8 × UInt8) {bw bh scale : ℚ} (hbw : 0 < bw) (hbh : 0 < bh)
    (hwidth : pixs.width ≤ bw) (hheight : pixs.height ≤ bh) (hscale : 0 < scale) (bx bY : ℚ)
    {t : Fin 4 → Point ℚ} (hturns : Turns (t 0) (t 1) (t 2) (t 3))
    (hinside : ∀ i, (0 ≤ (cropTrapezoid scale bx bY t i).x ∧
      (cropTrapezoid scale bx bY t i).x < pixs.width) ∧
      0 ≤ (cropTrapezoid scale bx bY t i).y ∧ (cropTrapezoid scale bx bY t i).y < pixs.height) :
    ∃ f, Uprights bw bh (cropTrapezoid scale bx bY t) f ∧
      ∀ j < pixs.width, ∀ i < pixs.height, ∃ color,
        (pixProjectivePtaColor pixs (uprightCorners bw bh) (cropTrapezoid scale bx bY t)
          colorval).pixel j i = some color ∧
        ((f ⟨j, i⟩).y + 1 < pixs.height →
          Mixes pixs (around pixs.width pixs.height (f ⟨j, i⟩).x (f ⟨j, i⟩).y) color) ∧
        (pixs.height ≤ (f ⟨j, i⟩).y + 1 → Mixes pixs {q | q.2 = 0 ∧ q.1 < pixs.width ∧
          (q.1 : ℚ) ≤ (f ⟨j, i⟩).x + 1 ∧ (f ⟨j, i⟩).x ≤ q.1 + 1} color) := by
  have hturns' := turns_cropTrapezoid hscale bx bY hturns
  generalize cropTrapezoid scale bx bY t = q at hinside hturns' ⊢
  obtain ⟨f, huprights, hf⟩ := uprights_of_turns hbw hbh hturns'
  obtain ⟨-, heq⟩ := gaussjordan_corners hbw.ne' hbh.ne' hturns'.bcd.ne'
  refine ⟨f, huprights, fun j hj i hi => ?_⟩
  have hjw : (j : ℚ) < pixs.width := by exact_mod_cast hj
  have hih : (i : ℚ) < pixs.height := by exact_mod_cast hi
  have hp : InRectangle bw bh ⟨j, i⟩ :=
    ⟨Nat.cast_nonneg _, by simp only; linarith, Nat.cast_nonneg _, by simp only; linarith⟩
  have hpt := hf _ hp
  have hside : ∀ {a b k : ℚ}, (∀ i, a * (q i).x + b * (q i).y < k) →
      a * (f ⟨j, i⟩).x + b * (f ⟨j, i⟩).y < k :=
    fun h => heq.halfPlane hbw hbh hturns' hp hpt h
  have hright : (f ⟨j, i⟩).x < pixs.width := by
    have h := @hside 1 0 pixs.width fun i => by linarith [(hinside i).1.2]
    linarith
  have hbottom : (f ⟨j, i⟩).y < pixs.height := by
    have h := @hside 0 1 pixs.height fun i => by linarith [(hinside i).2.2]
    linarith
  have hleft : 0 ≤ (f ⟨j, i⟩).x := by
    refine le_of_forall_pos_lt_add fun ε hε => ?_
    have h := @hside (-1) 0 ε fun i => by linarith [(hinside i).1.1]
    linarith
  have htop : 0 ≤ (f ⟨j, i⟩).y := by
    refine le_of_forall_pos_lt_add fun ε hε => ?_
    have h := @hside 0 (-1) ε fun i => by linarith [(hinside i).2.1]
    linarith
  refine ⟨linearInterpolatePixelColor pixs (f ⟨j, i⟩).x (f ⟨j, i⟩).y colorval, ?_,
    fun hline => mixes_around hleft hright htop hline,
    fun hline => mixes_lastLine hleft hright hline hbottom (by omega)⟩
  simp only [pixProjectivePtaColor, pixProjectiveColor, hpt, Option.map_some]

/-- A photo that grows redder to the right. -/
def redPhoto : Raster (UInt8 × UInt8 × UInt8) := ⟨11, 8, fun x _ => (UInt8.ofNat (20 * x), 0, 0)⟩

theorem crop_interpolates_slanted :
    ∃ f, Uprights 11 8 (cropTrapezoid 1 0 1 slantedCard) f ∧
      ∀ j < redPhoto.width, ∀ i < redPhoto.height, ∃ color,
        (pixProjectivePtaColor redPhoto (uprightCorners 11 8) (cropTrapezoid 1 0 1 slantedCard)
          (255, 255, 255)).pixel j i = some color ∧
        ((f ⟨j, i⟩).y + 1 < redPhoto.height →
          Mixes redPhoto (around redPhoto.width redPhoto.height (f ⟨j, i⟩).x (f ⟨j, i⟩).y)
            color) ∧
        (redPhoto.height ≤ (f ⟨j, i⟩).y + 1 → Mixes redPhoto {q | q.2 = 0 ∧
          q.1 < redPhoto.width ∧ (q.1 : ℚ) ≤ (f ⟨j, i⟩).x + 1 ∧ (f ⟨j, i⟩).x ≤ q.1 + 1} color) :=
  crop_interpolates redPhoto (255, 255, 255) (by norm_num) (by norm_num)
    (by norm_num [redPhoto]) (by norm_num [redPhoto]) one_pos 0 1 slantedCard_turns (by
      intro i
      fin_cases i <;> simp [cropTrapezoid, slantedCard, redPhoto] <;> norm_num)

end CardScanner
