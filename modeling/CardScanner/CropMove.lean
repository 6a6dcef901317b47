import CardScanner.CropWindow

/-!
# Moving the whole selection

`moveBy` limits the motion so that the bounding rectangle of the window stays
in the image, adds it to all four corners and then clamps each coordinate.  The
clamp changes the shape exactly when it takes a far corner back.

The bounding rectangle is truncated, so its far side may lie up to one unit
short of the far corner, and a motion that stops there has put the corner past
the border.  The same holds for a motion that ends between the truncated side's
border and the corner's.  A far side at a whole number has neither problem.
-/

namespace CardScanner

/-! ## One axis -/

/-- All four coordinates along an axis, moved by the same. -/
def Axis.shift (x : Axis) (v : ℚ) : Axis := ⟨x.low + v, x.low' + v, x.high + v, x.high' + v⟩

/-- The motion `moveBy` makes along one axis when asked for `d`. -/
def axisShift (size : Int) (x : Axis) (d : ℚ) : ℚ :=
  capShift 0 size d (toInt (min x.low x.low')) (toInt (max x.high x.high'))

/-- The coordinates lie in `[0, size]`. -/
def Axis.Within (size : ℚ) (x : Axis) : Prop :=
  (0 ≤ x.low ∧ x.low ≤ size) ∧ (0 ≤ x.low' ∧ x.low' ≤ size) ∧
  (0 ≤ x.high ∧ x.high ≤ size) ∧ (0 ≤ x.high' ∧ x.high' ≤ size)

variable {size : Int} {x : Axis}

/-- Where the motion takes the far side: inside the border exactly when the
far side is at a whole number or the motion asked for keeps it inside. -/
theorem far_add_axisShift_le_iff (h : AxisIn size x) (d : ℚ) :
    max x.high x.high' + axisShift size x d ≤ size ↔
      (max x.high x.high').den = 1 ∨ max x.high x.high' + d ≤ size := by
  have hnear : 0 ≤ min x.low x.low' := le_min h.low_nonneg.1 h.low_nonneg.2
  have hfar : 0 ≤ max x.high x.high' := by
    linarith [le_max_left x.high x.high', h.lt.1, h.low_nonneg.1]
  have hsize : max x.high x.high' ≤ size := max_le h.high_le.1 h.high_le.2
  rw [← le_toInt_iff hfar]
  exact add_capShift_le_far_iff hsize (toInt_nonneg hnear) _ d

/-- After the clamp the axis is a shifted one, inside the image, exactly when
the motion left the far side inside. -/
theorem clampAxis_axisShift_iff (h : AxisIn size x) (d : ℚ) :
    (∃ v, clampAxis size (x.shift (axisShift size x d)) = x.shift v ∧
        (x.shift v).Within size) ↔
      max x.high x.high' + axisShift size x d ≤ size := by
  have hlow := low_add_capShift_nonneg h d
  have hclamp : clampAxis size (x.shift (axisShift size x d)) =
      ⟨x.low + axisShift size x d, x.low' + axisShift size x d,
        min size (x.high + axisShift size x d), min size (x.high' + axisShift size x d)⟩ := by
    ext
    · exact max_eq_right hlow.1
    · exact max_eq_right hlow.2
    · rfl
    · rfl
  rw [hclamp, ← max_add_add_right]
  constructor
  · intro ⟨v, heq, hin⟩
    have hv : axisShift size x d = v := add_left_cancel (congrArg Axis.low heq)
    rw [hv]
    exact max_le hin.2.2.1.2 hin.2.2.2.2
  · intro hfar
    have hhigh := (le_max_left _ _).trans hfar
    have hhigh' := (le_max_right _ _).trans hfar
    obtain ⟨_, _, ⟨hlt, _⟩, hlt', _⟩ := h
    refine ⟨axisShift size x d, ?_, ⟨hlow.1, ?_⟩, ⟨hlow.2, ?_⟩, ⟨?_, hhigh⟩, ?_, hhigh'⟩
    · rw [min_eq_right hhigh, min_eq_right hhigh']
      rfl
    all_goals
      have hlow1 : 0 ≤ x.low + axisShift size x d := hlow.1
      simp only [Axis.shift]
      linarith

/-! ## The window -/

/-- A selection in the image `(0, 0, W, H)`: every corner inside, left corners
left of right ones and top corners above bottom ones. -/
structure Selection (w : CropWindow) : Prop where
  image : w.mImageRect.left = 0 ∧ w.mImageRect.top = 0
  leftRight : AxisIn w.mImageRect.right w.mPoints.xAxis
  topBottom : AxisIn w.mImageRect.bottom w.mPoints.yAxis

/-- All four corners moved by one vector. -/
def Points.translate (p : Points) (vx vy : ℚ) : Points :=
  (((p.addTopLeft vx vy).addTopRight vx vy).addBottomRight vx vy).addBottomLeft vx vy

/-- Every corner lies in the image. -/
def InImage (r : GraphicsRect) (p : Points) : Prop :=
  p.xAxis.Within r.right ∧ p.yAxis.Within r.bottom

/-- A selection is known by its coordinates along both axes. -/
theorem Points.eq_iff_axes (p q : Points) : p = q ↔ p.xAxis = q.xAxis ∧ p.yAxis = q.yAxis := by
  constructor
  · intro h
    rw [h]
    exact ⟨rfl, rfl⟩
  · intro ⟨hx, hy⟩
    simp only [Points.xAxis, Points.yAxis, Axis.mk.injEq] at hx hy
    obtain ⟨h0, h6, h2, h4⟩ := hx
    obtain ⟨h1, h3, h7, h5⟩ := hy
    exact Points.ext h0 h1 h2 h3 h4 h5 h6 h7

/-- `moveBy` on the horizontal axis. -/
theorem moveBy_xAxis {w : CropWindow} (hleft : w.mImageRect.left = 0) (dx dy : ℚ) :
    (moveBy w dx dy).mPoints.xAxis =
      clampAxis w.mImageRect.right
        (w.mPoints.xAxis.shift (axisShift w.mImageRect.right w.mPoints.xAxis dx)) := by
  unfold moveBy
  rw [capPoints_xAxis]
  unfold capDx
  rw [hleft]
  rfl

/-- Down the screen the corners are moved by one number and then each is
clamped to the picture. -/
theorem moveBy_yAxis {w : CropWindow} (htop : w.mImageRect.top = 0) (dx dy : ℚ) :
    (moveBy w dx dy).mPoints.yAxis =
      clampAxis w.mImageRect.bottom
        (w.mPoints.yAxis.shift (axisShift w.mImageRect.bottom w.mPoints.yAxis dy)) := by
  have hbottom : (getBoundingRect w.mPoints).bottom =
      toInt (max w.mPoints.yAxis.high w.mPoints.yAxis.high') := congrArg toInt (max_comm _ _)
  unfold moveBy
  rw [capPoints_yAxis]
  unfold capDy
  rw [htop, hbottom]
  rfl

/-- **When a move is rigid.**  All four corners move by one vector and stay in
the image exactly when, on each axis, the far side of the selection is at a
whole number or the motion keeps it inside the image. -/
theorem moveBy_rigid_iff {w : CropWindow} (h : Selection w) (dx dy : ℚ) :
    (∃ vx vy, (moveBy w dx dy).mPoints = w.mPoints.translate vx vy ∧
        InImage w.mImageRect (moveBy w dx dy).mPoints) ↔
      ((max w.mPoints.p2 w.mPoints.p4).den = 1 ∨
        max w.mPoints.p2 w.mPoints.p4 + dx ≤ w.mImageRect.right) ∧
      ((max w.mPoints.p5 w.mPoints.p7).den = 1 ∨
        max w.mPoints.p5 w.mPoints.p7 + dy ≤ w.mImageRect.bottom) := by
  have hx := (clampAxis_axisShift_iff h.leftRight dx).trans
    (far_add_axisShift_le_iff h.leftRight dx)
  have hy := (clampAxis_axisShift_iff h.topBottom dy).trans
    (far_add_axisShift_le_iff h.topBottom dy)
  rw [← moveBy_xAxis h.image.1 dx dy] at hx
  rw [← moveBy_yAxis h.image.2 dx dy] at hy
  have hswap : max w.mPoints.p5 w.mPoints.p7 = max w.mPoints.yAxis.high w.mPoints.yAxis.high' :=
    max_comm _ _
  rw [hswap]
  refine Iff.trans ?_ (and_congr hx hy)
  constructor
  · intro ⟨vx, vy, heq, hin⟩
    rw [heq] at hin ⊢
    exact ⟨⟨vx, rfl, hin.1⟩, vy, rfl, hin.2⟩
  · intro ⟨⟨vx, heqx, hinx⟩, vy, heqy, hiny⟩
    refine ⟨vx, vy, (Points.eq_iff_axes _ _).mpr ⟨heqx, heqy⟩, ?_⟩
    unfold InImage
    rw [heqx, heqy]
    exact ⟨hinx, hiny⟩

/-- A selection whose right side is at 99.5, in a 100 by 100 image. -/
def halfWindow : CropWindow where
  mPoints := ⟨10, 10, 199 / 2, 10, 199 / 2, 90, 10, 90⟩
  mImageRect := ⟨0, 0, 100, 100⟩

/-- The selection of the counterexample is one the screen can show. -/
theorem selection_halfWindow : Selection halfWindow := by
  refine ⟨⟨rfl, rfl⟩, ?_, ?_⟩ <;>
    constructor <;> norm_num [halfWindow, Points.xAxis, Points.yAxis]

/-- It moves to the left and down rigidly. -/
theorem moveBy_rigid_iff_halfWindow :
    (∃ vx vy, (moveBy halfWindow (-5) 20).mPoints = halfWindow.mPoints.translate vx vy ∧
        InImage halfWindow.mImageRect (moveBy halfWindow (-5) 20).mPoints) ↔
      ((max (199 / 2) (199 / 2) : ℚ).den = 1 ∨ max (199 / 2) (199 / 2) + (-5) ≤ (100 : ℚ)) ∧
      ((max 90 90 : ℚ).den = 1 ∨ max 90 90 + 20 ≤ (100 : ℚ)) :=
  moveBy_rigid_iff selection_halfWindow (-5) 20

/-- Pushed to the right, its left side moves by 1 and its right side by 0.5. -/
theorem not_moveBy_rigid : ¬ ∀ (w : CropWindow), Selection w → ∀ dx dy : ℚ,
    ∃ vx vy, (moveBy w dx dy).mPoints = w.mPoints.translate vx vy ∧
      InImage w.mImageRect (moveBy w dx dy).mPoints := by
  intro h
  obtain ⟨vx, vy, heq, _⟩ := h halfWindow selection_halfWindow 5 0
  have hmoved : (moveBy halfWindow 5 0).mPoints = ⟨11, 10, 100, 10, 100, 90, 11, 90⟩ := by
    decide +kernel
  rw [hmoved] at heq
  have hleft : (11 : ℚ) = 10 + vx := congrArg Points.p0 heq
  have hright : (100 : ℚ) = 199 / 2 + vx := congrArg Points.p2 heq
  linarith

end CardScanner
