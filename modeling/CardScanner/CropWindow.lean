import CardScanner.JavaCast
import CardScanner.Machine
import Mathlib.Algebra.Order.Field.Basic
import Mathlib.Tactic.Linarith

/-!
# Dragging the crop window

`CropWindow` keeps the four corners of the selection in one array
(`mPoints`: top left, top right, bottom right, bottom left, each `x` then
`y`).  A drag adds the motion to one, two or four corners and then caps the
coordinates.  Exact rationals stand for the `float` coordinates.

The two axes never mix: on each of them two *low* corners must stay 50 units
below two *high* corners, inside `[0, size]` (`AxisOk`).  Capping clamps low
coordinates from below and high ones from above and restores the gap only on
the sides named by the edge code.  A corner drag names both its sides.  An edge
drag moves its two corners along both axes but names only one of them, and a
move names none; `MotionOk` says exactly when these keep the gap.
-/

namespace CardScanner

open Machine

/-! ## The window -/

/-- `android.graphics.Rect`: four edges. -/
structure GraphicsRect where
  left : Int
  top : Int
  right : Int
  bottom : Int
  deriving DecidableEq, Repr

/-- The array `mPoints`. -/
@[ext] structure Points where
  p0 : ℚ
  p1 : ℚ
  p2 : ℚ
  p3 : ℚ
  p4 : ℚ
  p5 : ℚ
  p6 : ℚ
  p7 : ℚ
  deriving DecidableEq, Repr

/-- The fields of `CropWindow` a drag reads and writes. -/
structure CropWindow where
  mPoints : Points
  mImageRect : GraphicsRect
  deriving DecidableEq, Repr

/-! Edge codes of `HighlightView`. -/

/-- The values of `CropWindow` for what is being dragged.  Edges are bits, so
that a corner is two of them. -/
def growNone : Nat := 0
def growLeftEdge : Nat := 1 <<< 1
def growRightEdge : Nat := 1 <<< 2
def growTopEdge : Nat := 1 <<< 3
def growBottomEdge : Nat := 1 <<< 4
/-- The whole selection is being moved. -/
def move : Nat := 1 <<< 5

/-- `getBoundingRect`, truncated to `int`. -/
def getBoundingRect (p : Points) : GraphicsRect where
  left := toInt (min p.p0 p.p6)
  right := toInt (max p.p2 p.p4)
  top := toInt (min p.p1 p.p3)
  bottom := toInt (max p.p5 p.p7)

/-- The capping of `capDx` and `capDy`: a motion that would take the far edge
of the bounding rectangle to the image's far edge or past it ends there, else
one that would take the near edge to the near edge or past it ends there. -/
def capShift (imageNear imageFar : Int) (d : ℚ) (near far : Int) : ℚ :=
  if far + d ≥ imageFar then imageFar - far
  else if near + d ≤ imageNear then imageNear - near
  else d

/-- How far a motion to the side goes before the frame would leave the
picture. -/
def capDx (mImageRect : GraphicsRect) (dx : ℚ) (boundingRect : GraphicsRect) : ℚ :=
  capShift mImageRect.left mImageRect.right dx boundingRect.left boundingRect.right

/-- The same up and down. -/
def capDy (mImageRect : GraphicsRect) (dy : ℚ) (boundingRect : GraphicsRect) : ℚ :=
  capShift mImageRect.top mImageRect.bottom dy boundingRect.top boundingRect.bottom

/-- The first half of `capPoints`: low coordinates are kept from falling below
0, high ones from passing the image's far edges. -/
def clampPoints (mImageRect : GraphicsRect) (p : Points) : Points where
  p0 := max 0 p.p0
  p1 := max 0 p.p1
  p2 := min mImageRect.right p.p2
  p3 := max 0 p.p3
  p4 := min mImageRect.right p.p4
  p5 := min mImageRect.bottom p.p5
  p6 := max 0 p.p6
  p7 := min mImageRect.bottom p.p7

/-- `capPoints`.  The four bounds are computed before any gap is restored. -/
def capPoints (w : CropWindow) (edge : Nat) : CropWindow :=
  let p := clampPoints w.mImageRect w.mPoints
  let cap : ℚ := 50
  let leftBound := max p.p0 p.p6 + cap
  let rightBound := min p.p2 p.p4 - cap
  let topBound := max p.p1 p.p3 + cap
  let bottomBound := min p.p7 p.p5 - cap
  { w with mPoints :=
    { p0 := if growLeftEdge &&& edge > 0 then min p.p0 rightBound else p.p0
      p6 := if growLeftEdge &&& edge > 0 then min p.p6 rightBound else p.p6
      p2 := if growRightEdge &&& edge > 0 then max p.p2 leftBound else p.p2
      p4 := if growRightEdge &&& edge > 0 then max p.p4 leftBound else p.p4
      p1 := if growTopEdge &&& edge > 0 then min p.p1 bottomBound else p.p1
      p3 := if growTopEdge &&& edge > 0 then min p.p3 bottomBound else p.p3
      p7 := if growBottomEdge &&& edge > 0 then max p.p7 topBound else p.p7
      p5 := if growBottomEdge &&& edge > 0 then max p.p5 topBound else p.p5 } }

/-! Adding a motion to one corner. -/

/-- A motion of one corner.  The others follow. -/
def Points.addTopLeft (p : Points) (dx dy : ℚ) : Points :=
  { p with p0 := p.p0 + dx, p1 := p.p1 + dy }

def Points.addTopRight (p : Points) (dx dy : ℚ) : Points :=
  { p with p2 := p.p2 + dx, p3 := p.p3 + dy }

def Points.addBottomRight (p : Points) (dx dy : ℚ) : Points :=
  { p with p4 := p.p4 + dx, p5 := p.p5 + dy }

def Points.addBottomLeft (p : Points) (dx dy : ℚ) : Points :=
  { p with p6 := p.p6 + dx, p7 := p.p7 + dy }

/-- `moveBy`: all four corners by the capped motion. -/
def moveBy (w : CropWindow) (dx dy : ℚ) : CropWindow :=
  let boundingRect := getBoundingRect w.mPoints
  let dx := capDx w.mImageRect dx boundingRect
  let dy := capDy w.mImageRect dy boundingRect
  let p := (((w.mPoints.addTopLeft dx dy).addTopRight dx dy).addBottomRight dx dy).addBottomLeft
    dx dy
  capPoints { w with mPoints := p } growNone

/-- `growBy`: a corner code moves one corner, an edge code two; any other code
only caps. -/
def growBy (w : CropWindow) (edge : Nat) (dx dy : ℚ) : CropWindow :=
  let p := w.mPoints
  if growLeftEdge ||| growTopEdge = edge then
    capPoints { w with mPoints := p.addTopLeft dx dy } edge
  else if growRightEdge ||| growTopEdge = edge then
    capPoints { w with mPoints := p.addTopRight dx dy } edge
  else if growRightEdge ||| growBottomEdge = edge then
    capPoints { w with mPoints := p.addBottomRight dx dy } edge
  else if growLeftEdge ||| growBottomEdge = edge then
    capPoints { w with mPoints := p.addBottomLeft dx dy } edge
  else
    let p := if growLeftEdge = edge then (p.addTopLeft dx dy).addBottomLeft dx dy else p
    let p := if growRightEdge = edge then (p.addTopRight dx dy).addBottomRight dx dy else p
    let p := if growTopEdge = edge then (p.addTopLeft dx dy).addTopRight dx dy else p
    let p := if growBottomEdge = edge then (p.addBottomRight dx dy).addBottomLeft dx dy else p
    capPoints { w with mPoints := p } edge

/-- `handleMotion`: the window is moved or one of its corners or edges is, as
the touch has decided. -/
def handleMotion (w : CropWindow) (edge : Nat) (dx dy : ℚ) : CropWindow :=
  if edge = growNone then w
  else if edge = move then moveBy w dx dy
  else growBy w edge dx dy

/-! ## One axis -/

/-- The coordinates of the corners on one axis: two low and two high ones. -/
@[ext] structure Axis where
  low : ℚ
  low' : ℚ
  high : ℚ
  high' : ℚ

/-- The coordinates lie in `[0, size]`, both low ones 50 below both high ones. -/
structure AxisOk (size : ℚ) (x : Axis) : Prop where
  low_nonneg : 0 ≤ x.low ∧ 0 ≤ x.low'
  high_le : x.high ≤ size ∧ x.high' ≤ size
  gap : x.low + 50 ≤ x.high ∧ x.low + 50 ≤ x.high'
  gap' : x.low' + 50 ≤ x.high ∧ x.low' + 50 ≤ x.high'

/-- The clamp of `capPoints` on one axis. -/
def clampAxis (size : ℚ) (x : Axis) : Axis :=
  ⟨max 0 x.low, max 0 x.low', min size x.high, min size x.high'⟩

/-- `capPoints` on one axis, with the two tests of the edge code that concern
it. -/
def capAxis (size : ℚ) (capLow capHigh : Prop) [Decidable capLow] [Decidable capHigh]
    (x : Axis) : Axis :=
  let c := clampAxis size x
  let lowBound := max c.low c.low' + 50
  let highBound := min c.high c.high' - 50
  { low := if capLow then min c.low highBound else c.low
    low' := if capLow then min c.low' highBound else c.low'
    high := if capHigh then max c.high lowBound else c.high
    high' := if capHigh then max c.high' lowBound else c.high' }

/-- The coordinates lie in `[0, size]`, both low ones below both high ones. -/
structure AxisIn (size : ℚ) (x : Axis) : Prop where
  low_nonneg : 0 ≤ x.low ∧ 0 ≤ x.low'
  high_le : x.high ≤ size ∧ x.high' ≤ size
  lt : x.low < x.high ∧ x.low < x.high'
  lt' : x.low' < x.high ∧ x.low' < x.high'

variable {size : ℚ} {x : Axis} {capLow capHigh : Prop} [Decidable capLow] [Decidable capHigh]

omit [Decidable capLow] [Decidable capHigh] in
/-- What the caps ask for along an axis implies that it lies in the picture. -/
theorem AxisOk.axisIn (h : AxisOk size x) : AxisIn size x := by
  obtain ⟨hlow, hhigh, hgap, hgap'⟩ := h
  refine ⟨hlow, hhigh, ⟨?_, ?_⟩, ?_, ?_⟩ <;> linarith

omit [Decidable capLow] [Decidable capHigh] in
theorem AxisOk.clampAxis_eq (h : AxisOk size x) : clampAxis size x = x := by
  ext
  · exact max_eq_right h.low_nonneg.1
  · exact max_eq_right h.low_nonneg.2
  · exact min_eq_right h.high_le.1
  · exact min_eq_right h.high_le.2

/-- Capping changes nothing on an axis that is in order, whichever of its
sides may be capped. -/
theorem AxisOk.capAxis_eq (h : AxisOk size x) : capAxis size capLow capHigh x = x := by
  have hhigh := le_min h.gap.1 h.gap.2
  have hhigh' := le_min h.gap'.1 h.gap'.2
  have hlow : min x.low (min x.high x.high' - 50) = x.low := min_eq_left (by linarith)
  have hlow' : min x.low' (min x.high x.high' - 50) = x.low' := min_eq_left (by linarith)
  have hmax : max x.high (max x.low x.low' + 50) = x.high := by
    rw [← max_add_add_right]
    exact max_eq_left (max_le h.gap.1 h.gap'.1)
  have hmax' : max x.high' (max x.low x.low' + 50) = x.high' := by
    rw [← max_add_add_right]
    exact max_eq_left (max_le h.gap.2 h.gap'.2)
  unfold capAxis
  simp only [h.clampAxis_eq, hlow, hlow', hmax, hmax', ite_self]

/-- Low coordinates may be changed in any way when the low side is capped. -/
theorem AxisOk.cap_low (h : AxisOk size x) (hlow : capLow) (hhigh : ¬ capHigh) (u u' : ℚ) :
    AxisOk size (capAxis size capLow capHigh ⟨u, u', x.high, x.high'⟩) := by
  have hbound : 0 ≤ min x.high x.high' - 50 := by
    linarith [h.low_nonneg.1, le_min h.gap.1 h.gap.2]
  have hnonneg : ∀ v : ℚ, 0 ≤ min (max 0 v) (min x.high x.high' - 50) :=
    fun v => le_min (le_max_left _ _) hbound
  have hgap : ∀ v : ℚ, min (max 0 v) (min x.high x.high' - 50) + 50 ≤ min x.high x.high' := by
    intro v
    linarith [min_le_right (max 0 v) (min x.high x.high' - 50)]
  simp only [capAxis, clampAxis, if_pos hlow, if_neg hhigh, min_eq_right h.high_le.1,
    min_eq_right h.high_le.2]
  refine ⟨⟨hnonneg u, hnonneg u'⟩, h.high_le, ?_, ?_⟩
  · exact ⟨(hgap u).trans (min_le_left _ _), (hgap u).trans (min_le_right _ _)⟩
  · exact ⟨(hgap u').trans (min_le_left _ _), (hgap u').trans (min_le_right _ _)⟩

omit [Decidable capLow] [Decidable capHigh] in
/-- Low coordinates are 50 away from the far end. -/
theorem AxisOk.max_low_le (h : AxisOk size x) : max x.low x.low' + 50 ≤ size := by
  rw [← max_add_add_right]
  exact max_le (h.gap.1.trans h.high_le.1) (h.gap'.1.trans h.high_le.1)

/-- High coordinates may be changed in any way when the high side is capped. -/
theorem AxisOk.cap_high (h : AxisOk size x) (hlow : ¬ capLow) (hhigh : capHigh) (u u' : ℚ) :
    AxisOk size (capAxis size capLow capHigh ⟨x.low, x.low', u, u'⟩) := by
  have hbound := h.max_low_le
  have hle : ∀ v : ℚ, max (min size v) (max x.low x.low' + 50) ≤ size :=
    fun v => max_le (min_le_left _ _) hbound
  have hgap : ∀ v : ℚ, max x.low x.low' + 50 ≤ max (min size v) (max x.low x.low' + 50) :=
    fun v => le_max_right _ _
  simp only [capAxis, clampAxis, if_neg hlow, if_pos hhigh, max_eq_right h.low_nonneg.1,
    max_eq_right h.low_nonneg.2]
  have hleft := le_max_left x.low x.low'
  have hright := le_max_right x.low x.low'
  refine ⟨h.low_nonneg, ⟨hle u, hle u'⟩, ?_, ?_⟩
  · exact ⟨by linarith [hgap u], by linarith [hgap u']⟩
  · exact ⟨by linarith [hgap u], by linarith [hgap u']⟩

/-- With no side capped, moving the first low and the first high coordinate
together keeps the axis exactly when neither comes too near the other pair. -/
theorem AxisOk.shift_first_iff (h : AxisOk size x) (hlow : ¬ capLow) (hhigh : ¬ capHigh)
    (d : ℚ) : AxisOk size (capAxis size capLow capHigh ⟨x.low + d, x.low', x.high + d, x.high'⟩) ↔
      x.low + d + 50 ≤ x.high' ∧ x.low' + 50 ≤ x.high + d := by
  obtain ⟨⟨hl, hl'⟩, ⟨hh, hh'⟩, ⟨hg1, hg2⟩, hg3, hg4⟩ := h
  simp only [capAxis, clampAxis, if_neg hlow, if_neg hhigh, max_eq_right hl', min_eq_right hh']
  constructor
  · intro ⟨_, _, ⟨_, hg⟩, hg', _⟩
    exact ⟨by linarith [le_max_right 0 (x.low + d)], by linarith [min_le_right size (x.high + d)]⟩
  · intro ⟨hc, hc'⟩
    refine ⟨⟨le_max_left _ _, hl'⟩, ⟨min_le_left _ _, hh'⟩, ⟨?_, ?_⟩, ?_, hg4⟩
    · rw [← max_add_add_right]
      refine max_le (le_min ?_ ?_) (le_min ?_ ?_) <;> linarith
    · rw [← max_add_add_right]
      exact max_le (by linarith) hc
    · exact le_min (by linarith) hc'

/-- The same for the other pair. -/
theorem AxisOk.shift_second_iff (h : AxisOk size x) (hlow : ¬ capLow) (hhigh : ¬ capHigh)
    (d : ℚ) : AxisOk size (capAxis size capLow capHigh ⟨x.low, x.low' + d, x.high, x.high' + d⟩) ↔
      x.low' + d + 50 ≤ x.high ∧ x.low + 50 ≤ x.high' + d := by
  have hswap : ∀ y : Axis, AxisOk size y ↔ AxisOk size ⟨y.low', y.low, y.high', y.high⟩ :=
    fun y => ⟨fun h => ⟨h.low_nonneg.symm, h.high_le.symm, h.gap'.symm, h.gap.symm⟩,
      fun h => ⟨h.low_nonneg.symm, h.high_le.symm, h.gap'.symm, h.gap.symm⟩⟩
  have hfirst := ((hswap x).mp h).shift_first_iff hlow hhigh d
  rw [hswap] at hfirst
  simp only [capAxis, clampAxis, if_neg hlow, if_neg hhigh] at hfirst ⊢
  exact hfirst

/-- With no side capped, moving every coordinate by one amount that leaves the
low ones nonnegative keeps the axis exactly when the low ones stay 50 away
from the far end. -/
theorem AxisOk.shift_all_iff (h : AxisOk size x) (hlow : ¬ capLow) (hhigh : ¬ capHigh)
    {d : ℚ} (hd : 0 ≤ x.low + d) (hd' : 0 ≤ x.low' + d) :
    AxisOk size (capAxis size capLow capHigh
        ⟨x.low + d, x.low' + d, x.high + d, x.high' + d⟩) ↔
      max x.low x.low' + d + 50 ≤ size := by
  obtain ⟨_, _, ⟨hg1, hg2⟩, hg3, hg4⟩ := h
  simp only [capAxis, clampAxis, if_neg hlow, if_neg hhigh, max_eq_right hd, max_eq_right hd']
  constructor
  · intro ⟨_, _, ⟨hg, _⟩, hg', _⟩
    have hle := min_le_left size (x.high + d)
    rcases max_cases x.low x.low' with ⟨hmax, _⟩ | ⟨hmax, _⟩ <;> rw [hmax] <;> linarith
  · intro hc
    have hleft := le_max_left x.low x.low'
    have hright := le_max_right x.low x.low'
    refine ⟨⟨hd, hd'⟩, ⟨min_le_left _ _, min_le_left _ _⟩, ⟨?_, ?_⟩, ?_, ?_⟩ <;>
      refine le_min ?_ ?_ <;> linarith

/-! ## The window -/

/-- The abscissas of the corners, the two on the left before the two on the
right. -/
def Points.xAxis (p : Points) : Axis := ⟨p.p0, p.p6, p.p2, p.p4⟩

/-- Their ordinates, the two above before the two below. -/
def Points.yAxis (p : Points) : Axis := ⟨p.p1, p.p3, p.p7, p.p5⟩

/-- The caps act on both axes in the same way, the left and right edges on one
of them. -/
theorem capPoints_xAxis (w : CropWindow) (edge : Nat) :
    (capPoints w edge).mPoints.xAxis =
      capAxis w.mImageRect.right (growLeftEdge &&& edge > 0) (growRightEdge &&& edge > 0)
        w.mPoints.xAxis := rfl

/-- The upper and lower edges act on the other. -/
theorem capPoints_yAxis (w : CropWindow) (edge : Nat) :
    (capPoints w edge).mPoints.yAxis =
      capAxis w.mImageRect.bottom (growTopEdge &&& edge > 0) (growBottomEdge &&& edge > 0)
        w.mPoints.yAxis := rfl

/-- The four corners lie in the image `(0, 0, W, H)`, both left ones 50 left
of both right ones and both top ones 50 above both bottom ones. -/
structure Framed (w : CropWindow) : Prop where
  image : w.mImageRect.left = 0 ∧ w.mImageRect.top = 0
  topLeft : 0 ≤ w.mPoints.p0 ∧ w.mPoints.p0 ≤ w.mImageRect.right ∧
    0 ≤ w.mPoints.p1 ∧ w.mPoints.p1 ≤ w.mImageRect.bottom
  topRight : 0 ≤ w.mPoints.p2 ∧ w.mPoints.p2 ≤ w.mImageRect.right ∧
    0 ≤ w.mPoints.p3 ∧ w.mPoints.p3 ≤ w.mImageRect.bottom
  bottomRight : 0 ≤ w.mPoints.p4 ∧ w.mPoints.p4 ≤ w.mImageRect.right ∧
    0 ≤ w.mPoints.p5 ∧ w.mPoints.p5 ≤ w.mImageRect.bottom
  bottomLeft : 0 ≤ w.mPoints.p6 ∧ w.mPoints.p6 ≤ w.mImageRect.right ∧
    0 ≤ w.mPoints.p7 ∧ w.mPoints.p7 ≤ w.mImageRect.bottom
  leftGap : w.mPoints.p0 + 50 ≤ w.mPoints.p2 ∧ w.mPoints.p0 + 50 ≤ w.mPoints.p4 ∧
    w.mPoints.p6 + 50 ≤ w.mPoints.p2 ∧ w.mPoints.p6 + 50 ≤ w.mPoints.p4
  topGap : w.mPoints.p1 + 50 ≤ w.mPoints.p5 ∧ w.mPoints.p1 + 50 ≤ w.mPoints.p7 ∧
    w.mPoints.p3 + 50 ≤ w.mPoints.p5 ∧ w.mPoints.p3 + 50 ≤ w.mPoints.p7

/-- The frame, axis by axis: the picture begins at zero, and both axes of the
window are in order. -/
theorem framed_iff (w : CropWindow) :
    Framed w ↔ (w.mImageRect.left = 0 ∧ w.mImageRect.top = 0) ∧
      AxisOk w.mImageRect.right w.mPoints.xAxis ∧
      AxisOk w.mImageRect.bottom w.mPoints.yAxis := by
  constructor
  · intro ⟨himage, htl, htr, hbr, hbl, ⟨h1, h2, h3, h4⟩, h5, h6, h7, h8⟩
    exact ⟨himage, ⟨⟨htl.1, hbl.1⟩, ⟨htr.2.1, hbr.2.1⟩, ⟨h1, h2⟩, h3, h4⟩,
      ⟨⟨htl.2.2.1, htr.2.2.1⟩, ⟨hbl.2.2.2, hbr.2.2.2⟩, ⟨h6, h5⟩, h8, h7⟩⟩
  · intro ⟨himage, ⟨⟨h1, h2⟩, ⟨h3, h4⟩, ⟨h5, h6⟩, h7, h8⟩,
      ⟨⟨k1, k2⟩, ⟨k3, k4⟩, ⟨k5, k6⟩, k7, k8⟩⟩
    simp only [Points.xAxis, Points.yAxis] at *
    refine ⟨himage, ?_, ?_, ?_, ?_, ⟨h5, h6, h7, h8⟩, k6, k5, k8, k7⟩ <;>
      refine ⟨?_, ?_, ?_, ?_⟩ <;> linarith

/-- A capped motion does not take the near edge below 0. -/
theorem capShift_nonneg {imageFar near far : Int} (hfar : far ≤ imageFar) (hnear : 0 ≤ near)
    (d : ℚ) : 0 ≤ near + capShift 0 imageFar d near far := by
  have hfarQ : (far : ℚ) ≤ imageFar := by exact_mod_cast hfar
  have hnearQ : (0 : ℚ) ≤ near := by exact_mod_cast hnear
  unfold capShift
  split_ifs with h h'
  · linarith
  · push_cast
    linarith
  · push_cast at h'
    linarith

/-- Neither does it take a low coordinate there: the truncated near edge is not
beyond it. -/
theorem low_add_capShift_nonneg {size : Int} {x : Axis} (h : AxisIn size x) (d : ℚ) :
    0 ≤ x.low + capShift 0 size d (toInt (min x.low x.low')) (toInt (max x.high x.high')) ∧
    0 ≤ x.low' + capShift 0 size d (toInt (min x.low x.low')) (toInt (max x.high x.high')) := by
  have hnear : 0 ≤ min x.low x.low' := le_min h.low_nonneg.1 h.low_nonneg.2
  have hfar : 0 ≤ max x.high x.high' := by
    linarith [le_max_left x.high x.high', h.lt.1, h.low_nonneg.1]
  have hsize : toInt (max x.high x.high') ≤ size := by
    have hcast := (toInt_le hfar).trans (max_le h.high_le.1 h.high_le.2)
    exact_mod_cast hcast
  have hshift := capShift_nonneg hsize (toInt_nonneg hnear) d
  have hle := toInt_le hnear
  exact ⟨by linarith [min_le_left x.low x.low'], by linarith [min_le_right x.low x.low']⟩

/-- A coordinate inside the far edge stays there after a capped motion exactly
when it was inside the truncated far side of the window, or the motion itself
leaves it inside. -/
theorem add_capShift_le_far_iff {imageFar near : Int} {v : ℚ} (hv : v ≤ imageFar)
    (hnear : 0 ≤ near) (far : Int) (d : ℚ) :
    v + capShift 0 imageFar d near far ≤ imageFar ↔ v ≤ far ∨ v + d ≤ imageFar := by
  have hnearQ : (0 : ℚ) ≤ near := by exact_mod_cast hnear
  unfold capShift
  split_ifs with h h'
  · constructor
    · intro hle
      left
      linarith
    · rintro (hle | hle) <;> linarith
  · push_cast at h' ⊢
    constructor
    · intro _
      right
      linarith
    · intro _
      linarith
  · constructor
    · intro hle
      right
      exact hle
    · rintro (hle | hle) <;> linarith

/-- So for the room of 50 a low coordinate needs. -/
theorem add_capShift_le_iff {imageFar near : Int} {low : ℚ} (hlow : low + 50 ≤ imageFar)
    (hnear : 0 ≤ near) (far : Int) (d : ℚ) :
    low + capShift 0 imageFar d near far + 50 ≤ imageFar ↔
      low + 50 ≤ far ∨ low + d + 50 ≤ imageFar := by
  rw [add_right_comm, add_right_comm low d]
  exact add_capShift_le_far_iff hlow hnear far d

/-- When a motion keeps the frame.  Dragging an edge moves its two corners
across as well, and each must stay 50 clear of the opposite corner.  A move
stops where the truncated far side of the window meets the border: the near
corners must be 50 away from that, or the motion must be a shorter one. -/
def MotionOk (w : CropWindow) (edge : Nat) (dx dy : ℚ) : Prop :=
  let p := w.mPoints
  let boundingRect := getBoundingRect p
  (edge = growLeftEdge → p.p1 + dy + 50 ≤ p.p5 ∧ p.p3 + 50 ≤ p.p7 + dy) ∧
  (edge = growRightEdge → p.p3 + dy + 50 ≤ p.p7 ∧ p.p1 + 50 ≤ p.p5 + dy) ∧
  (edge = growTopEdge → p.p0 + dx + 50 ≤ p.p4 ∧ p.p6 + 50 ≤ p.p2 + dx) ∧
  (edge = growBottomEdge → p.p6 + dx + 50 ≤ p.p2 ∧ p.p0 + 50 ≤ p.p4 + dx) ∧
  (edge = move →
    (max p.p0 p.p6 + 50 ≤ boundingRect.right ∨ max p.p0 p.p6 + dx + 50 ≤ w.mImageRect.right) ∧
    (max p.p1 p.p3 + 50 ≤ boundingRect.bottom ∨ max p.p1 p.p3 + dy + 50 ≤ w.mImageRect.bottom))

instance (w : CropWindow) (edge : Nat) (dx dy : ℚ) : Decidable (MotionOk w edge dx dy) :=
  inferInstanceAs (Decidable ((_ → _ ∧ _) ∧ (_ → _ ∧ _) ∧ (_ → _ ∧ _) ∧ (_ → _ ∧ _) ∧
    (_ → (_ ∨ _) ∧ (_ ∨ _))))

/-- Capping a framed window changes nothing. -/
theorem capPoints_framed {w : CropWindow} (h : Framed w) (edge : Nat) :
    Framed (capPoints w edge) := by
  obtain ⟨himage, hx, hy⟩ := (framed_iff w).mp h
  rw [framed_iff, capPoints_xAxis, capPoints_yAxis, hx.capAxis_eq, hy.capAxis_eq]
  exact ⟨himage, hx, hy⟩

/-- Dragging a corner keeps the frame: both sides that meet in it are capped. -/
theorem framed_corner {w : CropWindow} (h : Framed w) {edge : Nat} (dx dy : ℚ)
    (hedge : edge = growLeftEdge ||| growTopEdge ∨ edge = growRightEdge ||| growTopEdge ∨
      edge = growRightEdge ||| growBottomEdge ∨ edge = growLeftEdge ||| growBottomEdge) :
    Framed (handleMotion w edge dx dy) := by
  obtain ⟨himage, hx, hy⟩ := (framed_iff w).mp h
  rcases hedge with rfl | rfl | rfl | rfl
  · change Framed (capPoints { w with mPoints := w.mPoints.addTopLeft dx dy } _)
    rw [framed_iff, capPoints_xAxis, capPoints_yAxis]
    exact ⟨himage, hx.cap_low (by decide) (by decide) _ _,
      hy.cap_low (by decide) (by decide) _ _⟩
  · change Framed (capPoints { w with mPoints := w.mPoints.addTopRight dx dy } _)
    rw [framed_iff, capPoints_xAxis, capPoints_yAxis]
    exact ⟨himage, hx.cap_high (by decide) (by decide) _ _,
      hy.cap_low (by decide) (by decide) _ _⟩
  · change Framed (capPoints { w with mPoints := w.mPoints.addBottomRight dx dy } _)
    rw [framed_iff, capPoints_xAxis, capPoints_yAxis]
    exact ⟨himage, hx.cap_high (by decide) (by decide) _ _,
      hy.cap_high (by decide) (by decide) _ _⟩
  · change Framed (capPoints { w with mPoints := w.mPoints.addBottomLeft dx dy } _)
    rw [framed_iff, capPoints_xAxis, capPoints_yAxis]
    exact ⟨himage, hx.cap_low (by decide) (by decide) _ _,
      hy.cap_high (by decide) (by decide) _ _⟩

/-- Dragging the left edge: `x` is capped, `y` is not. -/
theorem framed_leftEdge_iff {w : CropWindow} (h : Framed w) (dx dy : ℚ) :
    Framed (handleMotion w growLeftEdge dx dy) ↔
      w.mPoints.p1 + dy + 50 ≤ w.mPoints.p5 ∧ w.mPoints.p3 + 50 ≤ w.mPoints.p7 + dy := by
  obtain ⟨himage, hx, hy⟩ := (framed_iff w).mp h
  change Framed (capPoints
    { w with mPoints := (w.mPoints.addTopLeft dx dy).addBottomLeft dx dy } _) ↔ _
  rw [framed_iff, capPoints_xAxis, capPoints_yAxis]
  refine (and_iff_right himage).trans ?_
  refine (and_iff_right (hx.cap_low (by decide) (by decide) _ _)).trans ?_
  exact hy.shift_first_iff (by decide) (by decide) dy

/-- Dragging the right edge. -/
theorem framed_rightEdge_iff {w : CropWindow} (h : Framed w) (dx dy : ℚ) :
    Framed (handleMotion w growRightEdge dx dy) ↔
      w.mPoints.p3 + dy + 50 ≤ w.mPoints.p7 ∧ w.mPoints.p1 + 50 ≤ w.mPoints.p5 + dy := by
  obtain ⟨himage, hx, hy⟩ := (framed_iff w).mp h
  change Framed (capPoints
    { w with mPoints := (w.mPoints.addTopRight dx dy).addBottomRight dx dy } _) ↔ _
  rw [framed_iff, capPoints_xAxis, capPoints_yAxis]
  refine (and_iff_right himage).trans ?_
  refine (and_iff_right (hx.cap_high (by decide) (by decide) _ _)).trans ?_
  exact hy.shift_second_iff (by decide) (by decide) dy

/-- Dragging the top edge: `y` is capped, `x` is not. -/
theorem framed_topEdge_iff {w : CropWindow} (h : Framed w) (dx dy : ℚ) :
    Framed (handleMotion w growTopEdge dx dy) ↔
      w.mPoints.p0 + dx + 50 ≤ w.mPoints.p4 ∧ w.mPoints.p6 + 50 ≤ w.mPoints.p2 + dx := by
  obtain ⟨himage, hx, hy⟩ := (framed_iff w).mp h
  change Framed (capPoints
    { w with mPoints := (w.mPoints.addTopLeft dx dy).addTopRight dx dy } _) ↔ _
  rw [framed_iff, capPoints_xAxis, capPoints_yAxis]
  refine (and_iff_right himage).trans ?_
  refine (and_iff_left (hy.cap_low (by decide) (by decide) _ _)).trans ?_
  exact hx.shift_first_iff (by decide) (by decide) dx

/-- Dragging the bottom edge. -/
theorem framed_bottomEdge_iff {w : CropWindow} (h : Framed w) (dx dy : ℚ) :
    Framed (handleMotion w growBottomEdge dx dy) ↔
      w.mPoints.p6 + dx + 50 ≤ w.mPoints.p2 ∧ w.mPoints.p0 + 50 ≤ w.mPoints.p4 + dx := by
  obtain ⟨himage, hx, hy⟩ := (framed_iff w).mp h
  change Framed (capPoints
    { w with mPoints := (w.mPoints.addBottomRight dx dy).addBottomLeft dx dy } _) ↔ _
  rw [framed_iff, capPoints_xAxis, capPoints_yAxis]
  refine (and_iff_right himage).trans ?_
  refine (and_iff_left (hy.cap_high (by decide) (by decide) _ _)).trans ?_
  exact hx.shift_second_iff (by decide) (by decide) dx

/-- Moving the window: no side is capped.  On each axis it is the window's own
far side, or after the motion the picture's, that must be fifty units beyond
its near corners. -/
theorem framed_move_iff {w : CropWindow} (h : Framed w) (dx dy : ℚ) :
    Framed (handleMotion w move dx dy) ↔
      (max w.mPoints.p0 w.mPoints.p6 + 50 ≤ (getBoundingRect w.mPoints).right ∨
        max w.mPoints.p0 w.mPoints.p6 + dx + 50 ≤ w.mImageRect.right) ∧
      (max w.mPoints.p1 w.mPoints.p3 + 50 ≤ (getBoundingRect w.mPoints).bottom ∨
        max w.mPoints.p1 w.mPoints.p3 + dy + 50 ≤ w.mImageRect.bottom) := by
  obtain ⟨himage, hx, hy⟩ := (framed_iff w).mp h
  have hlowX := low_add_capShift_nonneg hx.axisIn dx
  have hlowY := low_add_capShift_nonneg hy.axisIn dy
  rw [max_comm] at hlowY
  have hnearX := toInt_nonneg (le_min hx.low_nonneg.1 hx.low_nonneg.2)
  have hnearY := toInt_nonneg (le_min hy.low_nonneg.1 hy.low_nonneg.2)
  have hroomX := add_capShift_le_iff hx.max_low_le hnearX
    (toInt (max w.mPoints.p2 w.mPoints.p4)) dx
  have hroomY := add_capShift_le_iff hy.max_low_le hnearY
    (toInt (max w.mPoints.p5 w.mPoints.p7)) dy
  rw [← himage.1] at hlowX hroomX
  rw [← himage.2] at hlowY hroomY
  rw [show (getBoundingRect w.mPoints).right = toInt (max w.mPoints.p2 w.mPoints.p4) from rfl,
    show (getBoundingRect w.mPoints).bottom = toInt (max w.mPoints.p5 w.mPoints.p7) from rfl]
  refine Iff.trans ?_ (and_congr hroomX hroomY)
  change Framed (moveBy w dx dy) ↔ _
  unfold moveBy
  simp only
  rw [framed_iff, capPoints_xAxis, capPoints_yAxis]
  refine (and_iff_right himage).trans (and_congr ?_ ?_)
  · exact hx.shift_all_iff (by decide) (by decide) hlowX.1 hlowX.2
  · exact hy.shift_all_iff (by decide) (by decide) hlowY.1 hlowY.2

/-- Any other code -- none, or several opposite edges at once -- moves
nothing. -/
theorem framed_other {w : CropWindow} (h : Framed w) {edge : Nat} (dx dy : ℚ)
    (hcorner : ¬ (edge = growLeftEdge ||| growTopEdge ∨ edge = growRightEdge ||| growTopEdge ∨
      edge = growRightEdge ||| growBottomEdge ∨ edge = growLeftEdge ||| growBottomEdge))
    (hleft : edge ≠ growLeftEdge) (hright : edge ≠ growRightEdge)
    (htop : edge ≠ growTopEdge) (hbottom : edge ≠ growBottomEdge) (hmove : edge ≠ move) :
    Framed (handleMotion w edge dx dy) := by
  have hgrow : growBy w edge dx dy = capPoints w edge := by
    simp only [not_or] at hcorner
    simp only [growBy, Ne.symm hcorner.1, Ne.symm hcorner.2.1, Ne.symm hcorner.2.2.1,
      Ne.symm hcorner.2.2.2, hleft.symm, hright.symm, htop.symm, hbottom.symm, if_false]
  unfold handleMotion
  rw [if_neg hmove, hgrow]
  split_ifs
  · exact h
  · exact capPoints_framed h edge

/-- **One drag.**  A motion from a framed window ends in a framed window
exactly when it meets `MotionOk`.  Both sides are taken apart by the edge that
is dragged and then along each axis. -/
theorem framed_handleMotion_iff {w : CropWindow} (h : Framed w) (edge : Nat) (dx dy : ℚ) :
    Framed (handleMotion w edge dx dy) ↔ MotionOk w edge dx dy := by
  unfold MotionOk
  by_cases hleft : edge = growLeftEdge
  · subst hleft
    rw [framed_leftEdge_iff h]
    simp [growLeftEdge, growRightEdge, growTopEdge, growBottomEdge, move]
  by_cases hright : edge = growRightEdge
  · subst hright
    rw [framed_rightEdge_iff h]
    simp [growLeftEdge, growRightEdge, growTopEdge, growBottomEdge, move]
  by_cases htop : edge = growTopEdge
  · subst htop
    rw [framed_topEdge_iff h]
    simp [growLeftEdge, growRightEdge, growTopEdge, growBottomEdge, move]
  by_cases hbottom : edge = growBottomEdge
  · subst hbottom
    rw [framed_bottomEdge_iff h]
    simp [growLeftEdge, growRightEdge, growTopEdge, growBottomEdge, move]
  by_cases hmove : edge = move
  · subst hmove
    rw [framed_move_iff h]
    simp [growLeftEdge, growRightEdge, growTopEdge, growBottomEdge, move]
  have hkept : Framed (handleMotion w edge dx dy) := by
    by_cases hcorner : edge = growLeftEdge ||| growTopEdge ∨ edge = growRightEdge ||| growTopEdge ∨
      edge = growRightEdge ||| growBottomEdge ∨ edge = growLeftEdge ||| growBottomEdge
    · exact framed_corner h dx dy hcorner
    · exact framed_other h dx dy hcorner hleft hright htop hbottom hmove
  simp [hkept, hleft, hright, htop, hbottom, hmove]

/-! ## Gestures -/

/-- One `handleMotion` call of a gesture. -/
structure Motion where
  edge : Nat
  dx : ℚ
  dy : ℚ
  deriving DecidableEq, Repr

/-- The window after a call. -/
def motionStep (w : CropWindow) (m : Motion) (w' : CropWindow) : Prop :=
  w' = handleMotion w m.edge m.dx m.dy

/-- **Whole gestures.**  In every sequence of drags each of which meets
`MotionOk` where it starts, every window reached is framed.  By induction on
the drags, with `framed_handleMotion_iff` for each. -/
theorem framed_of_gesture {w w' : CropWindow} (h : Framed w)
    (hrun : Relation.ReflTransGen
      (GuardedStep motionStep fun w m => MotionOk w m.edge m.dx m.dy) w w') :
    Framed w' := by
  refine invariant_of_steps (P := Framed) ?_ hrun h
  rintro u v hu ⟨m, hok, rfl⟩
  exact (framed_handleMotion_iff hu m.edge m.dx m.dy).mpr hok

/-- A rectangle with its corners at `(100, 100)` and `(300, 300)` in a 400 by
400 image. -/
def squareWindow : CropWindow where
  mPoints := ⟨100, 100, 300, 100, 300, 300, 100, 300⟩
  mImageRect := ⟨0, 0, 400, 400⟩

/-- The selection of the counterexample is a frame before it is dragged. -/
theorem framed_squareWindow : Framed squareWindow := by
  constructor <;> simp only [squareWindow] <;> norm_num

/-- Moving the square and then dragging its left edge a little. -/
theorem framed_of_gesture_square : Framed squareWindow ∧
    Framed (handleMotion (handleMotion squareWindow move 20 500) growLeftEdge (-30) 10) := by
  refine ⟨framed_squareWindow, framed_of_gesture framed_squareWindow
    ((Relation.ReflTransGen.single ⟨⟨move, 20, 500⟩, ?_, rfl⟩).tail
      ⟨⟨growLeftEdge, -30, 10⟩, ?_, rfl⟩)⟩
  · change MotionOk squareWindow move 20 500
    decide +kernel
  · change MotionOk (handleMotion squareWindow move 20 500) growLeftEdge (-30) 10
    decide +kernel

/-- The edge codes `getHit` can return: a corner, a set of edges, the inside or
nothing. -/
def HitCode (edge : Nat) : Prop :=
  edge = move ∨ ∃ left right top bottom : Bool,
    edge = (if left then growLeftEdge else growNone) ||| (if right then growRightEdge else growNone)
      ||| (if top then growTopEdge else growNone) ||| (if bottom then growBottomEdge else growNone)

/-- Dragging the left edge downwards takes its upper corner out of the image. -/
theorem not_framed_of_leftEdge : ¬ ∀ (w w' : CropWindow), Framed w →
    Relation.ReflTransGen (GuardedStep motionStep fun _ m => HitCode m.edge) w w' →
    Framed w' := by
  intro h
  have hout := h squareWindow (handleMotion squareWindow growLeftEdge 0 1000) framed_squareWindow
    (Relation.ReflTransGen.single ⟨⟨growLeftEdge, 0, 1000⟩,
      Or.inr ⟨true, false, false, false, rfl⟩, rfl⟩)
  have hbelow : ¬ (handleMotion squareWindow growLeftEdge 0 1000).mPoints.p1 ≤ 400 := by
    decide +kernel
  exact hbelow hout.topLeft.2.2.2

end CardScanner
