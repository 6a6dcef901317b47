import CardScanner.CropWindow
import CardScanner.Plane

/-!
# Touching the crop window

`getHit` says what a touch at a point begins: the drag of a corner, of one or
more edges, of the whole window, or nothing.  A touch near no corner is near an
edge when it is near the edge's line and one of its coordinates lies between
those of the edge's ends; else it is on the window unless one of four
comparisons finds it beside the line of an edge.

Distances are squared.  From a point inside, the way to the foot on an edge's
line meets the outline, so a point far from the outline is far from the lines
(`Turns.line_far`) and none of the comparisons holds: the whole window is
dragged.  Outside neither is so, and the two comparisons for the top and the
bottom edge never hold for a slanted edge, whose crossing is computed at the
touch's own height (`calculateYCrossing_eq`).
-/

namespace CardScanner

open Plane

/-! ## The test -/

/-- `calculateDistanceToPoint`, squared. -/
def calculateDistanceToPoint (x1 y1 x y : ℚ) : ℚ := (x - x1) * (x - x1) + (y - y1) * (y - y1)

/-- `getRiseOfLine`: how much a line rises to the right. -/
def getRiseOfLine (x1 y1 x2 y2 : ℚ) : ℚ := (y1 - y2) / (x1 - x2)

/-- Where a line of this rise crosses the vertical axis. -/
def getYCrossingOfLine (x1 y1 mTop : ℚ) : ℚ := y1 - mTop * x1

/-- Where it has the height `y`. -/
def getXOnLine (y mTop nTop : ℚ) : ℚ := (y - nTop) / mTop

/-- `calculateDistanceToLine`, squared; none stands for `Double.MAX_VALUE`. -/
def calculateDistanceToLine (x1 y1 x2 y2 x y : ℚ) : Option ℚ :=
  if (x > x1 ∧ x < x2) ∨ (y > y1 ∧ y < y2) then
    if x1 = x2 then some ((x1 - x) * (x1 - x))
    else
      let mTop := getRiseOfLine x1 y1 x2 y2
      let nTop := getYCrossingOfLine x1 y1 mTop
      if mTop = 0 then some ((nTop - y) * (nTop - y))
      else
        let mCross := -1 / mTop
        let nCross := getYCrossingOfLine x y mCross
        let xCross := (nTop - nCross) / (mCross - mTop)
        let yCross := mCross * xCross + nCross
        some (calculateDistanceToPoint xCross yCross x y)
  else none

/-- The point at the height of the touch on the line through two corners.  A
vertical line has the same abscissa everywhere. -/
def calculateXCrossing (x1 y1 x2 y2 _x y : ℚ) : ℚ :=
  if x1 = x2 then x1
  else
    let mTop := getRiseOfLine x1 y1 x2 y2
    let nTop := getYCrossingOfLine x1 y1 mTop
    getXOnLine y mTop nTop

/-- Meant for the point of the line above or below the touch.  But it is given
the height of the touch, and computes from it an abscissa and then that height
again. -/
def calculateYCrossing (x1 y1 x2 y2 _x y : ℚ) : ℚ :=
  if y1 = y2 then y1
  else
    let mTop := getRiseOfLine x1 y1 x2 y2
    let nTop := getYCrossingOfLine x1 y1 mTop
    let xCross := getXOnLine y mTop nTop
    mTop * xCross + nTop

/-- A distance is at most the hysteresis, from its square. -/
def atMost (hysteresis squared : ℚ) : Bool := 0 ≤ hysteresis && squared ≤ hysteresis * hysteresis

/-- `retval` after the tests of the edges. -/
def touchedEdges (top right bottom left : Bool) : Nat :=
  let retval := growNone
  let retval := if top then retval ||| growTopEdge else retval
  let retval := if right then retval ||| growRightEdge else retval
  let retval := if bottom then retval ||| growBottomEdge else retval
  if left then retval ||| growLeftEdge else retval

/-- `getHit`: the corners are tried first, then the edges; if nothing is near,
four comparisons tell whether the touch is outside. -/
def getHit (p : Points) (x y hysteresis : ℚ) : Nat :=
  if atMost hysteresis (calculateDistanceToPoint p.p0 p.p1 x y) then growLeftEdge ||| growTopEdge
  else if atMost hysteresis (calculateDistanceToPoint p.p2 p.p3 x y) then
    growRightEdge ||| growTopEdge
  else if atMost hysteresis (calculateDistanceToPoint p.p4 p.p5 x y) then
    growRightEdge ||| growBottomEdge
  else if atMost hysteresis (calculateDistanceToPoint p.p6 p.p7 x y) then
    growLeftEdge ||| growBottomEdge
  else
    let topDistance := calculateDistanceToLine p.p0 p.p1 p.p2 p.p3 x y
    let rightDistance := calculateDistanceToLine p.p2 p.p3 p.p4 p.p5 x y
    let bottomDistance := calculateDistanceToLine p.p6 p.p7 p.p4 p.p5 x y
    let leftDistance := calculateDistanceToLine p.p0 p.p1 p.p6 p.p7 x y
    let retval := touchedEdges (topDistance.any (atMost hysteresis))
      (rightDistance.any (atMost hysteresis)) (bottomDistance.any (atMost hysteresis))
      (leftDistance.any (atMost hysteresis))
    if retval = growNone then
      if calculateXCrossing p.p2 p.p3 p.p4 p.p5 x y < x - hysteresis then retval
      else if calculateXCrossing p.p0 p.p1 p.p6 p.p7 x y > x + hysteresis then retval
      else if calculateYCrossing p.p0 p.p1 p.p2 p.p3 x y > y + hysteresis then retval
      else if calculateYCrossing p.p4 p.p5 p.p6 p.p7 x y < y - hysteresis then retval
      else move
    else retval

/-! ## The drawn outline -/

def Points.topLeft (p : Points) : Point ℚ := ⟨p.p0, p.p1⟩

def Points.topRight (p : Points) : Point ℚ := ⟨p.p2, p.p3⟩

def Points.bottomRight (p : Points) : Point ℚ := ⟨p.p4, p.p5⟩

def Points.bottomLeft (p : Points) : Point ℚ := ⟨p.p6, p.p7⟩

/-- A convex outline, its left corners to the left of its right ones and its
top corners above its bottom ones. -/
structure Trapezoid (p : Points) : Prop where
  convex : Convex p.topLeft p.topRight p.bottomRight p.bottomLeft
  left_right : p.p0 < p.p2 ∧ p.p0 < p.p4 ∧ p.p6 < p.p2 ∧ p.p6 < p.p4
  top_bottom : p.p1 < p.p5 ∧ p.p1 < p.p7 ∧ p.p3 < p.p5 ∧ p.p3 < p.p7

/-- The touch is farther than the hysteresis from every edge. -/
def FarFromEdges (p : Points) (hysteresis : ℚ) (touch : Point ℚ) : Prop :=
  Far p.topLeft p.topRight p.bottomRight p.bottomLeft (hysteresis * hysteresis) touch

/-- Far from the edges, a touch outside begins nothing and one inside moves the
window. -/
def HitMatches (p : Points) (hysteresis : ℚ) (touch : Point ℚ) : Prop :=
  FarFromEdges p hysteresis touch →
    (Outside p.topLeft p.topRight p.bottomRight p.bottomLeft touch →
      getHit p touch.x touch.y hysteresis = growNone) ∧
    (Inside p.topLeft p.topRight p.bottomRight p.bottomLeft touch →
      getHit p touch.x touch.y hysteresis = move)

/-- Near the line through `a` and `b`, with a coordinate between theirs. -/
def NearLine (hysteresis : ℚ) (a b touch : Point ℚ) : Prop :=
  ((a.x < touch.x ∧ touch.x < b.x) ∨ (a.y < touch.y ∧ touch.y < b.y)) ∧
    cross a b touch ^ 2 ≤ hysteresis * hysteresis * dot a b b

/-- So for one of the edges. -/
def NearSomeLine (p : Points) (hysteresis : ℚ) (touch : Point ℚ) : Prop :=
  NearLine hysteresis p.topLeft p.topRight touch ∨
  NearLine hysteresis p.topRight p.bottomRight touch ∨
  NearLine hysteresis p.bottomLeft p.bottomRight touch ∨
  NearLine hysteresis p.topLeft p.bottomLeft touch

/-- Where the line through `a` and `b` is at the height `y`. -/
def lineAt (a b : Point ℚ) (y : ℚ) : ℚ := a.x + (y - a.y) * (b.x - a.x) / (b.y - a.y)

/-- More than the hysteresis to the right of the right edge's line, to the left
of the left edge's, above a level top edge or below a level bottom edge. -/
def Beside (p : Points) (hysteresis : ℚ) (touch : Point ℚ) : Prop :=
  lineAt p.topRight p.bottomRight touch.y + hysteresis < touch.x ∨
  touch.x + hysteresis < lineAt p.topLeft p.bottomLeft touch.y ∨
  (p.topLeft.y = p.topRight.y ∧ touch.y + hysteresis < p.topLeft.y) ∨
  (p.bottomRight.y = p.bottomLeft.y ∧ p.bottomRight.y + hysteresis < touch.y)

/-! ## What the test computes -/

/-- A line that is neither level nor vertical has a rise, so its height can be
solved for. -/
theorem getRiseOfLine_ne {x1 y1 x2 y2 : ℚ} (hx : x1 ≠ x2) (hy : y1 ≠ y2) :
    getRiseOfLine x1 y1 x2 y2 ≠ 0 :=
  div_ne_zero (sub_ne_zero.mpr hy) (sub_ne_zero.mpr hx)

/-- The foot on a slanted line, from its slope and its value at zero. -/
theorem slopeDistance_eq {m : ℚ} (hm : m ≠ 0) (n x y : ℚ) :
    calculateDistanceToPoint ((n - getYCrossingOfLine x y (-1 / m)) / (-1 / m - m))
        (-1 / m * ((n - getYCrossingOfLine x y (-1 / m)) / (-1 / m - m)) +
          getYCrossingOfLine x y (-1 / m)) x y =
      (n + m * x - y) ^ 2 / (1 + m ^ 2) := by
  have hpos : 1 + m ^ 2 ≠ 0 := by positivity
  have hslope : -1 / m - m = -(1 + m ^ 2) / m := by
    field_simp
    ring
  have hx : (n - getYCrossingOfLine x y (-1 / m)) / (-1 / m - m) =
      x - m * (n + m * x - y) / (1 + m ^ 2) := by
    rw [hslope, getYCrossingOfLine]
    field_simp
    ring
  rw [hx, getYCrossingOfLine, calculateDistanceToPoint]
  field_simp
  ring

/-- The formulas for the three kinds of line all give the squared distance. -/
theorem calculateDistanceToLine_eq {a b : Point ℚ} (hab : dot a b b ≠ 0) (touch : Point ℚ) :
    calculateDistanceToLine a.x a.y b.x b.y touch.x touch.y =
      if (a.x < touch.x ∧ touch.x < b.x) ∨ (a.y < touch.y ∧ touch.y < b.y) then
        some (cross a b touch ^ 2 / dot a b b)
      else none := by
  unfold calculateDistanceToLine
  by_cases hrange : (a.x < touch.x ∧ touch.x < b.x) ∨ (a.y < touch.y ∧ touch.y < b.y)
  · rw [if_pos hrange, if_pos hrange]
    by_cases hx : a.x = b.x
    · rw [if_pos hx, Option.some_inj, eq_div_iff hab]
      unfold dot cross
      rw [hx]
      ring
    · rw [if_neg hx]
      by_cases hy : a.y = b.y
      · have hrise : getRiseOfLine a.x a.y b.x b.y = 0 := by
          rw [getRiseOfLine, hy, sub_self, zero_div]
        simp only [hrise, if_true, getYCrossingOfLine, zero_mul, sub_zero]
        rw [Option.some_inj, eq_div_iff hab]
        unfold dot cross
        rw [hy]
        ring
      · simp only [getRiseOfLine_ne hx hy, if_false]
        rw [slopeDistance_eq (getRiseOfLine_ne hx hy), Option.some_inj]
        have hrun : a.x - b.x ≠ 0 := sub_ne_zero.mpr hx
        have hslope : 1 + getRiseOfLine a.x a.y b.x b.y ^ 2 = dot a b b / (a.x - b.x) ^ 2 := by
          unfold getRiseOfLine dot
          field_simp
          ring
        have hline : getYCrossingOfLine a.x a.y (getRiseOfLine a.x a.y b.x b.y) +
            getRiseOfLine a.x a.y b.x b.y * touch.x - touch.y =
              cross a b touch / (a.x - b.x) := by
          unfold getYCrossingOfLine getRiseOfLine cross
          field_simp
          ring
        rw [hslope, hline]
        field_simp
  · rw [if_neg hrange, if_neg hrange]

/-- Whether a distance is within the hysteresis, by its square: no root has to
be taken. -/
theorem atMost_iff {hysteresis : ℚ} (hpos : 0 < hysteresis) (squared : ℚ) :
    atMost hysteresis squared = true ↔ squared ≤ hysteresis * hysteresis := by
  unfold atMost
  rw [Bool.and_eq_true, decide_eq_true_eq, decide_eq_true_eq]
  exact and_iff_right hpos.le

/-- The test of an edge. -/
theorem near_iff {a b : Point ℚ} (hab : 0 < dot a b b) {hysteresis : ℚ} (hpos : 0 < hysteresis)
    (touch : Point ℚ) :
    (calculateDistanceToLine a.x a.y b.x b.y touch.x touch.y).any (atMost hysteresis) = true ↔
      NearLine hysteresis a b touch := by
  rw [calculateDistanceToLine_eq hab.ne']
  unfold NearLine
  by_cases hrange : (a.x < touch.x ∧ touch.x < b.x) ∨ (a.y < touch.y ∧ touch.y < b.y)
  · rw [if_pos hrange, Option.any_some, atMost_iff hpos, div_le_iff₀ hab]
    exact (and_iff_right hrange).symm
  · rw [if_neg hrange]
    exact iff_of_false Bool.false_ne_true fun h => hrange h.1

/-- The crossing is the point of the line at that height, whichever branch
computes it. -/
theorem calculateXCrossing_eq {a b : Point ℚ} (hy : a.y ≠ b.y) (x y : ℚ) :
    calculateXCrossing a.x a.y b.x b.y x y = lineAt a b y := by
  have hrise : b.y - a.y ≠ 0 := sub_ne_zero.mpr hy.symm
  unfold calculateXCrossing lineAt
  by_cases hx : a.x = b.x
  · rw [if_pos hx, hx, sub_self, mul_zero, zero_div, add_zero]
  · have hrun : a.x - b.x ≠ 0 := sub_ne_zero.mpr hx
    have hrise' : a.y - b.y ≠ 0 := sub_ne_zero.mpr hy
    rw [if_neg hx]
    unfold getXOnLine getYCrossingOfLine getRiseOfLine
    field_simp
    ring

/-- The crossing with the vertical through the touch is taken at the touch's
own height, unless the edge is level. -/
theorem calculateYCrossing_eq {a b : Point ℚ} (hx : a.x ≠ b.x) (x y : ℚ) :
    calculateYCrossing a.x a.y b.x b.y x y = if a.y = b.y then a.y else y := by
  unfold calculateYCrossing
  by_cases hy : a.y = b.y
  · rw [if_pos hy, if_pos hy]
  · have hrise := getRiseOfLine_ne hx hy
    rw [if_neg hy, if_neg hy]
    simp only [getXOnLine]
    rw [mul_div_cancel₀ _ hrise, sub_add_cancel]

theorem touchedEdges_eq_growNone_iff (top right bottom left : Bool) :
    touchedEdges top right bottom left = growNone ↔
      ¬ (top = true ∨ right = true ∨ bottom = true ∨ left = true) := by
  revert top right bottom left
  decide

/-- Touched edges never add up to the value that stands for moving. -/
theorem touchedEdges_ne_move (top right bottom left : Bool) :
    touchedEdges top right bottom left ≠ move := by
  revert top right bottom left
  decide

/-! ## The drawn outline -/

section Outline

variable {p : Points} {hysteresis : ℚ} {touch : Point ℚ}

/-- The order of the corners says which way the outline turns, the same at all
four. -/
theorem Trapezoid.turns (h : Trapezoid p) :
    Turns p.topLeft p.topRight p.bottomRight p.bottomLeft := by
  rcases h.convex with hturns | hturns
  · exact hturns
  · exfalso
    have harea : cross p.bottomLeft p.bottomRight p.topRight +
          cross p.topRight p.topLeft p.bottomLeft =
        -((p.p4 - p.p0) * (p.p7 - p.p3) + (p.p5 - p.p1) * (p.p2 - p.p6)) := by
      unfold cross Points.topLeft Points.topRight Points.bottomLeft Points.bottomRight
      ring
    have hfirst : 0 < (p.p4 - p.p0) * (p.p7 - p.p3) :=
      mul_pos (by linarith [h.left_right.2.1]) (by linarith [h.top_bottom.2.2.2])
    have hsecond : 0 < (p.p5 - p.p1) * (p.p2 - p.p6) :=
      mul_pos (by linarith [h.top_bottom.1]) (by linarith [h.left_right.2.2.1])
    have hpositive := add_pos hturns.abc hturns.cda
    linarith

/-- Far from the edges is far from the corners, which are on the edges: none
of the four tests for a corner succeeds. -/
theorem FarFromEdges.corners (h : FarFromEdges p hysteresis touch) (hpos : 0 < hysteresis) :
    atMost hysteresis (calculateDistanceToPoint p.p0 p.p1 touch.x touch.y) = false ∧
    atMost hysteresis (calculateDistanceToPoint p.p2 p.p3 touch.x touch.y) = false ∧
    atMost hysteresis (calculateDistanceToPoint p.p4 p.p5 touch.x touch.y) = false ∧
    atMost hysteresis (calculateDistanceToPoint p.p6 p.p7 touch.x touch.y) = false := by
  have hcorner : ∀ q : Point ℚ, OnOutline p.topLeft p.topRight p.bottomRight p.bottomLeft q →
      atMost hysteresis (calculateDistanceToPoint q.x q.y touch.x touch.y) = false := by
    intro q hq
    have hfar := h q hq
    rw [Bool.eq_false_iff, Ne, atMost_iff hpos, not_le]
    refine hfar.trans_eq ?_
    unfold dot calculateDistanceToPoint
    ring
  refine ⟨hcorner p.topLeft ?_, hcorner p.topRight ?_, hcorner p.bottomRight ?_,
    hcorner p.bottomLeft ?_⟩
  · exact Or.inl (onSegment_left _ _)
  · exact Or.inr (Or.inl (onSegment_left _ _))
  · exact Or.inr (Or.inr (Or.inl (onSegment_left _ _)))
  · exact Or.inr (Or.inr (Or.inr (onSegment_left _ _)))

/-- The sides have a length, so there is a distance to the line of each. -/
theorem Trapezoid.sides (h : Trapezoid p) :
    0 < dot p.topLeft p.topRight p.topRight ∧ 0 < dot p.topRight p.bottomRight p.bottomRight ∧
    0 < dot p.bottomLeft p.bottomRight p.bottomRight ∧
    0 < dot p.topLeft p.bottomLeft p.bottomLeft := by
  have hturns := h.turns
  have hswap : ∀ a b : Point ℚ, dot a b b = dot b a a := by
    intro a b
    unfold dot
    ring
  refine ⟨dot_self_pos_of_cross hturns.abc, dot_self_pos_of_cross hturns.bcd, ?_, ?_⟩
  · rw [hswap]
    exact dot_self_pos_of_cross hturns.cda
  · rw [hswap]
    exact dot_self_pos_of_cross hturns.dab

/-- The edge tests. -/
theorem Trapezoid.touched_iff (h : Trapezoid p) (hpos : 0 < hysteresis) (touch : Point ℚ) :
    touchedEdges
        ((calculateDistanceToLine p.p0 p.p1 p.p2 p.p3 touch.x touch.y).any (atMost hysteresis))
        ((calculateDistanceToLine p.p2 p.p3 p.p4 p.p5 touch.x touch.y).any (atMost hysteresis))
        ((calculateDistanceToLine p.p6 p.p7 p.p4 p.p5 touch.x touch.y).any (atMost hysteresis))
        ((calculateDistanceToLine p.p0 p.p1 p.p6 p.p7 touch.x touch.y).any (atMost hysteresis)) =
      growNone ↔ ¬ NearSomeLine p hysteresis touch := by
  obtain ⟨htop, hright, hbottom, hleft⟩ := h.sides
  rw [touchedEdges_eq_growNone_iff]
  exact not_congr (or_congr (near_iff htop hpos touch) (or_congr (near_iff hright hpos touch)
    (or_congr (near_iff hbottom hpos touch) (near_iff hleft hpos touch))))

/-- The four comparisons.  Those with the upper and the lower edge can hold
only where these are level, since `calculateYCrossing` gives the touch's own
height otherwise. -/
theorem Trapezoid.beside_iff (h : Trapezoid p) (hpos : 0 < hysteresis) (touch : Point ℚ) :
    (calculateXCrossing p.p2 p.p3 p.p4 p.p5 touch.x touch.y < touch.x - hysteresis ∨
      calculateXCrossing p.p0 p.p1 p.p6 p.p7 touch.x touch.y > touch.x + hysteresis ∨
      calculateYCrossing p.p0 p.p1 p.p2 p.p3 touch.x touch.y > touch.y + hysteresis ∨
      calculateYCrossing p.p4 p.p5 p.p6 p.p7 touch.x touch.y < touch.y - hysteresis) ↔
      Beside p hysteresis touch := by
  have hright : calculateXCrossing p.p2 p.p3 p.p4 p.p5 touch.x touch.y =
      lineAt p.topRight p.bottomRight touch.y :=
    calculateXCrossing_eq (a := p.topRight) (b := p.bottomRight) h.top_bottom.2.2.1.ne _ _
  have hleft : calculateXCrossing p.p0 p.p1 p.p6 p.p7 touch.x touch.y =
      lineAt p.topLeft p.bottomLeft touch.y :=
    calculateXCrossing_eq (a := p.topLeft) (b := p.bottomLeft) h.top_bottom.2.1.ne _ _
  have htop : calculateYCrossing p.p0 p.p1 p.p2 p.p3 touch.x touch.y =
      if p.p1 = p.p3 then p.p1 else touch.y :=
    calculateYCrossing_eq (a := p.topLeft) (b := p.topRight) h.left_right.1.ne _ _
  have hbottom : calculateYCrossing p.p4 p.p5 p.p6 p.p7 touch.x touch.y =
      if p.p5 = p.p7 then p.p5 else touch.y :=
    calculateYCrossing_eq (a := p.bottomRight) (b := p.bottomLeft) h.left_right.2.2.2.ne' _ _
  rw [hright, hleft, htop, hbottom]
  refine or_congr lt_sub_iff_add_lt (or_congr Iff.rfl (or_congr ?_ ?_))
  · by_cases hlevel : p.p1 = p.p3
    · rw [if_pos hlevel]
      exact (and_iff_right hlevel).symm
    · rw [if_neg hlevel]
      exact iff_of_false (by linarith) fun h => hlevel h.1
  · by_cases hlevel : p.p5 = p.p7
    · rw [if_pos hlevel, lt_sub_iff_add_lt]
      exact (and_iff_right hlevel).symm
    · rw [if_neg hlevel]
      exact iff_of_false (by linarith) fun h => hlevel h.1

/-- The result of a touch far from the edges: `growNone` or `move`, as the
comparisons say, unless the line of an edge is near beyond its ends. -/
theorem getHit_of_far (h : Trapezoid p) (hpos : 0 < hysteresis)
    (hfar : FarFromEdges p hysteresis touch) :
    (getHit p touch.x touch.y hysteresis = growNone ↔
      ¬ NearSomeLine p hysteresis touch ∧ Beside p hysteresis touch) ∧
    (getHit p touch.x touch.y hysteresis = move ↔
      ¬ NearSomeLine p hysteresis touch ∧ ¬ Beside p hysteresis touch) := by
  obtain ⟨hc0, hc2, hc4, hc6⟩ := hfar.corners hpos
  have htouched := h.touched_iff hpos touch
  have hbeside := h.beside_iff hpos touch
  simp only [getHit, hc0, hc2, hc4, hc6, Bool.false_eq_true, if_false, ← ite_or]
  by_cases hnear : NearSomeLine p hysteresis touch
  · have hretval := mt htouched.mp (not_not.mpr hnear)
    rw [if_neg hretval]
    exact ⟨iff_of_false hretval fun hall => hall.1 hnear,
      iff_of_false (touchedEdges_ne_move _ _ _ _) fun hall => hall.1 hnear⟩
  · have hretval := htouched.mpr hnear
    rw [if_pos hretval, hretval]
    by_cases hout : Beside p hysteresis touch
    · rw [if_pos (hbeside.mpr hout)]
      exact ⟨iff_of_true rfl ⟨hnear, hout⟩, iff_of_false (by decide) fun hall => hall.2 hout⟩
    · rw [if_neg (mt hbeside.mp hout)]
      exact ⟨iff_of_false (by decide) fun hall => hout hall.2, iff_of_true rfl ⟨hnear, hout⟩⟩

/-- On which side of a line that is not level a point lies. -/
theorem lineAt_sub {a b : Point ℚ} (hy : a.y ≠ b.y) (touch : Point ℚ) :
    (lineAt a b touch.y - touch.x) * (b.y - a.y) = cross a b touch := by
  have hrise : b.y - a.y ≠ 0 := sub_ne_zero.mpr hy.symm
  unfold lineAt cross
  field_simp
  ring

/-- Inside and far from the edges, no edge's line is near: the way to it
leaves the window through some edge, which is far already. -/
theorem Trapezoid.not_near (h : Trapezoid p) (hfar : FarFromEdges p hysteresis touch)
    (hin : Inside p.topLeft p.topRight p.bottomRight p.bottomLeft touch) :
    ¬ NearSomeLine p hysteresis touch := by
  have hturns := h.turns
  have hback : ∀ a b : Point ℚ, cross a b touch ^ 2 = cross b a touch ^ 2 ∧
      dot a b b = dot b a a := by
    intro a b
    unfold cross dot
    constructor <;> ring
  have htop := hturns.line_far hin hfar
  have hright := hturns.rotate.line_far hin.rotate hfar.rotate
  have hbottom := hturns.rotate.rotate.line_far hin.rotate.rotate hfar.rotate.rotate
  have hleft := hturns.rotate.rotate.rotate.line_far hin.rotate.rotate.rotate
    hfar.rotate.rotate.rotate
  rw [(hback _ _).1, (hback _ _).2] at hbottom hleft
  rintro (hnear | hnear | hnear | hnear)
  · exact absurd hnear.2 htop.not_ge
  · exact absurd hnear.2 hright.not_ge
  · exact absurd hnear.2 hbottom.not_ge
  · exact absurd hnear.2 hleft.not_ge

/-- Inside, none of the comparisons holds: the touch is between the lines of
the left and the right edge, and not beyond a level top or bottom edge. -/
theorem Trapezoid.not_beside (h : Trapezoid p) (hpos : 0 < hysteresis)
    (hin : Inside p.topLeft p.topRight p.bottomRight p.bottomLeft touch) :
    ¬ Beside p hysteresis touch := by
  have hright : touch.x < lineAt p.topRight p.bottomRight touch.y := by
    have hside := lineAt_sub (a := p.topRight) (b := p.bottomRight) h.top_bottom.2.2.1.ne touch
    have hproduct := hside ▸ hin.bc
    exact sub_pos.mp (pos_of_mul_pos_left hproduct (sub_nonneg.mpr h.top_bottom.2.2.1.le))
  have hleft : lineAt p.topLeft p.bottomLeft touch.y < touch.x := by
    have hside := lineAt_sub (a := p.topLeft) (b := p.bottomLeft) h.top_bottom.2.1.ne touch
    have hproduct : 0 < (touch.x - lineAt p.topLeft p.bottomLeft touch.y) *
        (p.bottomLeft.y - p.topLeft.y) := by
      have hback : cross p.bottomLeft p.topLeft touch = -cross p.topLeft p.bottomLeft touch := by
        unfold cross
        ring
      linarith [hback ▸ hin.da]
    exact sub_pos.mp (pos_of_mul_pos_left hproduct (sub_nonneg.mpr h.top_bottom.2.1.le))
  have htop : p.topLeft.y = p.topRight.y → p.topLeft.y < touch.y := by
    intro hlevel
    have hproduct : 0 < (touch.y - p.topLeft.y) * (p.topRight.x - p.topLeft.x) := by
      have hside := hin.ab
      unfold cross at hside
      rw [hlevel] at hside ⊢
      linarith
    exact sub_pos.mp (pos_of_mul_pos_left hproduct (sub_nonneg.mpr h.left_right.1.le))
  have hbottom : p.bottomRight.y = p.bottomLeft.y → touch.y < p.bottomRight.y := by
    intro hlevel
    have hproduct : 0 < (p.bottomRight.y - touch.y) * (p.bottomRight.x - p.bottomLeft.x) := by
      have hside := hin.cd
      unfold cross at hside
      rw [hlevel] at hside ⊢
      linarith
    exact sub_pos.mp (pos_of_mul_pos_left hproduct (sub_nonneg.mpr h.left_right.2.2.2.le))
  rintro (hbeside | hbeside | hbeside | hbeside)
  · linarith
  · linarith
  · linarith [htop hbeside.1, hbeside.2]
  · linarith [hbottom hbeside.1, hbeside.2]

/-- **When the test matches the drawn outline.**  A touch inside is always
answered rightly; one outside exactly when it is near no edge's line with a
coordinate in the edge's range, and beside the line of the left or the right
edge, or of a level top or bottom edge. -/
theorem hitMatches_iff (h : Trapezoid p) (hpos : 0 < hysteresis) (touch : Point ℚ) :
    HitMatches p hysteresis touch ↔
      (FarFromEdges p hysteresis touch →
        Outside p.topLeft p.topRight p.bottomRight p.bottomLeft touch →
        ¬ NearSomeLine p hysteresis touch ∧ Beside p hysteresis touch) := by
  unfold HitMatches
  refine forall_congr' fun hfar => ?_
  obtain ⟨hnone, hmove⟩ := getHit_of_far h hpos hfar
  rw [hnone, hmove]
  refine and_iff_left fun hin => ⟨h.not_near hfar hin, h.not_beside hpos hin⟩

end Outline

/-- A window with a slanted top edge. -/
def tiltedWindow : Points := ⟨0, 0, 100, 10, 100, 100, 0, 100⟩

theorem trapezoid_tiltedWindow : Trapezoid tiltedWindow where
  convex := by
    refine Or.inl ⟨?_, ?_, ?_, ?_⟩ <;> decide +kernel
  left_right := by decide +kernel
  top_bottom := by decide +kernel

theorem hitMatches_iff_middle : HitMatches tiltedWindow 10 ⟨50, 50⟩ := by
  refine (hitMatches_iff trapezoid_tiltedWindow (by norm_num) ⟨50, 50⟩).mpr ?_
  rintro - (hout | hout | hout | hout) <;> exact absurd hout (by decide +kernel)

/-- A touch a hundred units above the window is far outside, and taken to move
it: the crossing with the upper edge is compared with itself. -/
theorem not_hitMatches : ¬ ∀ p : Points, Trapezoid p → ∀ hysteresis : ℚ, 0 < hysteresis →
    ∀ touch : Point ℚ, HitMatches p hysteresis touch := by
  intro hall
  have hmatches := hall tiltedWindow trapezoid_tiltedWindow 10 (by norm_num) ⟨50, -100⟩
  have hfar : FarFromEdges tiltedWindow 10 ⟨50, -100⟩ := by
    have hside : ∀ a b q : Point ℚ, 0 ≤ a.y → 0 ≤ b.y → OnSegment a b q → 0 ≤ q.y := by
      rintro a b q ha hb ⟨t, h0, h1, -, hy⟩
      have hsplit : q.y = (1 - t) * a.y + t * b.y := by
        rw [hy]
        ring
      rw [hsplit]
      exact add_nonneg (mul_nonneg (by linarith) ha) (mul_nonneg h0 hb)
    intro q hq
    have hbelow : 0 ≤ q.y := by
      rcases hq with hq | hq | hq | hq
      · exact hside _ _ q (by decide +kernel) (by decide +kernel) hq
      · exact hside _ _ q (by decide +kernel) (by decide +kernel) hq
      · exact hside _ _ q (by decide +kernel) (by decide +kernel) hq
      · exact hside _ _ q (by decide +kernel) (by decide +kernel) hq
    unfold dot
    nlinarith [mul_self_nonneg (q.x - 50)]
  have hout : Outside tiltedWindow.topLeft tiltedWindow.topRight tiltedWindow.bottomRight
      tiltedWindow.bottomLeft ⟨50, -100⟩ := Or.inl (by decide +kernel)
  exact absurd ((hmatches hfar).1 hout) (by decide +kernel)

end CardScanner
