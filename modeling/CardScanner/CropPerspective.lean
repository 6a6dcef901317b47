import CardScanner.CropWindow

/-!
# The perspective-corrected bounding rectangle

A photographed card is a trapezoid, and its far side looks shorter than it is.
`getPerspectiveCorrectedBoundingRect` stretches the selection before it takes
the bounding rectangle: first the heights by the ratio of the widths, then the
widths by the ratio of the heights.

Each of the two halves scales one pair of opposite sides by a factor that is at
least 1 and pushes one pair of corners outwards, so the bounding rectangle can
only grow; truncation keeps the order.  The second half divides by a height the
first one has scaled, which is positive still.  When the other pair of sides is
of one length, the factor is 1 and the half changes nothing.
-/

namespace CardScanner

/-- A division of the source; `none` stands for a zero divisor. -/
def divide (a b : ℚ) : Option ℚ := if b = 0 then none else some (a / b)

/-- The first half: both heights grow by the ratio of the widths.  The top is
moved up when the bottom side is the longer one, else the bottom is moved
down. -/
def correctHeights (p : Points) (w1 w2 h1 h2 diffH : ℚ) : Option (Points × ℚ × ℚ) :=
  if diffH < 0 then do
    let scale ← divide (|diffH| + w2) w2
    let h1 := h1 * scale
    let h2 := h2 * scale
    pure ({ p with p1 := p.p7 - h1, p3 := p.p5 - h2 }, h1, h2)
  else do
    let scale ← divide (diffH + w1) w1
    let h1 := h1 * scale
    let h2 := h2 * scale
    pure ({ p with p7 := p.p1 + h1, p5 := p.p3 + h2 }, h1, h2)

/-- The second half: both widths grow by the ratio of the scaled heights, with
`diffV` still the difference of the old ones. -/
def correctWidths (p : Points) (w1 w2 h1 h2 diffV : ℚ) : Option (Points × ℚ × ℚ) :=
  if diffV < 0 then do
    let scale ← divide (|diffV| + h2) h2
    let w1 := w1 * scale
    let w2 := w2 * scale
    pure ({ p with p0 := p.p2 - w1, p6 := p.p4 - w2 }, w1, w2)
  else do
    let scale ← divide (diffV + h1) h1
    let w1 := w1 * scale
    let w2 := w2 * scale
    pure ({ p with p2 := p.p0 + w1, p4 := p.p6 + w2 }, w1, w2)

/-- The upper side of the selection, in one direction only. -/
def Points.topWidth (p : Points) : ℚ := p.p2 - p.p0

def Points.bottomWidth (p : Points) : ℚ := p.p4 - p.p6

def Points.leftHeight (p : Points) : ℚ := p.p7 - p.p1

def Points.rightHeight (p : Points) : ℚ := p.p5 - p.p3

/-- `getPerspectiveCorrectedBoundingRect`.  The heights are corrected first,
by the widths; the second half uses what the first has left. -/
def getPerspectiveCorrectedBoundingRect (mPoints : Points) : Option GraphicsRect := do
  let w1 := mPoints.topWidth
  let w2 := mPoints.bottomWidth
  let h1 := mPoints.leftHeight
  let h2 := mPoints.rightHeight
  let diffH := w1 - w2
  let diffV := h1 - h2
  let (p, h1, h2) ← correctHeights mPoints w1 w2 h1 h2 diffH
  let (p, _, _) ← correctWidths p w1 w2 h1 h2 diffV
  pure (getBoundingRect p)

/-! ## One factor -/

/-- A division by a positive side has a result. -/
theorem divide_of_pos {b : ℚ} (a : ℚ) (hb : 0 < b) : divide a b = some (a / b) :=
  if_neg hb.ne'

/-- A factor of the source is at least 1 for a nonnegative excess, and 1 for
none. -/
theorem one_le_scale {excess side : ℚ} (hexcess : 0 ≤ excess) (hside : 0 < side) :
    1 ≤ (excess + side) / side := by
  rw [one_le_div hside]
  linarith

theorem scale_zero {side : ℚ} (hside : 0 < side) : (0 + side) / side = 1 := by
  rw [zero_add]
  exact div_self hside.ne'

theorem le_mul_scale {a scale : ℚ} (ha : 0 < a) (hscale : 1 ≤ scale) : a ≤ a * scale :=
  le_mul_of_one_le_right ha.le hscale

/-! ## The two halves -/

/-- `q` is `p` with corners pushed outwards. -/
structure Widens (p q : Points) : Prop where
  left : q.p0 ≤ p.p0 ∧ q.p6 ≤ p.p6
  right : p.p2 ≤ q.p2 ∧ p.p4 ≤ q.p4
  top : q.p1 ≤ p.p1 ∧ q.p3 ≤ p.p3
  bottom : p.p7 ≤ q.p7 ∧ p.p5 ≤ q.p5

theorem Widens.trans {p q r : Points} (hpq : Widens p q) (hqr : Widens q r) : Widens p r where
  left := ⟨hqr.left.1.trans hpq.left.1, hqr.left.2.trans hpq.left.2⟩
  right := ⟨hpq.right.1.trans hqr.right.1, hpq.right.2.trans hqr.right.2⟩
  top := ⟨hqr.top.1.trans hpq.top.1, hqr.top.2.trans hpq.top.2⟩
  bottom := ⟨hpq.bottom.1.trans hqr.bottom.1, hpq.bottom.2.trans hqr.bottom.2⟩

/-- Heights that are not smaller widen the points, upwards and downwards. -/
theorem widens_of_heights {p : Points} {h1 h2 : ℚ} (hle1 : p.leftHeight ≤ h1)
    (hle2 : p.rightHeight ≤ h2) :
    Widens p { p with p1 := p.p7 - h1, p3 := p.p5 - h2 } ∧
      Widens p { p with p7 := p.p1 + h1, p5 := p.p3 + h2 } := by
  unfold Points.leftHeight at hle1
  unfold Points.rightHeight at hle2
  constructor
  · exact ⟨⟨le_rfl, le_rfl⟩, ⟨le_rfl, le_rfl⟩, ⟨by linarith, by linarith⟩, ⟨le_rfl, le_rfl⟩⟩
  · exact ⟨⟨le_rfl, le_rfl⟩, ⟨le_rfl, le_rfl⟩, ⟨le_rfl, le_rfl⟩, ⟨by linarith, by linarith⟩⟩

/-- And so do widths, to the left and to the right. -/
theorem widens_of_widths {p : Points} {w1 w2 : ℚ} (hle1 : p.topWidth ≤ w1)
    (hle2 : p.bottomWidth ≤ w2) :
    Widens p { p with p0 := p.p2 - w1, p6 := p.p4 - w2 } ∧
      Widens p { p with p2 := p.p0 + w1, p4 := p.p6 + w2 } := by
  unfold Points.topWidth at hle1
  unfold Points.bottomWidth at hle2
  constructor
  · exact ⟨⟨by linarith, by linarith⟩, ⟨le_rfl, le_rfl⟩, ⟨le_rfl, le_rfl⟩, ⟨le_rfl, le_rfl⟩⟩
  · exact ⟨⟨le_rfl, le_rfl⟩, ⟨by linarith, by linarith⟩, ⟨le_rfl, le_rfl⟩, ⟨le_rfl, le_rfl⟩⟩

/-- What the first half does: it divides by a width, the heights stay positive,
and nothing moves when the widths are equal. -/
theorem correctHeights_spec {p : Points} {w1 w2 : ℚ} (hw1 : 0 < w1) (hw2 : 0 < w2)
    (hh1 : 0 < p.leftHeight) (hh2 : 0 < p.rightHeight) :
    ∃ q h1 h2, correctHeights p w1 w2 p.leftHeight p.rightHeight (w1 - w2) = some (q, h1, h2) ∧
      0 < h1 ∧ 0 < h2 ∧ Widens p q ∧ q.topWidth = p.topWidth ∧ q.bottomWidth = p.bottomWidth ∧
      (w1 = w2 → q = p ∧ h1 = p.leftHeight ∧ h2 = p.rightHeight) := by
  by_cases hdiff : w1 - w2 < 0
  · have hscale := one_le_scale (abs_nonneg (w1 - w2)) hw2
    have hle1 := le_mul_scale hh1 hscale
    have hle2 := le_mul_scale hh2 hscale
    unfold correctHeights
    rw [if_pos hdiff, divide_of_pos _ hw2]
    refine ⟨_, _, _, rfl, hh1.trans_le hle1, hh2.trans_le hle2,
      (widens_of_heights hle1 hle2).1, rfl, rfl, ?_⟩
    intro heq
    linarith
  · have hscale := one_le_scale (not_lt.mp hdiff) hw1
    have hle1 := le_mul_scale hh1 hscale
    have hle2 := le_mul_scale hh2 hscale
    unfold correctHeights
    rw [if_neg hdiff, divide_of_pos _ hw1]
    refine ⟨_, _, _, rfl, hh1.trans_le hle1, hh2.trans_le hle2,
      (widens_of_heights hle1 hle2).2, rfl, rfl, ?_⟩
    intro heq
    rw [sub_eq_zero.mpr heq, scale_zero hw1, mul_one, mul_one]
    refine ⟨?_, rfl, rfl⟩
    ext <;> simp [Points.leftHeight, Points.rightHeight]

/-- The same for the second half, which divides by a height: it widens the
window or, without a difference, leaves it alone. -/
theorem correctWidths_spec {p : Points} {h1 h2 : ℚ} (d : ℚ) (hh1 : 0 < h1) (hh2 : 0 < h2)
    (hw1 : 0 < p.topWidth) (hw2 : 0 < p.bottomWidth) :
    ∃ q w1 w2, correctWidths p p.topWidth p.bottomWidth h1 h2 d = some (q, w1, w2) ∧
      Widens p q ∧ (d = 0 → q = p) := by
  by_cases hdiff : d < 0
  · have hscale := one_le_scale (abs_nonneg d) hh2
    have hle1 := le_mul_scale hw1 hscale
    have hle2 := le_mul_scale hw2 hscale
    unfold correctWidths
    rw [if_pos hdiff, divide_of_pos _ hh2]
    exact ⟨_, _, _, rfl, (widens_of_widths hle1 hle2).1, fun heq => absurd heq hdiff.ne⟩
  · have hscale := one_le_scale (not_lt.mp hdiff) hh1
    have hle1 := le_mul_scale hw1 hscale
    have hle2 := le_mul_scale hw2 hscale
    unfold correctWidths
    rw [if_neg hdiff, divide_of_pos _ hh1]
    refine ⟨_, _, _, rfl, (widens_of_widths hle1 hle2).2, ?_⟩
    intro heq
    rw [heq, scale_zero hh1, mul_one, mul_one]
    ext <;> simp [Points.topWidth, Points.bottomWidth]

/-! ## The rectangle -/

/-- `r` contains `r'`. -/
structure GraphicsRect.Contains (r r' : GraphicsRect) : Prop where
  left : r.left ≤ r'.left
  top : r.top ≤ r'.top
  right : r'.right ≤ r.right
  bottom : r'.bottom ≤ r.bottom

/-- Truncation keeps the order, so corners pushed outwards give a rectangle
that contains the old one. -/
theorem Widens.contains {p q : Points} (h : Widens p q) :
    (getBoundingRect q).Contains (getBoundingRect p) where
  left := toInt_mono (min_le_min h.left.1 h.left.2)
  top := toInt_mono (min_le_min h.top.1 h.top.2)
  right := toInt_mono (max_le_max h.right.1 h.right.2)
  bottom := toInt_mono (max_le_max h.bottom.2 h.bottom.1)

/-- **The corrected rectangle.**  For positive widths and heights no divisor is
zero, the rectangle contains the plain bounding rectangle, and it is that
rectangle when opposite sides are of one length. -/
theorem perspectiveCorrected_contains (p : Points) (hw1 : 0 < p.topWidth)
    (hw2 : 0 < p.bottomWidth) (hh1 : 0 < p.leftHeight) (hh2 : 0 < p.rightHeight) :
    ∃ r, getPerspectiveCorrectedBoundingRect p = some r ∧ r.Contains (getBoundingRect p) ∧
      (p.topWidth = p.bottomWidth → p.leftHeight = p.rightHeight → r = getBoundingRect p) := by
  obtain ⟨q, h1, h2, hheights, hpos1, hpos2, hwiden, htop, hbottom, heqH⟩ :=
    correctHeights_spec hw1 hw2 hh1 hh2
  rw [← htop] at hw1
  rw [← hbottom] at hw2
  obtain ⟨q', w1, w2, hwidths, hwiden', heqW⟩ :=
    correctWidths_spec (p.leftHeight - p.rightHeight) hpos1 hpos2 hw1 hw2
  rw [htop, hbottom] at hwidths
  refine ⟨getBoundingRect q', ?_, (hwiden.trans hwiden').contains, ?_⟩
  · unfold getPerspectiveCorrectedBoundingRect
    simp only [hheights, hwidths, Option.bind_eq_bind, Option.bind_some]
    rfl
  · intro hwidth hheight
    rw [heqW (sub_eq_zero.mpr hheight), (heqH hwidth).1]

/-- A card seen from below: the bottom side is the longer one, the right side
the higher one. -/
theorem perspectiveCorrected_contains_card :
    ∃ r, getPerspectiveCorrectedBoundingRect ⟨20, 10, 80, 0, 100, 60, 0, 60⟩ = some r ∧
      r.Contains (getBoundingRect ⟨20, 10, 80, 0, 100, 60, 0, 60⟩) := by
  have hcontains := perspectiveCorrected_contains ⟨20, 10, 80, 0, 100, 60, 0, 60⟩
    (by norm_num [Points.topWidth]) (by norm_num [Points.bottomWidth])
    (by norm_num [Points.leftHeight]) (by norm_num [Points.rightHeight])
  obtain ⟨r, hreturn, hr, _⟩ := hcontains
  exact ⟨r, hreturn, hr⟩

end CardScanner
