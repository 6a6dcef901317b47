import CardScanner.GaussJordan
import CardScanner.Plane
import Mathlib.Tactic.NormNum
import Mathlib.Tactic.FinCases
import Mathlib.Data.Fin.VecNotation
import Mathlib.LinearAlgebra.Matrix.Notation

/-!
# The projective transform of a card

The crop maps each pixel of an upright picture to a point of the card's outline in the
photo.  Leptonica's `getProjectiveXformCoeffs` finds the map from four corners and the
points they go to: eight linear equations, solved by `gaussjordan`, whose failure it
does not look at.

For the corners of a rectangle the equations come down to two, in what the denominator
of the map is at the second and fourth corner; the other denominators follow.  Each is
a quotient of cross products of the outline's corners, so the transform is found and
takes corner to corner exactly if no three corners are on a line
(`cropTransform_corners_iff`).  If the outline turns one way they are positive, and the
transform multiplies cross products by positive numbers: it is one-to-one, takes the
inside to the inside and lines to lines (`cropTransform_uprights`).

All this is exact arithmetic, over any ordered field.  The source computes in floats.
-/

namespace CardScanner

open Plane Matrix

variable {K : Type*} [Field K]

/-- The equation of a point for the abscissa of its image. -/
def abscissaRow (p q : Point K) : Fin 8 → K :=
  ![p.x, p.y, 1, 0, 0, 0, -p.x * q.x, -p.y * q.x]

/-- The equation of a point for the ordinate of its image. -/
def ordinateRow (p q : Point K) : Fin 8 → K :=
  ![0, 0, 0, p.x, p.y, 1, -p.x * q.y, -p.y * q.y]

/-- The matrix that `getProjectiveXformCoeffs` fills. -/
def projectiveMatrix (ptas ptad : Fin 4 → Point K) : Matrix (Fin 8) (Fin 8) K :=
  ![abscissaRow (ptas 0) (ptad 0), ordinateRow (ptas 0) (ptad 0),
    abscissaRow (ptas 1) (ptad 1), ordinateRow (ptas 1) (ptad 1),
    abscissaRow (ptas 2) (ptad 2), ordinateRow (ptas 2) (ptad 2),
    abscissaRow (ptas 3) (ptad 3), ordinateRow (ptas 3) (ptad 3)]

/-- Its right side. -/
def projectiveTarget (ptad : Fin 4 → Point K) : Fin 8 → K :=
  ![(ptad 0).x, (ptad 0).y, (ptad 1).x, (ptad 1).y, (ptad 2).x, (ptad 2).y,
    (ptad 3).x, (ptad 3).y]

/-- `getProjectiveXformCoeffs`: whatever `gaussjordan` has left on the right
side.  The source solves the equations in floats, so its coefficients are near
these and seldom equal to them, and for three corners on a line it may find a
solution where there is none. -/
def getProjectiveXformCoeffs [LinearOrder K] (ptas ptad : Fin 4 → Point K) : Fin 8 → K :=
  (gaussjordan (projectiveMatrix ptas ptad) (projectiveTarget ptad)).2.1

/-- `projectiveXformPt`, which divides by the denominator.  The arithmetic is
that of the field, where the source mixes floats and doubles: its point is
near this one. -/
def projectiveXformPt [DecidableEq K] (vc : Fin 8 → K) (p : Point K) : Option (Point K) :=
  if vc 6 * p.x + vc 7 * p.y + 1 = 0 then none
  else
    let factor := 1 / (vc 6 * p.x + vc 7 * p.y + 1)
    some ⟨factor * (vc 0 * p.x + vc 1 * p.y + vc 2), factor * (vc 3 * p.x + vc 4 * p.y + vc 5)⟩

/-! ## The equations -/

/-- An equation of the system, multiplied out: that of an abscissa. -/
theorem abscissaRow_dotProduct (p q : Point K) (c : Fin 8 → K) :
    abscissaRow p q ⬝ᵥ c =
      c 0 * p.x + c 1 * p.y + c 2 - q.x * (c 6 * p.x + c 7 * p.y) := by
  simp only [abscissaRow, dotProduct, Fin.sum_univ_eight]
  simp
  ring

theorem ordinateRow_dotProduct (p q : Point K) (c : Fin 8 → K) :
    ordinateRow p q ⬝ᵥ c =
      c 3 * p.x + c 4 * p.y + c 5 - q.y * (c 6 * p.x + c 7 * p.y) := by
  simp only [ordinateRow, dotProduct, Fin.sum_univ_eight]
  simp
  ring

/-- The equations, as those of each point: two for each of the four, with the
denominator multiplied out. -/
theorem projectiveMatrix_mulVec_iff (ptas ptad target : Fin 4 → Point K) (c : Fin 8 → K) :
    projectiveMatrix ptas ptad *ᵥ c = projectiveTarget target ↔
      ∀ i, c 0 * (ptas i).x + c 1 * (ptas i).y + c 2 -
          (ptad i).x * (c 6 * (ptas i).x + c 7 * (ptas i).y) = (target i).x ∧
        c 3 * (ptas i).x + c 4 * (ptas i).y + c 5 -
          (ptad i).y * (c 6 * (ptas i).x + c 7 * (ptas i).y) = (target i).y := by
  simp only [← abscissaRow_dotProduct, ← ordinateRow_dotProduct]
  constructor
  · intro h i
    fin_cases i
    · exact ⟨congrFun h 0, congrFun h 1⟩
    · exact ⟨congrFun h 2, congrFun h 3⟩
    · exact ⟨congrFun h 4, congrFun h 5⟩
    · exact ⟨congrFun h 6, congrFun h 7⟩
  · intro h
    funext k
    fin_cases k
    · exact (h 0).1
    · exact (h 0).2
    · exact (h 1).1
    · exact (h 1).2
    · exact (h 2).1
    · exact (h 2).2
    · exact (h 3).1
    · exact (h 3).2

/-- The equations of a point say where it goes, if its denominator is not
zero. -/
theorem projectiveXformPt_eq_some_iff [DecidableEq K] {c : Fin 8 → K} {p q : Point K} :
    projectiveXformPt c p = some q ↔
      c 6 * p.x + c 7 * p.y + 1 ≠ 0 ∧
        c 0 * p.x + c 1 * p.y + c 2 - q.x * (c 6 * p.x + c 7 * p.y) = q.x ∧
        c 3 * p.x + c 4 * p.y + c 5 - q.y * (c 6 * p.x + c 7 * p.y) = q.y := by
  unfold projectiveXformPt
  split_ifs with hzero
  · simp [hzero]
  · have hmul : ∀ a b : K, 1 / (c 6 * p.x + c 7 * p.y + 1) * a = b ↔
        a - b * (c 6 * p.x + c 7 * p.y) = b := by
      intro a b
      rw [one_div, inv_mul_eq_iff_eq_mul₀ hzero]
      constructor
      · intro h
        rw [h]
        ring
      · intro h
        linear_combination h
    simp only [Option.some.injEq, Point.ext_iff, hmul, ne_eq, hzero, not_false_eq_true, true_and]

/-! ## The corners of a rectangle -/

/-- The corners of the upright picture. -/
def uprightCorners (w h : K) : Fin 4 → Point K := ![⟨0, 0⟩, ⟨w, 0⟩, ⟨w, h⟩, ⟨0, h⟩]

/-- The eight equations for the corners of a rectangle. -/
structure RectangleEquations (w h : K) (q target : Fin 4 → Point K) (c : Fin 8 → K) : Prop where
  x0 : c 2 = (target 0).x
  y0 : c 5 = (target 0).y
  x1 : c 0 * w + c 2 - (q 1).x * (c 6 * w) = (target 1).x
  y1 : c 3 * w + c 5 - (q 1).y * (c 6 * w) = (target 1).y
  x2 : c 0 * w + c 1 * h + c 2 - (q 2).x * (c 6 * w + c 7 * h) = (target 2).x
  y2 : c 3 * w + c 4 * h + c 5 - (q 2).y * (c 6 * w + c 7 * h) = (target 2).y
  x3 : c 1 * h + c 2 - (q 3).x * (c 7 * h) = (target 3).x
  y3 : c 4 * h + c 5 - (q 3).y * (c 7 * h) = (target 3).y

/-- For the corners of a rectangle most coordinates are zero, and the eight
equations come down to these. -/
theorem rectangleEquations_iff (w h : K) (q target : Fin 4 → Point K) (c : Fin 8 → K) :
    projectiveMatrix (uprightCorners w h) q *ᵥ c = projectiveTarget target ↔
      RectangleEquations w h q target c := by
  rw [projectiveMatrix_mulVec_iff]
  constructor
  · intro heq
    have h0 := heq 0
    have h1 := heq 1
    have h2 := heq 2
    have h3 := heq 3
    simp only [uprightCorners, Matrix.cons_val_zero, Matrix.cons_val_one, Matrix.cons_val,
      mul_zero, add_zero, zero_add, sub_zero] at h0 h1 h2 h3
    exact ⟨h0.1, h0.2, h1.1, h1.2, h2.1, h2.2, h3.1, h3.2⟩
  · intro heq i
    fin_cases i
    · simpa [uprightCorners] using ⟨heq.x0, heq.y0⟩
    · simpa [uprightCorners] using ⟨heq.x1, heq.y1⟩
    · simpa [uprightCorners] using ⟨heq.x2, heq.y2⟩
    · simpa [uprightCorners] using ⟨heq.x3, heq.y3⟩

/-- Taking the first point's equation and the third's from the others' leaves
the denominators alone. -/
theorem RectangleEquations.reduced {w h : K} {q target : Fin 4 → Point K} {c : Fin 8 → K}
    (heq : RectangleEquations w h q target c) :
    c 6 * w * ((q 1).x - (q 2).x) + c 7 * h * ((q 3).x - (q 2).x) =
        (target 2).x - (target 1).x - (target 3).x + (target 0).x ∧
      c 6 * w * ((q 1).y - (q 2).y) + c 7 * h * ((q 3).y - (q 2).y) =
        (target 2).y - (target 1).y - (target 3).y + (target 0).y := by
  constructor
  · linear_combination heq.x2 - heq.x1 - heq.x3 + heq.x0
  · linear_combination heq.y2 - heq.y1 - heq.y3 + heq.y0

/-- The denominators at the corners, as quotients of cross products of three
corners each. -/
theorem RectangleEquations.denominators {w h : K} {q : Fin 4 → Point K} {c : Fin 8 → K}
    (heq : RectangleEquations w h q q c) :
    (c 6 * w + 1) * cross (q 1) (q 2) (q 3) = cross (q 2) (q 3) (q 0) ∧
      (c 7 * h + 1) * cross (q 1) (q 2) (q 3) = cross (q 0) (q 1) (q 2) ∧
      (c 6 * w + c 7 * h + 1) * cross (q 1) (q 2) (q 3) = cross (q 3) (q 0) (q 1) := by
  obtain ⟨hx, hy⟩ := heq.reduced
  have hsecond : (c 6 * w + 1) * cross (q 1) (q 2) (q 3) = cross (q 2) (q 3) (q 0) := by
    unfold cross
    linear_combination ((q 2).y - (q 3).y) * hx - ((q 2).x - (q 3).x) * hy
  have hfourth : (c 7 * h + 1) * cross (q 1) (q 2) (q 3) = cross (q 0) (q 1) (q 2) := by
    unfold cross
    linear_combination ((q 1).y - (q 2).y) * hx - ((q 1).x - (q 2).x) * hy
  refine ⟨hsecond, hfourth, ?_⟩
  linear_combination hsecond + hfourth - diagonal_weights (q 0) (q 1) (q 2) (q 3)

/-- With no right side and no line through the last three corners, the
denominators and then all coefficients vanish. -/
theorem RectangleEquations.eq_zero {w h : K} (hw : w ≠ 0) (hh : h ≠ 0) {q : Fin 4 → Point K}
    {c : Fin 8 → K} (heq : RectangleEquations w h q (fun _ => ⟨0, 0⟩) c)
    (hcross : cross (q 1) (q 2) (q 3) ≠ 0) : c = 0 := by
  obtain ⟨hx, hy⟩ := heq.reduced
  have hsecond : c 6 * w * cross (q 1) (q 2) (q 3) = 0 := by
    unfold cross
    linear_combination ((q 2).y - (q 3).y) * hx - ((q 2).x - (q 3).x) * hy
  have hfourth : c 7 * h * cross (q 1) (q 2) (q 3) = 0 := by
    unfold cross
    linear_combination ((q 1).y - (q 2).y) * hx - ((q 1).x - (q 2).x) * hy
  have h6 : c 6 = 0 := by simpa [hcross, hw] using hsecond
  have h7 : c 7 = 0 := by simpa [hcross, hh] using hfourth
  have h2 : c 2 = 0 := heq.x0
  have h5 : c 5 = 0 := heq.y0
  have h0 : c 0 = 0 := by simpa [h6, h2, hw] using heq.x1
  have h3 : c 3 = 0 := by simpa [h6, h5, hw] using heq.y1
  have h1 : c 1 = 0 := by simpa [h7, h2, hh] using heq.x3
  have h4 : c 4 = 0 := by simpa [h7, h5, hh] using heq.y3
  funext k
  fin_cases k <;> assumption

/-- Two parallel vectors are linearly dependent. -/
theorem exists_dependent {a b a' b' : K} (hcross : a * b' = b * a') :
    ∃ u v : K, (u ≠ 0 ∨ v ≠ 0) ∧ u * a + v * a' = 0 ∧ u * b + v * b' = 0 := by
  by_cases hx : a' = 0 ∧ a = 0
  · by_cases hy : b' = 0 ∧ b = 0
    · exact ⟨1, 0, .inl one_ne_zero, by simp [hx], by simp [hy]⟩
    · refine ⟨b', -b, ?_, ?_, by ring⟩
      · simpa [or_iff_not_imp_left] using hy
      · linear_combination hcross
  · refine ⟨a', -a, ?_, by ring, ?_⟩
    · simpa [or_iff_not_imp_left] using hx
    · linear_combination -hcross

/-- Without a right side, the equations have no other solution than 0 if and
only if the last three corners are not on a line. -/
theorem projectiveMatrix_det_ne_zero_iff {w h : K} (hw : w ≠ 0) (hh : h ≠ 0)
    (q : Fin 4 → Point K) :
    (projectiveMatrix (uprightCorners w h) q).det ≠ 0 ↔ cross (q 1) (q 2) (q 3) ≠ 0 := by
  have hzero : projectiveTarget (fun _ => (⟨0, 0⟩ : Point K)) = 0 := by
    funext k
    fin_cases k <;> rfl
  rw [not_iff_not, ← Matrix.exists_mulVec_eq_zero_iff, ← hzero]
  simp only [rectangleEquations_iff]
  constructor
  · intro ⟨c, hc, heq⟩
    by_contra hcross
    exact hc (hzero ▸ heq.eq_zero hw hh hcross)
  · intro hcross
    obtain ⟨u, v, huv, hx, hy⟩ := exists_dependent
      (show ((q 1).x - (q 2).x) * ((q 3).y - (q 2).y) =
        ((q 1).y - (q 2).y) * ((q 3).x - (q 2).x) by
          unfold cross at hcross
          linear_combination -hcross)
    refine ⟨![(q 1).x * u / w, (q 3).x * v / h, 0, (q 1).y * u / w, (q 3).y * v / h, 0,
      u / w, v / h], ?_, ?_⟩
    · intro hall
      have h6 : u / w = 0 := congrFun hall 6
      have h7 : v / h = 0 := congrFun hall 7
      rcases huv with hu | hv
      · exact div_ne_zero hu hw h6
      · exact div_ne_zero hv hh h7
    · constructor <;> simp [hw, hh]
      · linear_combination hx
      · linear_combination hy

/-! ## The transform of the crop -/

/-- No three corners are on a line. -/
structure NoThreeOnLine (q : Fin 4 → Point K) : Prop where
  abc : cross (q 0) (q 1) (q 2) ≠ 0
  bcd : cross (q 1) (q 2) (q 3) ≠ 0
  cda : cross (q 2) (q 3) (q 0) ≠ 0
  dab : cross (q 3) (q 0) (q 1) ≠ 0

/-- What solves the equations takes corner to corner if the denominators are
not zero. -/
theorem RectangleEquations.corners [DecidableEq K] {w h : K} {q : Fin 4 → Point K}
    {c : Fin 8 → K} (heq : RectangleEquations w h q q c) (hline : NoThreeOnLine q) (i : Fin 4) :
    projectiveXformPt c (uprightCorners w h i) = some (q i) := by
  obtain ⟨hsecond, hfourth, hthird⟩ := heq.denominators
  have hnz : c 6 * (uprightCorners w h i).x + c 7 * (uprightCorners w h i).y + 1 ≠ 0 := by
    fin_cases i
    · simp [uprightCorners]
    · simpa [uprightCorners] using left_ne_zero_of_mul (hsecond.trans_ne hline.cda)
    · simpa [uprightCorners] using left_ne_zero_of_mul (hthird.trans_ne hline.dab)
    · simpa [uprightCorners] using left_ne_zero_of_mul (hfourth.trans_ne hline.abc)
  have hall := (projectiveMatrix_mulVec_iff _ q q c).mp ((rectangleEquations_iff w h q q c).mpr heq)
  exact projectiveXformPt_eq_some_iff.mpr ⟨hnz, hall i⟩

/-- The determinant of the map on homogeneous coordinates. -/
def homogeneousDet (c : Fin 8 → K) : K :=
  c 0 * (c 4 - c 5 * c 7) - c 1 * (c 3 - c 5 * c 6) + c 2 * (c 3 * c 7 - c 4 * c 6)

/-- The transform multiplies every cross product by its determinant over the
denominators: a cross product times the denominators is a determinant of
homogeneous coordinates. -/
theorem cross_projectiveXformPt [DecidableEq K] {c : Fin 8 → K} {p p' p'' r r' r'' : Point K}
    (h : projectiveXformPt c p = some r) (h' : projectiveXformPt c p' = some r')
    (h'' : projectiveXformPt c p'' = some r'') :
    cross r r' r'' * ((c 6 * p.x + c 7 * p.y + 1) * (c 6 * p'.x + c 7 * p'.y + 1) *
      (c 6 * p''.x + c 7 * p''.y + 1)) = homogeneousDet c * cross p p' p'' := by
  obtain ⟨_, hx, hy⟩ := projectiveXformPt_eq_some_iff.mp h
  obtain ⟨_, hx', hy'⟩ := projectiveXformPt_eq_some_iff.mp h'
  obtain ⟨_, hx'', hy''⟩ := projectiveXformPt_eq_some_iff.mp h''
  have hnum : ∀ {a b d : K}, a - b * d = b → b * (d + 1) = a := by
    intro a b d hab
    linear_combination -hab
  have hrow : ∀ a b d a' b' d' a'' b'' d'' : K,
      ((a' - a) * (b'' - b) - (b' - b) * (a'' - a)) * (d * d' * d'') =
        a * d * (b' * d' * d'' - b'' * d'' * d') - a' * d' * (b * d * d'' - b'' * d'' * d) +
          a'' * d'' * (b * d * d' - b' * d' * d) := by
    intros
    ring
  unfold cross
  rw [hrow, hnum hx, hnum hx', hnum hx'', hnum hy, hnum hy', hnum hy'']
  unfold homogeneousDet
  ring

section Order

variable [LinearOrder K] [IsStrictOrderedRing K]

/-- If the last three corners are not on a line the system is not singular,
and what is left on the right side solves it. -/
theorem gaussjordan_corners {w h : K} (hw : w ≠ 0) (hh : h ≠ 0) {q : Fin 4 → Point K}
    (hcross : cross (q 1) (q 2) (q 3) ≠ 0) :
    (gaussjordan (projectiveMatrix (uprightCorners w h) q) (projectiveTarget q)).2.2 = true ∧
      RectangleEquations w h q q (getProjectiveXformCoeffs (uprightCorners w h) q) := by
  have hdet := (projectiveMatrix_det_ne_zero_iff hw hh q).mpr hcross
  rcases gaussjordan_cases (projectiveMatrix (uprightCorners w h) q) (projectiveTarget q) with
    ⟨_, hzero⟩ | ⟨hok, hone, hb⟩
  · exact absurd hzero hdet
  · refine ⟨hok, (rectangleEquations_iff _ _ _ _ _).mp ?_⟩
    unfold getProjectiveXformCoeffs
    rw [hb, Matrix.mulVec_mulVec, mul_eq_one_comm.mp hone, Matrix.one_mulVec]

/-- **The crop's transform exists exactly for four corners of which no three
are on a line.**  Only then does `gaussjordan` succeed and the result take
each corner of the upright picture to its corner of the outline. -/
theorem cropTransform_corners_iff {w h : K} (hw : 0 < w) (hh : 0 < h) (q : Fin 4 → Point K) :
    ((gaussjordan (projectiveMatrix (uprightCorners w h) q) (projectiveTarget q)).2.2 = true ∧
        ∀ i, projectiveXformPt (getProjectiveXformCoeffs (uprightCorners w h) q)
          (uprightCorners w h i) = some (q i)) ↔
      NoThreeOnLine q := by
  constructor
  · intro ⟨hok, hcorners⟩
    have hcross : cross (q 1) (q 2) (q 3) ≠ 0 := by
      rw [← projectiveMatrix_det_ne_zero_iff hw.ne' hh.ne']
      rcases gaussjordan_cases (projectiveMatrix (uprightCorners w h) q) (projectiveTarget q)
        with ⟨hfail, _⟩ | ⟨_, hone, _⟩
      · simp [hfail] at hok
      · exact det_ne_zero_of_mul_eq_one hone
    obtain ⟨_, heq⟩ := gaussjordan_corners hw.ne' hh.ne' hcross
    obtain ⟨hsecond, hfourth, hthird⟩ := heq.denominators
    have h1 := (projectiveXformPt_eq_some_iff.mp (hcorners 1)).1
    have h2 := (projectiveXformPt_eq_some_iff.mp (hcorners 2)).1
    have h3 := (projectiveXformPt_eq_some_iff.mp (hcorners 3)).1
    simp only [uprightCorners, Matrix.cons_val_one, Matrix.cons_val_zero, Matrix.cons_val,
      mul_zero, add_zero, zero_add] at h1 h2 h3
    exact ⟨hfourth ▸ mul_ne_zero h3 hcross, hcross, hsecond ▸ mul_ne_zero h1 hcross,
      hthird ▸ mul_ne_zero h2 hcross⟩
  · intro hline
    obtain ⟨hok, heq⟩ := gaussjordan_corners hw.ne' hh.ne' hline.bcd
    exact ⟨hok, heq.corners hline⟩

/-- A card photographed from one side. -/
def slantedCard : Fin 4 → Point ℚ := ![⟨1, 1⟩, ⟨9, 2⟩, ⟨10, 8⟩, ⟨0, 6⟩]

theorem cropTransform_corners_iff_slanted :
    ((gaussjordan (projectiveMatrix (uprightCorners 4 2) slantedCard)
          (projectiveTarget slantedCard)).2.2 = true ∧
        ∀ i, projectiveXformPt (getProjectiveXformCoeffs (uprightCorners 4 2) slantedCard)
          (uprightCorners 4 2 i) = some (slantedCard i)) ↔
      NoThreeOnLine slantedCard :=
  cropTransform_corners_iff (by norm_num) (by norm_num) slantedCard

/-- An affine function that is positive at both ends of an interval is so
between them. -/
theorem affine_pos {a b w x : K} (hw : 0 < w) (hstart : 0 < b) (hend : 0 < a * w + b)
    (hx : 0 ≤ x) (hxw : x ≤ w) : 0 < a * x + b := by
  have hsum : w * (a * x + b) = (w - x) * b + x * (a * w + b) := by ring
  have hpos : 0 < w * (a * x + b) := by
    rw [hsum]
    rcases hxw.lt_or_eq with hlt | rfl
    · exact add_pos_of_pos_of_nonneg (mul_pos (sub_pos.mpr hlt) hstart)
        (mul_nonneg hx hend.le)
    · simpa using mul_pos hw hend
  exact pos_of_mul_pos_right hpos hw.le

/-- The pixels of the upright picture, with its border. -/
structure InRectangle (w h : K) (p : Point K) : Prop where
  left : 0 ≤ p.x
  right : p.x ≤ w
  top : 0 ≤ p.y
  bottom : p.y ≤ h

omit [IsStrictOrderedRing K] in
theorem uprightCorners_inRectangle {w h : K} (hw : 0 < w) (hh : 0 < h) (i : Fin 4) :
    InRectangle w h (uprightCorners w h i) := by
  fin_cases i <;> constructor <;> simp [uprightCorners, hw.le, hh.le]

/-- What is affine and positive at the corners is positive in the rectangle. -/
theorem affine_pos_inRectangle {w h : K} (hw : 0 < w) (hh : 0 < h) {a b c : K} (h0 : 0 < c)
    (h1 : 0 < a * w + c) (h2 : 0 < a * w + b * h + c) (h3 : 0 < b * h + c) {p : Point K}
    (hp : InRectangle w h p) : 0 < a * p.x + b * p.y + c := by
  have htop : 0 < a * p.x + c := affine_pos hw h0 h1 hp.left hp.right
  have hbottom : 0 < a * p.x + (b * h + c) :=
    affine_pos hw h3 (by linarith only [h2]) hp.left hp.right
  have hinner : 0 < b * p.y + (a * p.x + c) :=
    affine_pos hh htop (by linarith only [hbottom]) hp.top hp.bottom
  linarith only [hinner]

/-- For a card outline, no pixel of the upright picture has a zero
denominator. -/
theorem RectangleEquations.denominator_pos {w h : K} (hw : 0 < w) (hh : 0 < h)
    {q : Fin 4 → Point K} {c : Fin 8 → K} (heq : RectangleEquations w h q q c)
    (hturns : Turns (q 0) (q 1) (q 2) (q 3)) {p : Point K} (hp : InRectangle w h p) :
    0 < c 6 * p.x + c 7 * p.y + 1 := by
  obtain ⟨hsecond, hfourth, hthird⟩ := heq.denominators
  have hbcd := hturns.bcd
  have h1 : 0 < c 6 * w + 1 := pos_of_mul_pos_left (hsecond ▸ hturns.cda) hbcd.le
  have h3 : 0 < c 7 * h + 1 := pos_of_mul_pos_left (hfourth ▸ hturns.abc) hbcd.le
  have h2 : 0 < c 6 * w + c 7 * h + 1 := pos_of_mul_pos_left (hthird ▸ hturns.dab) hbcd.le
  exact affine_pos_inRectangle hw hh one_pos h1 h2 h3 hp

/-- What a map of the upright picture into the outline `q` must do to be a
picture of the card. -/
structure Uprights (w h : K) (q : Fin 4 → Point K) (f : Point K → Point K) : Prop where
  corners : ∀ i, f (uprightCorners w h i) = q i
  orientation : ∀ {p p' p''}, InRectangle w h p → InRectangle w h p' → InRectangle w h p'' →
    ∃ k, 0 < k ∧ cross (f p) (f p') (f p'') = k * cross p p' p''
  inside : ∀ {p}, InRectangle w h p → (Inside (q 0) (q 1) (q 2) (q 3) (f p) ↔
    0 < p.x ∧ p.x < w ∧ 0 < p.y ∧ p.y < h)
  injOn : Set.InjOn f {p | InRectangle w h p}

/-- A map that keeps the orientation does not take two points of the rectangle
to one: with one of three corners they would not be on a line. -/
theorem injOn_of_orientation {w h : K} (hw : 0 < w) (hh : 0 < h) {f : Point K → Point K}
    (horient : ∀ {p p' p''}, InRectangle w h p → InRectangle w h p' → InRectangle w h p'' →
      ∃ k, 0 < k ∧ cross (f p) (f p') (f p'') = k * cross p p' p'') :
    Set.InjOn f {p | InRectangle w h p} := by
  intro p hp p' hp' hsame
  have hcross : ∀ i, cross p p' (uprightCorners w h i) = 0 := by
    intro i
    obtain ⟨k, hk, heq⟩ := horient hp hp' (uprightCorners_inRectangle hw hh i)
    rw [hsame] at heq
    have hself : cross (f p') (f p') (f (uprightCorners w h i)) = 0 := by
      unfold cross
      ring
    rw [hself] at heq
    exact (mul_eq_zero.mp heq.symm).resolve_left hk.ne'
  have h0 := hcross 0
  have h1 := hcross 1
  have h3 := hcross 3
  simp only [uprightCorners, Matrix.cons_val_zero, Matrix.cons_val_one, Matrix.cons_val,
    cross] at h0 h1 h3
  have hx : (p'.x - p.x) * h = 0 := by linear_combination h3 - h0
  have hy : (p'.y - p.y) * w = 0 := by linear_combination h0 - h1
  apply Point.ext
  · exact (sub_eq_zero.mp ((mul_eq_zero.mp hx).resolve_right hh.ne')).symm
  · exact (sub_eq_zero.mp ((mul_eq_zero.mp hy).resolve_right hw.ne')).symm

/-- The side of a point tells on which side of the image of an edge its image
is. -/
theorem cross_side {w h : K} (hw : 0 < w) (hh : 0 < h) {q : Fin 4 → Point K}
    {f : Point K → Point K} (hcorners : ∀ i, f (uprightCorners w h i) = q i)
    (horient : ∀ {p p' p''}, InRectangle w h p → InRectangle w h p' → InRectangle w h p'' →
      ∃ k, 0 < k ∧ cross (f p) (f p') (f p'') = k * cross p p' p'')
    (i j : Fin 4) {p : Point K} (hp : InRectangle w h p) :
    0 < cross (q i) (q j) (f p) ↔
      0 < cross (uprightCorners w h i) (uprightCorners w h j) p := by
  obtain ⟨k, hk, heq⟩ := horient (uprightCorners_inRectangle hw hh i)
    (uprightCorners_inRectangle hw hh j) hp
  rw [← hcorners, ← hcorners, heq]
  exact mul_pos_iff_of_pos_left hk

theorem inside_uprightCorners_iff {w h : K} (hw : 0 < w) (hh : 0 < h) (p : Point K) :
    Inside (uprightCorners w h 0) (uprightCorners w h 1) (uprightCorners w h 2)
        (uprightCorners w h 3) p ↔
      0 < p.x ∧ p.x < w ∧ 0 < p.y ∧ p.y < h := by
  have hside : ∀ {a b : K}, 0 < a → (0 < a * b ↔ 0 < b) := mul_pos_iff_of_pos_left
  have hab : cross (uprightCorners w h 0) (uprightCorners w h 1) p = w * p.y := by
    simp [uprightCorners, cross]
  have hbc : cross (uprightCorners w h 1) (uprightCorners w h 2) p = h * (w - p.x) := by
    simp [uprightCorners, cross]
    ring
  have hcd : cross (uprightCorners w h 2) (uprightCorners w h 3) p = w * (h - p.y) := by
    simp [uprightCorners, cross]
    ring
  have hda : cross (uprightCorners w h 3) (uprightCorners w h 0) p = h * p.x := by
    simp [uprightCorners, cross]
  constructor
  · intro hp
    refine ⟨?_, ?_, ?_, ?_⟩
    · exact (hside hh).mp (hda ▸ hp.da)
    · exact sub_pos.mp ((hside hh).mp (hbc ▸ hp.bc))
    · exact (hside hw).mp (hab ▸ hp.ab)
    · exact sub_pos.mp ((hside hw).mp (hcd ▸ hp.cd))
  · intro ⟨hleft, hright, htop, hbottom⟩
    exact ⟨hab ▸ mul_pos hw htop, hbc ▸ mul_pos hh (sub_pos.mpr hright),
      hcd ▸ mul_pos hw (sub_pos.mpr hbottom), hda ▸ mul_pos hh hleft⟩

omit [IsStrictOrderedRing K] in
theorem noThreeOnLine_of_turns {q : Fin 4 → Point K}
    (hturns : Turns (q 0) (q 1) (q 2) (q 3)) : NoThreeOnLine q :=
  ⟨hturns.abc.ne', hturns.bcd.ne', hturns.cda.ne', hturns.dab.ne'⟩

/-- For four corners that turn one way, the determinant is positive, so the
transform has an inverse. -/
theorem RectangleEquations.homogeneousDet_pos {w h : K} (hw : 0 < w) (hh : 0 < h)
    {q : Fin 4 → Point K} {c : Fin 8 → K} (heq : RectangleEquations w h q q c)
    (hturns : Turns (q 0) (q 1) (q 2) (q 3)) : 0 < homogeneousDet c := by
  have hcorners := heq.corners (noThreeOnLine_of_turns hturns)
  have hmul := cross_projectiveXformPt (hcorners 3) (hcorners 0) (hcorners 1)
  have harea : cross (uprightCorners w h 3) (uprightCorners w h 0) (uprightCorners w h 1) =
      h * w := by
    simp [uprightCorners, cross]
  have hpos := fun i => heq.denominator_pos hw hh hturns (uprightCorners_inRectangle hw hh i)
  rw [harea] at hmul
  refine pos_of_mul_pos_left (b := h * w) ?_ (mul_pos hh hw).le
  rw [← hmul]
  exact mul_pos hturns.dab (mul_pos (mul_pos (hpos 3) (hpos 0)) (hpos 1))

/-- The transform that `gaussjordan` finds for a card's outline is defined on
the whole rectangle, and uprights the card. -/
theorem uprights_of_turns {w h : K} (hw : 0 < w) (hh : 0 < h) {q : Fin 4 → Point K}
    (hturns : Turns (q 0) (q 1) (q 2) (q 3)) :
    ∃ f, Uprights w h q f ∧ ∀ p, InRectangle w h p →
      projectiveXformPt (getProjectiveXformCoeffs (uprightCorners w h) q) p = some (f p) := by
  obtain ⟨_, heq⟩ := gaussjordan_corners hw.ne' hh.ne' hturns.bcd.ne'
  let c := getProjectiveXformCoeffs (uprightCorners w h) q
  change RectangleEquations w h q q c at heq
  let f : Point K → Point K := fun p => (projectiveXformPt c p).getD p
  have hsome : ∀ p, InRectangle w h p → projectiveXformPt c p = some (f p) := by
    intro p hp
    have hden := heq.denominator_pos hw hh hturns hp
    simp only [f, projectiveXformPt, hden.ne', if_false, Option.getD_some]
  have hcorners : ∀ i, f (uprightCorners w h i) = q i := by
    intro i
    have hi := heq.corners (noThreeOnLine_of_turns hturns) i
    exact Option.some.inj ((hsome _ (uprightCorners_inRectangle hw hh i)).symm.trans hi)
  have horient : ∀ {p p' p''}, InRectangle w h p → InRectangle w h p' → InRectangle w h p'' →
      ∃ k, 0 < k ∧ cross (f p) (f p') (f p'') = k * cross p p' p'' := by
    intro p p' p'' hp hp' hp''
    have hmul := cross_projectiveXformPt (hsome p hp) (hsome p' hp') (hsome p'' hp'')
    have hden := mul_pos (mul_pos (heq.denominator_pos hw hh hturns hp)
      (heq.denominator_pos hw hh hturns hp')) (heq.denominator_pos hw hh hturns hp'')
    refine ⟨_, div_pos (heq.homogeneousDet_pos hw hh hturns) hden, ?_⟩
    rw [div_mul_eq_mul_div, eq_div_iff hden.ne', hmul]
  refine ⟨f, ⟨hcorners, horient, ?_, injOn_of_orientation hw hh horient⟩, hsome⟩
  intro p hp
  have hside := fun i j => cross_side hw hh hcorners horient i j hp
  rw [← inside_uprightCorners_iff hw hh]
  constructor
  · intro hin
    exact ⟨(hside 0 1).mp hin.ab, (hside 1 2).mp hin.bc, (hside 2 3).mp hin.cd,
      (hside 3 0).mp hin.da⟩
  · intro hin
    exact ⟨(hside 0 1).mpr hin.ab, (hside 1 2).mpr hin.bc, (hside 2 3).mpr hin.cd,
      (hside 3 0).mpr hin.da⟩

/-- The trapezoid as the crop passes it on: in the pixels of the clipped
picture, whose corner is at `(bx, by)`. -/
def cropTrapezoid (scale bx bY : K) (trapezoid : Fin 4 → Point K) : Fin 4 → Point K :=
  fun i => ⟨(trapezoid i).x * scale - bx, (trapezoid i).y * scale - bY⟩

omit [LinearOrder K] [IsStrictOrderedRing K] in
/-- Scaling multiplies areas by its square, and moving changes none. -/
theorem cross_cropTrapezoid (scale bx bY : K) (trapezoid : Fin 4 → Point K) (i j k : Fin 4) :
    cross (cropTrapezoid scale bx bY trapezoid i) (cropTrapezoid scale bx bY trapezoid j)
        (cropTrapezoid scale bx bY trapezoid k) =
      scale * scale * cross (trapezoid i) (trapezoid j) (trapezoid k) := by
  unfold cropTrapezoid cross
  ring

/-- So the trapezoid turns as it did before. -/
theorem turns_cropTrapezoid {scale : K} (hscale : 0 < scale) (bx bY : K)
    {t : Fin 4 → Point K} (hturns : Turns (t 0) (t 1) (t 2) (t 3)) :
    Turns (cropTrapezoid scale bx bY t 0) (cropTrapezoid scale bx bY t 1)
      (cropTrapezoid scale bx bY t 2) (cropTrapezoid scale bx bY t 3) := by
  have hsq : 0 < scale * scale := mul_pos hscale hscale
  constructor <;> rw [cross_cropTrapezoid] <;> apply mul_pos hsq
  · exact hturns.abc
  · exact hturns.bcd
  · exact hturns.cda
  · exact hturns.dab

/-- **The crop sets a convex card upright.**  Every pixel of the upright
picture is taken from a point of the photo; the inner pixels are from inside
the card's outline, no two from one point, and what is on a line in the
picture is so in the photo. -/
theorem cropTransform_uprights {w h scale : K} (hw : 0 < w) (hh : 0 < h) (hscale : 0 < scale)
    (bx bY : K) {t : Fin 4 → Point K} (hturns : Turns (t 0) (t 1) (t 2) (t 3)) :
    ∃ f, Uprights w h (cropTrapezoid scale bx bY t) f ∧
      ∀ p, InRectangle w h p →
        projectiveXformPt (getProjectiveXformCoeffs (uprightCorners w h)
          (cropTrapezoid scale bx bY t)) p = some (f p) :=
  uprights_of_turns hw hh (turns_cropTrapezoid hscale bx bY hturns)

theorem slantedCard_turns :
    Turns (slantedCard 0) (slantedCard 1) (slantedCard 2) (slantedCard 3) := by
  constructor <;> simp [slantedCard, cross] <;> norm_num

/-- The same card in a picture of half the size. -/
theorem cropTransform_uprights_slanted :
    ∃ f, Uprights 4 2 (cropTrapezoid (1 / 2) 0 1 slantedCard) f ∧
      ∀ p, InRectangle 4 2 p →
        projectiveXformPt (getProjectiveXformCoeffs (uprightCorners 4 2)
          (cropTrapezoid (1 / 2) 0 1 slantedCard)) p = some (f p) :=
  cropTransform_uprights (by norm_num) (by norm_num) (by norm_num) 0 1
    slantedCard_turns

end Order

end CardScanner
