import CardScanner.Squares

/-!
# The corners of the card

`detectCardVisit` sorts the four corners of the chosen contour from top to
bottom and orders each half from left to right.  The result is the contour
itself, read from its top left corner, unless

* the upper two corners are opposite ones: then the diagonals could not cross;
* or they are neighbours and the lower two come out crossed (`Crossed`), the
  corner next to the top left one lying to the right.

In the second case both halves are wider than a fifth of the image.  Up to
reflections the contour turns in the positive direction and its lower right
side descends to the left; then the corner at the foot of the right side is too
far from a right angle, and so is one of the two corners on the left
(`crossed_foot`, `crossed_side`).  Only one corner is left unchecked, so one of
the two angles was tested.
-/

namespace CardScanner

open Plane

/-! ## The source -/

/-- The inner sorting loop: `p` stands at the index of the outer loop, and
each entry behind that lies above the one standing there changes places with
it.  Returns the entry left standing and those behind. -/
def exchangePass (p : Point ℤ) : List (Point ℤ) → Point ℤ × List (Point ℤ)
  | [] => (p, [])
  | q :: rest =>
    if p.y > q.y then
      ((exchangePass q rest).1, p :: (exchangePass q rest).2)
    else
      ((exchangePass p rest).1, q :: (exchangePass p rest).2)

/-- The outer loop, for the first `n` indices. -/
def exchangeSort : ℕ → List (Point ℤ) → List (Point ℤ)
  | n + 1, p :: rest => (exchangePass p rest).1 :: exchangeSort n (exchangePass p rest).2
  | _, l => l

/-- The whole image. -/
def fullImage (width height : ℤ) : List ℤ := [0, 0, width, 0, width, height, 0, height]

/-- The assignment of the sorted corners and the test for a card that is too
small. -/
def cardCorners (width height : ℤ) (largest_square : List (Point ℤ)) : List ℤ :=
  let p0 := Contour.at largest_square 0
  let p1 := Contour.at largest_square 1
  let p2 := Contour.at largest_square 2
  let p3 := Contour.at largest_square 3
  let tl := if p0.x < p1.x then p0 else p1
  let tr := if p0.x < p1.x then p1 else p0
  let bl := if p2.x < p3.x then p2 else p3
  let br := if p2.x < p3.x then p3 else p2
  if bl.y - tl.y ≤ height.tdiv 5 ∨ br.y - tr.y ≤ height.tdiv 5 ∨
      tr.x - tl.x ≤ width.tdiv 5 ∨ br.x - bl.x ≤ width.tdiv 5 then
    fullImage width height
  else
    [tl.x, tl.y, tr.x, tr.y, br.x, br.y, bl.x, bl.y]

/-- `detectCardVisit`, from the approximated contours; `none` is `NULL`. -/
def detectCardVisit (cv : ContourFunctions) (width height : ℤ)
    (contours : List (List (Point ℤ))) : Option (List ℤ) :=
  let largest_square := findLargestSquare cv (findSquares cv contours)
  if largest_square.length = 4 then
    some (cardCorners width height
      (exchangeSort (largest_square.length - 1) largest_square))
  else
    none

/-! ## Crossed halves -/

/-- The angle at `o` between `p` and `q` is near a right one. -/
def NearRight (o p q : Point ℤ) : Prop := 3 * |dot o p q| ≤ |cross o p q|

/-- Whether an angle is near a right one does not depend on the order of its
sides. -/
theorem NearRight.symm {o p q : Point ℤ} (h : NearRight o p q) : NearRight o q p := by
  have hdot : dot o q p = dot o p q := by
    unfold dot
    ring
  unfold NearRight
  rw [hdot, cross_swap, abs_neg]
  exact h

/-- All but at most one of four. -/
def AllButOne (A B C D : Prop) : Prop := (B ∧ C ∧ D) ∨ (A ∧ C ∧ D) ∨ (A ∧ B ∧ D) ∨ (A ∧ B ∧ C)

/-- At most one corner of the outline is not near a right angle. -/
def NearRectangle (a b c d : Point ℤ) : Prop :=
  AllButOne (NearRight a d b) (NearRight b a c) (NearRight c b d) (NearRight d c a)

/-- A rectangle may be read from any of its corners. -/
theorem NearRectangle.rotate {a b c d : Point ℤ} (h : NearRectangle a b c d) :
    NearRectangle b c d a := by
  unfold NearRectangle AllButOne at *
  tauto

theorem NearRectangle.reverse {a b c d : Point ℤ} (h : NearRectangle a b c d) :
    NearRectangle d c b a := by
  rcases h with ⟨hb, hc, hd⟩ | ⟨ha, hc, hd⟩ | ⟨ha, hb, hd⟩ | ⟨ha, hb, hc⟩
  · exact Or.inr (Or.inr (Or.inr ⟨hd.symm, hc.symm, hb.symm⟩))
  · exact Or.inr (Or.inr (Or.inl ⟨hd.symm, hc.symm, ha.symm⟩))
  · exact Or.inr (Or.inl ⟨hd.symm, hb.symm, ha.symm⟩)
  · exact Or.inl ⟨hc.symm, hb.symm, ha.symm⟩

/-- The foot of the right side in numbers: `(-S, T)` is that side and `(c, -d)`
the lower one.  `S c` exceeds a fifth of `S²`, and `T d` reaches `d²`. -/
theorem foot_bound {S T c d : ℤ} (hturn : 0 < S * d - T * c) (hc : 0 < c) (hd : 0 < d)
    (hTd : d ≤ T) (hspan : S < 5 * c) : S * d - T * c < 3 * (S * c + T * d) := by
  have hTc : 0 < T * c := mul_pos (by omega) hc
  have hS : 0 < S := by
    by_contra hS0
    have hneg : S * d ≤ 0 := mul_nonpos_of_nonpos_of_nonneg (by omega) hd.le
    omega
  have hfirst : S * S ≤ S * (5 * c) := mul_le_mul_of_nonneg_left hspan.le hS.le
  have hsecond : d * d ≤ T * d := mul_le_mul_of_nonneg_right hTd hd.le
  nlinarith [sq_nonneg (S - 2 * d)]

/-- The right side descends to the left and the lower one rises from its foot:
the angle between them is not near a right one. -/
theorem crossed_foot {tr Y X : Point ℤ} (hturn : 0 < cross tr Y X) (hrise : X.y < Y.y)
    (habove : tr.y ≤ X.y) (hlower : Y.x < X.x) (hspan : tr.x - Y.x < 5 * (X.x - Y.x)) :
    ¬ NearRight Y tr X := by
  intro hnear
  have hcross : cross tr Y X =
      (tr.x - Y.x) * (Y.y - X.y) - (Y.y - tr.y) * (X.x - Y.x) := by
    unfold cross
    ring
  have hdot : dot Y tr X = (tr.x - Y.x) * (X.x - Y.x) + (Y.y - tr.y) * (Y.y - X.y) := by
    unfold dot
    ring
  have hbound : cross tr Y X < 3 * dot Y tr X := by
    rw [hcross] at hturn ⊢
    rw [hdot]
    exact foot_bound hturn (by omega) (by omega) (by omega) hspan
  unfold NearRight at hnear
  rw [← cross_rotate, cross_swap, abs_neg, abs_of_pos hturn] at hnear
  linarith [le_abs_self (dot Y tr X)]

/-- The left side in numbers: `(a, b)` is the upper side, `(c, -d)` the lower
one and `(u, -v)` the way back to the top left corner.  Near right angles at
both ends make the outline wider than `5 a`. -/
theorem side_bound {a b c d u v : ℤ} (ha : 0 < a) (hc : 0 < c) (hd : 0 < d) (hv : 0 ≤ v)
    (hbv : b ≤ v) (hturn : 0 < d * u - c * v)
    (hfoot : 3 * (c * u + d * v) ≤ d * u - c * v)
    (htop : 3 * (a * u - b * v) ≤ a * v + b * u) : 5 * a < u + a + c := by
  have hcv : 0 ≤ c * v := mul_nonneg hc.le hv
  have hu : 0 < u := by
    by_contra hu0
    have hneg : d * u ≤ 0 := mul_nonpos_of_nonneg_of_nonpos hd.le (by omega)
    omega
  have hcu : 0 < c * u := mul_pos hc hu
  have hvu : 3 * v ≤ u := by
    by_contra hlt
    have hmul : d * u < d * (3 * v) := mul_lt_mul_of_pos_left (by omega) hd
    linarith
  have hba : 4 * a ≤ 3 * b := by
    by_contra hlt
    have hsum : 0 < u + 3 * v := by omega
    have hmul : 3 * b * (u + 3 * v) < 4 * a * (u + 3 * v) :=
      mul_lt_mul_of_pos_right (by omega) hsum
    have hgap : 0 ≤ a * (u - 3 * v) := mul_nonneg ha.le (by omega)
    nlinarith
  omega

/-- Then one of the two corners on the left is not near a right angle. -/
theorem crossed_side {tl tr Y X : Point ℤ} (hfoot : 0 < cross Y X tl) (htop : 0 < cross X tl tr)
    (hrise : X.y < Y.y) (hupper : tl.x < tr.x) (hlower : Y.x < X.x) (hleft : tl.y ≤ X.y)
    (habove : tr.y ≤ X.y) (hspan : tr.x - Y.x < 5 * (tr.x - tl.x)) :
    ¬ (NearRight tl X tr ∧ NearRight X Y tl) := by
  intro ⟨hnearTop, hnearFoot⟩
  have hcrossFoot : cross Y X tl = (Y.y - X.y) * (tl.x - X.x) - (X.x - Y.x) * (X.y - tl.y) := by
    unfold cross
    ring
  have hcrossTop : cross X tl tr = (tr.x - tl.x) * (X.y - tl.y) + (tr.y - tl.y) * (tl.x - X.x) := by
    unfold cross
    ring
  have hdotFoot : dot X Y tl = -((X.x - Y.x) * (tl.x - X.x) + (Y.y - X.y) * (X.y - tl.y)) := by
    unfold dot
    ring
  have hdotTop : dot tl X tr = -((tr.x - tl.x) * (tl.x - X.x) - (tr.y - tl.y) * (X.y - tl.y)) := by
    unfold dot
    ring
  unfold NearRight at hnearTop hnearFoot
  rw [← cross_rotate, cross_swap, abs_neg, abs_of_pos htop, hdotTop, abs_neg, hcrossTop]
    at hnearTop
  rw [← cross_rotate, cross_swap, abs_neg, abs_of_pos hfoot, hdotFoot, abs_neg, hcrossFoot]
    at hnearFoot
  rw [hcrossFoot] at hfoot
  have hwide := side_bound (sub_pos.mpr hupper) (sub_pos.mpr hlower) (sub_pos.mpr hrise)
    (sub_nonneg.mpr hleft) (sub_le_sub_right habove tl.y) hfoot
    ((mul_le_mul_of_nonneg_left (le_abs_self _) (by norm_num)).trans hnearFoot)
    ((mul_le_mul_of_nonneg_left (le_abs_self _) (by norm_num)).trans hnearTop)
  omega

/-- Two neighbouring corners above the other two, in an image `W` wide, both
pairs more than a fifth of it apart, such that the lower corner next to the
left upper one is to the right. -/
structure Crossed (W : ℤ) (tl tr Y X : Point ℤ) : Prop where
  width : 0 ≤ W
  upper : W < 5 * (tr.x - tl.x)
  lower : W < 5 * (X.x - Y.x)
  right : tr.x - Y.x ≤ W
  left : X.x - tl.x ≤ W
  above : tl.y ≤ X.y ∧ tl.y ≤ Y.y ∧ tr.y ≤ X.y ∧ tr.y ≤ Y.y
  corners : NearRectangle tl tr Y X

/-- No such outline turns in the positive direction with its lower side rising
from the foot of the right one. -/
theorem Crossed.not_turns_rising {W : ℤ} {tl tr Y X : Point ℤ} (h : Crossed W tl tr Y X)
    (hrise : X.y < Y.y) : ¬ Turns tl tr Y X := by
  intro hturns
  obtain ⟨hW, hupper, hlower, hright, _, ⟨hleft, _, habove, _⟩, hcorners⟩ := h
  have hfoot : ¬ NearRight Y tr X :=
    crossed_foot hturns.bcd hrise habove (by omega) (by omega)
  have hside : ¬ (NearRight tl X tr ∧ NearRight X Y tl) :=
    crossed_side hturns.cda hturns.dab hrise (by omega) (by omega) hleft habove (by omega)
  rcases hcorners with ⟨_, hY, _⟩ | ⟨_, hY, _⟩ | ⟨htl, _, hX⟩ | ⟨_, _, hY⟩
  · exact hfoot hY
  · exact hfoot hY
  · exact hside ⟨htl, hX⟩
  · exact hfoot hY

/-! Reflections exchange left with right and above with below. -/

def flipX (p : Point ℤ) : Point ℤ := ⟨-p.x, p.y⟩

def flipY (p : Point ℤ) : Point ℤ := ⟨p.x, -p.y⟩

/-- Turns change their side, angles stay. -/
structure Mirror (f : Point ℤ → Point ℤ) : Prop where
  cross : ∀ o p q, cross (f o) (f p) (f q) = -cross o p q
  dot : ∀ o p q, dot (f o) (f p) (f q) = dot o p q

theorem mirror_flipX : Mirror flipX where
  cross o p q := by
    unfold Plane.cross flipX
    ring
  dot o p q := by
    unfold Plane.dot flipX
    ring

theorem mirror_flipY : Mirror flipY where
  cross o p q := by
    unfold Plane.cross flipY
    ring
  dot o p q := by
    unfold Plane.dot flipY
    ring

/-- A mirror keeps angles: dot products and lengths are what they were. -/
theorem Mirror.nearRight {f : Point ℤ → Point ℤ} (hf : Mirror f) {o p q : Point ℤ}
    (h : NearRight o p q) : NearRight (f o) (f p) (f q) := by
  unfold NearRight
  rw [hf.dot, hf.cross, abs_neg]
  exact h

/-- So it keeps rectangles, and one case of the crossed corners stands for its
mirror images. -/
theorem Mirror.nearRectangle {f : Point ℤ → Point ℤ} (hf : Mirror f) {a b c d : Point ℤ}
    (h : NearRectangle a b c d) : NearRectangle (f a) (f b) (f c) (f d) := by
  rcases h with ⟨hb, hc, hd⟩ | ⟨ha, hc, hd⟩ | ⟨ha, hb, hd⟩ | ⟨ha, hb, hc⟩
  · exact Or.inl ⟨hf.nearRight hb, hf.nearRight hc, hf.nearRight hd⟩
  · exact Or.inr (Or.inl ⟨hf.nearRight ha, hf.nearRight hc, hf.nearRight hd⟩)
  · exact Or.inr (Or.inr (Or.inl ⟨hf.nearRight ha, hf.nearRight hb, hf.nearRight hd⟩))
  · exact Or.inr (Or.inr (Or.inr ⟨hf.nearRight ha, hf.nearRight hb, hf.nearRight hc⟩))

/-- Exchanging left and right exchanges the upper corners with each other, and
the lower. -/
theorem Crossed.flipX {W : ℤ} {tl tr Y X : Point ℤ} (h : Crossed W tl tr Y X) :
    Crossed W (flipX tr) (flipX tl) (flipX X) (flipX Y) := by
  obtain ⟨hW, hupper, hlower, hright, hleft, ⟨h1, h2, h3, h4⟩, hcorners⟩ := h
  refine ⟨hW, ?_, ?_, ?_, ?_, ⟨h4, h3, h2, h1⟩,
    (mirror_flipX.nearRectangle hcorners).reverse.rotate.rotate⟩
  all_goals
    simp only [CardScanner.flipX]
    omega

/-- Exchanging top and bottom exchanges the upper corners with the lower. -/
theorem Crossed.flipY {W : ℤ} {tl tr Y X : Point ℤ} (h : Crossed W tl tr Y X) :
    Crossed W (flipY Y) (flipY X) (flipY tl) (flipY tr) := by
  obtain ⟨hW, hupper, hlower, hright, hleft, ⟨h1, h2, h3, h4⟩, hcorners⟩ := h
  refine ⟨hW, hlower, hupper, ?_, ?_, ?_, (mirror_flipY.nearRectangle hcorners).rotate.rotate⟩
  · exact hleft
  · exact hright
  · simp only [CardScanner.flipY]
    omega

/-- No such outline turns in the positive direction.  If its lower side is
level, that side runs back over the foot of the right one. -/
theorem Crossed.not_turns {W : ℤ} {tl tr Y X : Point ℤ} (h : Crossed W tl tr Y X) :
    ¬ Turns tl tr Y X := by
  intro hturns
  rcases lt_trichotomy X.y Y.y with hrise | hlevel | hfall
  · exact h.not_turns_rising hrise hturns
  · have hpos := hturns.bcd
    have hdown : 0 ≤ Y.y - tr.y := by linarith [h.above.2.2.2]
    have hback : 0 ≤ X.x - Y.x := by linarith [h.width, h.lower]
    have hneg : cross tr Y X = -((Y.y - tr.y) * (X.x - Y.x)) := by
      unfold cross
      rw [hlevel]
      ring
    linarith [mul_nonneg hdown hback]
  · exact h.flipX.not_turns_rising hfall (hturns.rotate.rotate.mirror mirror_flipX.cross)

/-- **The lower halves are not crossed.**  A convex outline turns one way; the
one direction is excluded by `Crossed.not_turns`, and the other by the same
lemma for the outline in the mirror. -/
theorem Crossed.not_convex {W : ℤ} {tl tr Y X : Point ℤ} (h : Crossed W tl tr Y X) :
    ¬ Convex tl tr Y X := by
  intro hconvex
  rcases hconvex with hturns | hturns
  · exact h.not_turns hturns
  · exact h.flipY.not_turns (hturns.rotate.rotate.mirror mirror_flipY.cross)

/-! ## The sort -/

theorem exchangePass_perm (p : Point ℤ) (l : List (Point ℤ)) :
    ((exchangePass p l).1 :: (exchangePass p l).2).Perm (p :: l) := by
  induction l generalizing p with
  | nil => exact List.Perm.refl _
  | cons q rest ih =>
      unfold exchangePass
      split_ifs with habove
      · exact (List.Perm.swap _ _ _).trans ((ih q).cons p)
      · exact ((List.Perm.swap _ _ _).trans ((ih p).cons q)).trans (List.Perm.swap _ _ _)

/-- After a pass the first element is the highest on the screen of all it has
been compared with. -/
theorem exchangePass_le (p : Point ℤ) (l : List (Point ℤ)) :
    (exchangePass p l).1.y ≤ p.y ∧ ∀ q ∈ (exchangePass p l).2, (exchangePass p l).1.y ≤ q.y := by
  induction l generalizing p with
  | nil => exact ⟨le_rfl, fun q hq => absurd hq List.not_mem_nil⟩
  | cons q rest ih =>
      unfold exchangePass
      split_ifs with habove
      · obtain ⟨hstand, hbehind⟩ := ih q
        have hbelow := hstand.trans habove.le
        refine ⟨hbelow, ?_⟩
        intro r hr
        rcases List.mem_cons.mp hr with rfl | hr
        · exact hbelow
        · exact hbehind r hr
      · obtain ⟨hstand, hbehind⟩ := ih p
        refine ⟨hstand, ?_⟩
        intro r hr
        rcases List.mem_cons.mp hr with rfl | hr
        · exact hstand.trans (not_lt.mp habove)
        · exact hbehind r hr

theorem exchangeSort_perm (n : ℕ) (l : List (Point ℤ)) : (exchangeSort n l).Perm l := by
  induction n generalizing l with
  | zero => exact List.Perm.refl _
  | succ n ih =>
      cases l with
      | nil => exact List.Perm.refl _
      | cons p rest => exact ((ih _).cons _).trans (exchangePass_perm p rest)

/-- The outer loop sorts when it reaches all indices but the last.  Each turn
of it brings the least point that is left to the front. -/
theorem exchangeSort_sorted (n : ℕ) (l : List (Point ℤ)) (hlength : l.length ≤ n + 1) :
    (exchangeSort n l).Pairwise fun p q => p.y ≤ q.y := by
  induction n generalizing l with
  | zero =>
      cases l with
      | nil => exact List.Pairwise.nil
      | cons p rest =>
          have hrest : rest = [] := by
            rw [List.length_cons] at hlength
            exact List.length_eq_zero_iff.mp (by omega)
          rw [hrest]
          exact List.pairwise_singleton _ p
  | succ n ih =>
      cases l with
      | nil => exact List.Pairwise.nil
      | cons p rest =>
          have hbehind : (exchangePass p rest).2.length = rest.length :=
            Nat.succ_injective (exchangePass_perm p rest).length_eq
          rw [List.length_cons] at hlength
          refine List.Pairwise.cons ?_ (ih _ (by omega))
          intro q hq
          exact (exchangePass_le p rest).2 q ((exchangeSort_perm n _).mem_iff.mp hq)

/-! ## The corners -/

/-- An accepted corner is near a right angle: the square of its cosine is
below that of the code's bound. -/
theorem nearRight_of_angleSq_lt {pt1 pt2 pt0 : Point ℤ} (h : angleSq pt1 pt2 pt0 < 9 / 100) :
    NearRight pt0 pt1 pt2 := by
  have hfirst := dot_self_nonneg pt0 pt1
  have hsecond := dot_self_nonneg pt0 pt2
  have hprod : (0 : ℚ) ≤ (dot pt0 pt1 pt1 : ℤ) * (dot pt0 pt2 pt2 : ℤ) := by
    exact_mod_cast mul_nonneg hfirst hsecond
  unfold angleSq at h
  rw [div_lt_iff₀ (by positivity)] at h
  have hint : 100 * dot pt0 pt1 pt2 ^ 2 < 9 * (dot pt0 pt1 pt1 * dot pt0 pt2 pt2) + 1 := by
    have hrat : (100 : ℚ) * (dot pt0 pt1 pt2 : ℤ) ^ 2 <
        9 * ((dot pt0 pt1 pt1 : ℤ) * (dot pt0 pt2 pt2 : ℤ)) + 1 := by
      linarith
    exact_mod_cast hrat
  rw [← dot_sq_add_cross_sq] at hint
  have hsq : (3 * dot pt0 pt1 pt2) ^ 2 ≤ cross pt0 pt1 pt2 ^ 2 := by
    nlinarith [sq_nonneg (dot pt0 pt1 pt2)]
  have habs := sq_le_sq.mp hsq
  rw [abs_mul] at habs
  exact habs

/-- What `find_squares` has tested: a convex outline, at most one of its
corners away from a right angle. -/
def CardOutline (a b c d : Point ℤ) : Prop := Convex a b c d ∧ NearRectangle a b c d

/-- An accepted outline may be read from any of its corners. -/
theorem CardOutline.rotate {a b c d : Point ℤ} (h : CardOutline a b c d) : CardOutline b c d a :=
  ⟨h.1.rotate, h.2.rotate⟩

theorem CardOutline.reverse {a b c d : Point ℤ} (h : CardOutline a b c d) : CardOutline d c b a :=
  ⟨h.1.reverse, h.2.reverse⟩

/-- What `is_square` accepts has four corners, and is nearly a rectangle. -/
theorem cardOutline_of_isSquare {cv : ContourFunctions} {approx : List (Point ℤ)}
    (h : isSquare cv approx = true) :
    ∃ a b c d, approx = [a, b, c, d] ∧ CardOutline a b c d := by
  obtain ⟨hlength, _, hconvex, hcosine⟩ := of_decide_eq_true h
  obtain ⟨a, b, c, d, rfl⟩ := List.length_eq_four.mp hlength
  have hmax : max (max (max 0 (angleSq c a b)) (angleSq d b c)) (angleSq a c d) < 9 / 100 :=
    hcosine
  rw [max_lt_iff, max_lt_iff, max_lt_iff] at hmax
  obtain ⟨⟨⟨_, hb⟩, hc⟩, hd⟩ := hmax
  exact ⟨a, b, c, d, rfl, cv.convex a b c d hconvex,
    Or.inl ⟨(nearRight_of_angleSq_lt hb).symm, (nearRight_of_angleSq_lt hc).symm,
      (nearRight_of_angleSq_lt hd).symm⟩⟩

/-- Left and right told apart in the upper and in the lower half: the outline
itself is read, when all four differences are large enough.  Were the two
upper corners opposite ones, all four would be at one height. -/
theorem convex_of_halves {width height : ℤ} {p0 p1 p2 p3 tl tr bl br : Point ℤ}
    (houtline : CardOutline p0 p1 p2 p3 ∨ CardOutline p0 p1 p3 p2 ∨ CardOutline p0 p2 p1 p3)
    (hupper : p0.y ≤ p1.y) (hmiddle : p1.y ≤ p2.y) (hlower : p2.y ≤ p3.y)
    (htop : (tl = p0 ∧ tr = p1) ∨ (tl = p1 ∧ tr = p0))
    (hbottom : (bl = p2 ∧ br = p3) ∨ (bl = p3 ∧ br = p2))
    (hheight : 0 ≤ height) (hleft : height.tdiv 5 < bl.y - tl.y)
    (htopWidth : width.tdiv 5 < tr.x - tl.x) (hbottomWidth : width.tdiv 5 < br.x - bl.x)
    (hx : ∀ p ∈ [p0, p1, p2, p3], 0 ≤ p.x ∧ p.x ≤ width) : Convex tl tr br bl := by
  simp only [List.forall_mem_cons] at hx
  obtain ⟨hx0, hx1, hx2, hx3, _⟩ := hx
  have hwidth : 0 ≤ width := by omega
  rw [Int.tdiv_eq_ediv_of_nonneg hheight] at hleft
  rw [Int.tdiv_eq_ediv_of_nonneg hwidth] at htopWidth hbottomWidth
  obtain ⟨Y, X, hcard, hpair⟩ : ∃ Y X, CardOutline tl tr Y X ∧
      ((Y = p2 ∧ X = p3) ∨ (Y = p3 ∧ X = p2)) := by
    rcases houtline with h | h | h
    · rcases htop with ⟨rfl, rfl⟩ | ⟨rfl, rfl⟩
      · exact ⟨p2, p3, h, Or.inl ⟨rfl, rfl⟩⟩
      · exact ⟨p3, p2, h.reverse.rotate.rotate, Or.inr ⟨rfl, rfl⟩⟩
    · rcases htop with ⟨rfl, rfl⟩ | ⟨rfl, rfl⟩
      · exact ⟨p3, p2, h, Or.inr ⟨rfl, rfl⟩⟩
      · exact ⟨p2, p3, h.reverse.rotate.rotate, Or.inl ⟨rfl, rfl⟩⟩
    · obtain ⟨h1, h2, h3⟩ := h.1.level (by omega) (by omega) (by omega) (by omega)
      rcases htop with ⟨rfl, rfl⟩ | ⟨rfl, rfl⟩ <;>
        rcases hbottom with ⟨rfl, rfl⟩ | ⟨rfl, rfl⟩ <;> omega
  have hends : (Y = br ∧ X = bl) ∨ (Y = bl ∧ X = br) := by
    rcases hpair with ⟨rfl, rfl⟩ | ⟨rfl, rfl⟩ <;> rcases hbottom with ⟨rfl, rfl⟩ | ⟨rfl, rfl⟩
    · exact Or.inr ⟨rfl, rfl⟩
    · exact Or.inl ⟨rfl, rfl⟩
    · exact Or.inl ⟨rfl, rfl⟩
    · exact Or.inr ⟨rfl, rfl⟩
  rcases hends with ⟨rfl, rfl⟩ | ⟨rfl, rfl⟩
  · exact hcard.1
  · have hcrossed : Crossed width tl tr Y X := by
      rcases htop with ⟨rfl, rfl⟩ | ⟨rfl, rfl⟩ <;>
        rcases hbottom with ⟨rfl, rfl⟩ | ⟨rfl, rfl⟩ <;>
        refine ⟨hwidth, ?_, ?_, ?_, ?_, ⟨?_, ?_, ?_, ?_⟩, hcard.2⟩ <;> omega
    exact absurd hcard.1 hcrossed.not_convex

/-- The eight values list the corners of a square, each once, from the top left
one around: left ones left of right ones, upper ones above lower ones, and the
outline that joins them in this order does not cross itself. -/
def Arranged (square : List (Point ℤ)) (listPoint : List ℤ) : Prop :=
  ∃ tl tr br bl : Point ℤ,
    listPoint = [tl.x, tl.y, tr.x, tr.y, br.x, br.y, bl.x, bl.y] ∧
    [tl, tr, br, bl].Perm square ∧
    tl.x < tr.x ∧ bl.x < br.x ∧ tl.y < bl.y ∧ tr.y < br.y ∧
    SimpleOutline (Point.ofInt tl : Point ℚ) (Point.ofInt tr) (Point.ofInt br) (Point.ofInt bl)

/-- Whatever the order in which the sorted corners follow one another on the
outline, the two upper and the two lower ones are told apart rightly, or the
full image is taken. -/
theorem cardCorners_arranged {width height : ℤ} {p0 p1 p2 p3 : Point ℤ}
    (houtline : CardOutline p0 p1 p2 p3 ∨ CardOutline p0 p1 p3 p2 ∨ CardOutline p0 p2 p1 p3)
    (hupper : p0.y ≤ p1.y) (hmiddle : p1.y ≤ p2.y) (hlower : p2.y ≤ p3.y)
    (hheight : 0 ≤ height) (hx : ∀ p ∈ [p0, p1, p2, p3], 0 ≤ p.x ∧ p.x ≤ width) :
    cardCorners width height [p0, p1, p2, p3] = fullImage width height ∨
      Arranged [p0, p1, p2, p3] (cardCorners width height [p0, p1, p2, p3]) := by
  obtain ⟨tl, tr, htop, htl, htr⟩ : ∃ tl tr, ((tl = p0 ∧ tr = p1) ∨ (tl = p1 ∧ tr = p0)) ∧
      (if p0.x < p1.x then p0 else p1) = tl ∧ (if p0.x < p1.x then p1 else p0) = tr := by
    split_ifs
    · exact ⟨p0, p1, Or.inl ⟨rfl, rfl⟩, rfl, rfl⟩
    · exact ⟨p1, p0, Or.inr ⟨rfl, rfl⟩, rfl, rfl⟩
  obtain ⟨bl, br, hbottom, hbl, hbr⟩ : ∃ bl br, ((bl = p2 ∧ br = p3) ∨ (bl = p3 ∧ br = p2)) ∧
      (if p2.x < p3.x then p2 else p3) = bl ∧ (if p2.x < p3.x then p3 else p2) = br := by
    split_ifs
    · exact ⟨p2, p3, Or.inl ⟨rfl, rfl⟩, rfl, rfl⟩
    · exact ⟨p3, p2, Or.inr ⟨rfl, rfl⟩, rfl, rfl⟩
  have hvalues : cardCorners width height [p0, p1, p2, p3] =
      if bl.y - tl.y ≤ height.tdiv 5 ∨ br.y - tr.y ≤ height.tdiv 5 ∨
          tr.x - tl.x ≤ width.tdiv 5 ∨ br.x - bl.x ≤ width.tdiv 5 then fullImage width height
      else [tl.x, tl.y, tr.x, tr.y, br.x, br.y, bl.x, bl.y] := by
    rw [← htl, ← htr, ← hbl, ← hbr]
    rfl
  rw [hvalues]
  split_ifs with hsmall
  · exact Or.inl rfl
  · simp only [not_or, not_le] at hsmall
    obtain ⟨hleft, hright, htopWidth, hbottomWidth⟩ := hsmall
    have hconvex := convex_of_halves houtline hupper hmiddle hlower htop hbottom hheight hleft
      htopWidth hbottomWidth hx
    have hperm : [tl, tr, br, bl].Perm [p0, p1, p2, p3] := by
      have htopPerm : [tl, tr].Perm [p0, p1] := by
        rcases htop with ⟨rfl, rfl⟩ | ⟨rfl, rfl⟩
        · exact List.Perm.refl _
        · exact List.Perm.swap _ _ _
      have hbottomPerm : [br, bl].Perm [p2, p3] := by
        rcases hbottom with ⟨rfl, rfl⟩ | ⟨rfl, rfl⟩
        · exact List.Perm.swap _ _ _
        · exact List.Perm.refl _
      exact htopPerm.append hbottomPerm
    have hwidth : 0 ≤ width := by
      have hx0 := hx p0 List.mem_cons_self
      omega
    rw [Int.tdiv_eq_ediv_of_nonneg hheight] at hleft hright
    rw [Int.tdiv_eq_ediv_of_nonneg hwidth] at htopWidth hbottomWidth
    exact Or.inr ⟨tl, tr, br, bl, rfl, hperm, by omega, by omega, by omega, by omega,
      hconvex.ofInt.simple⟩

/-- **The card's corners in order.**  When `find_squares` finds a square among
contours inside the image, the eight values are the whole image or the corners
of the square chosen as largest, arranged from the top left one. -/
theorem detectCardVisit_corners (cv : ContourFunctions) {width height : ℤ}
    {contours : List (List (Point ℤ))}
    (hinside : ∀ c ∈ contours, ∀ p ∈ c, 0 ≤ p.x ∧ p.x ≤ width ∧ 0 ≤ p.y ∧ p.y ≤ height)
    (hfound : findSquares cv contours ≠ []) :
    ∃ listPoint, detectCardVisit cv width height contours = some listPoint ∧
      (listPoint = fullImage width height ∨
        Arranged (findLargestSquare cv (findSquares cv contours)) listPoint) := by
  have hmem := findLargestSquare_mem cv hfound
  obtain ⟨hcontour, hsquare⟩ := List.mem_filter.mp hmem
  obtain ⟨a, b, c, d, hlargest, hcard⟩ := cardOutline_of_isSquare hsquare
  have hcorners := hinside _ hcontour
  rw [hlargest] at hcorners
  have hperm := exchangeSort_perm 3 [a, b, c, d]
  obtain ⟨p0, p1, p2, p3, hsort⟩ := List.length_eq_four.mp hperm.length_eq
  have hsorted := exchangeSort_sorted 3 [a, b, c, d] le_rfl
  rw [hsort] at hperm hsorted
  have houtline := outline_of_perm (R := CardOutline) CardOutline.rotate
    CardOutline.reverse hcard hperm
  simp only [List.pairwise_cons, List.forall_mem_cons] at hsorted
  obtain ⟨⟨hupper, _⟩, ⟨hmiddle, _⟩, ⟨hlower, _⟩, _⟩ := hsorted
  have hheight : 0 ≤ height := by
    have ha := hcorners a List.mem_cons_self
    omega
  have hx : ∀ p ∈ [p0, p1, p2, p3], 0 ≤ p.x ∧ p.x ≤ width := by
    intro p hp
    have hin := hcorners p (hperm.mem_iff.mp hp)
    exact ⟨hin.1, hin.2.1⟩
  refine ⟨cardCorners width height [p0, p1, p2, p3], ?_, ?_⟩
  · unfold detectCardVisit
    rw [hlargest, ← hsort]
    rfl
  · rw [hlargest]
    refine (cardCorners_arranged houtline hupper hmiddle hlower hheight hx).imp_right ?_
    intro ⟨tl, tr, br, bl, hvalues, harranged, hrest⟩
    exact ⟨tl, tr, br, bl, hvalues, harranged.trans hperm, hrest⟩

/-- A card in a 100 by 100 image. -/
theorem detectCardVisit_corners_card :
    ∃ listPoint, detectCardVisit computedContours 100 100 [squareOf 90] = some listPoint ∧
      (listPoint = fullImage 100 100 ∨
        Arranged (findLargestSquare computedContours (findSquares computedContours [squareOf 90]))
          listPoint) :=
  detectCardVisit_corners computedContours (by decide +kernel) (by decide +kernel)

end CardScanner
