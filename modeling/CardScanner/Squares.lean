import CardScanner.Plane
import Mathlib.Analysis.Real.Sqrt

/-!
# Looking for the card

`find_squares` keeps the approximated contours that look like a card: four
corners, an area above 1000, convex, three of the corner angles near a right
angle.  `find_largest_square` is to pick the largest of them, and
`detectCardVisit` sorts its corners from top to bottom and tells left from
right in each half.

`find_largest_square` compares each area with the variable `area`, which it
never sets: every square of positive area replaces the one before, and the last
one is returned.

Contours have integer coordinates.  `angle` is a real number; the tests on it
are made on its square, which is rational.
-/

namespace CardScanner

open Plane

/-- The two functions of the image library that look at a contour.  A contour
of four points is reported convex only when it is. -/
structure ContourFunctions where
  contourArea : List (Point ℤ) → ℚ
  isContourConvex : List (Point ℤ) → Bool
  convex : ∀ a b c d, isContourConvex [a, b, c, d] = true → Convex a b c d

/-! ## The angle at a corner -/

/-- `angle`: the cosine at `pt0`. -/
noncomputable def angle (pt1 pt2 pt0 : Point ℤ) : ℝ :=
  ((dot pt0 pt1 pt2 : ℤ) : ℝ) /
    √((dot pt0 pt1 pt1 : ℤ) * (dot pt0 pt2 pt2 : ℤ) + 1 / 10 ^ 10)

/-- The square of `angle`. -/
def angleSq (pt1 pt2 pt0 : Point ℤ) : ℚ :=
  ((dot pt0 pt1 pt2 : ℤ) : ℚ) ^ 2 /
    ((dot pt0 pt1 pt1 : ℤ) * (dot pt0 pt2 pt2 : ℤ) + 1 / 10 ^ 10)

/-- The square of the cosine is rational, so angles are compared without
taking roots. -/
theorem angle_sq (pt1 pt2 pt0 : Point ℤ) : angle pt1 pt2 pt0 ^ 2 = angleSq pt1 pt2 pt0 := by
  have hfirst : (0 : ℝ) ≤ (dot pt0 pt1 pt1 : ℤ) := by exact_mod_cast dot_self_nonneg pt0 pt1
  have hsecond : (0 : ℝ) ≤ (dot pt0 pt2 pt2 : ℤ) := by exact_mod_cast dot_self_nonneg pt0 pt2
  unfold angle angleSq
  rw [div_pow, Real.sq_sqrt (by positivity)]
  push_cast
  rfl

/-- The test on the cosine is the test on its square, as both sides are not
negative. -/
theorem abs_angle_lt_iff (pt1 pt2 pt0 : Point ℤ) :
    |angle pt1 pt2 pt0| < 3 / 10 ↔ angleSq pt1 pt2 pt0 < 9 / 100 := by
  have hsq : |angle pt1 pt2 pt0| < 3 / 10 ↔ angle pt1 pt2 pt0 ^ 2 < (3 / 10) ^ 2 :=
    ⟨fun h => sq_lt_sq' (by linarith [neg_abs_le (angle pt1 pt2 pt0)])
      ((le_abs_self _).trans_lt h), fun h => abs_lt_of_sq_lt_sq h (by norm_num)⟩
  rw [hsq, angle_sq]
  constructor
  · intro h
    have hcast : ((angleSq pt1 pt2 pt0 : ℚ) : ℝ) < ((9 / 100 : ℚ) : ℝ) := by
      push_cast
      linarith
    exact_mod_cast hcast
  · intro h
    have hcast : ((angleSq pt1 pt2 pt0 : ℚ) : ℝ) < ((9 / 100 : ℚ) : ℝ) := by exact_mod_cast h
    push_cast at hcast
    linarith

/-! ## The source -/

/-- The entry of a contour; no index below is out of range. -/
def Contour.at (approx : List (Point ℤ)) (j : ℕ) : Point ℤ := approx.getD j ⟨0, 0⟩

/-- `maxCosine`, squared: the corners with index 1, 2 and 3. -/
def maxCosineSq (approx : List (Point ℤ)) : ℚ :=
  [2, 3, 4].foldl (fun maxCosine j => max maxCosine
    (angleSq (Contour.at approx (j % 4)) (Contour.at approx (j - 2)) (Contour.at approx (j - 1)))) 0

section Source

variable (cv : ContourFunctions)

/-- The tests of `find_squares` on one approximated contour. -/
def isSquare (approx : List (Point ℤ)) : Bool :=
  approx.length = 4 ∧ |cv.contourArea approx| > 1000 ∧ cv.isContourConvex approx ∧
    maxCosineSq approx < 9 / 100

/-- `find_squares`, from the approximated contours. -/
def findSquares (contours : List (List (Point ℤ))) : List (List (Point ℤ)) :=
  contours.filter fun approx => isSquare cv approx

/-- `find_largest_square`.  `area` is compared with in every turn, and never
assigned. -/
def findLargestSquare (squares : List (List (Point ℤ))) : List (Point ℤ) :=
  if squares.length = 0 then []
  else
    let area : ℤ := 0
    let max_square_idx := (List.range squares.length).foldl
      (fun max_square_idx i =>
        if cv.contourArea (squares.getD i []) > area then i else max_square_idx) 0
    squares.getD max_square_idx []

end Source

/-! ## The largest square -/

/-- A loop that keeps the last index it accepts ends with the last one, if that
is accepted. -/
theorem foldl_range_last (accepts : ℕ → Prop) [DecidablePred accepts] (n best : ℕ)
    (h : accepts n) :
    (List.range (n + 1)).foldl (fun best i => if accepts i then i else best) best = n := by
  rw [List.range_succ, List.foldl_append, List.foldl_cons, List.foldl_nil, if_pos h]

/-- `find_largest_square` returns the last square of positive area, whatever
the areas of those before it. -/
theorem findLargestSquare_eq_getLast (cv : ContourFunctions) {squares : List (List (Point ℤ))}
    (hne : squares ≠ []) (hpos : 0 < cv.contourArea (squares.getLast hne)) :
    findLargestSquare cv squares = squares.getLast hne := by
  obtain ⟨n, hn⟩ : ∃ n, squares.length = n + 1 :=
    Nat.exists_eq_succ_of_ne_zero (List.length_pos_of_ne_nil hne).ne'
  have hlast : squares.getD n [] = squares.getLast hne := by
    have hindex : squares.length - 1 = n := by omega
    simp only [List.getLast_eq_getElem, hindex]
    rw [List.getD_eq_getElem?_getD, List.getElem?_eq_getElem (by omega), Option.getD_some]
  unfold findLargestSquare
  rw [if_neg (by omega), hn]
  have haccepts : cv.contourArea (squares.getD n []) > ((0 : ℤ) : ℚ) := by
    rw [hlast]
    exact_mod_cast hpos
  simp only
  rw [foldl_range_last (fun i => cv.contourArea (squares.getD i []) > ((0 : ℤ) : ℚ)) n 0 haccepts,
    hlast]

/-- A loop that keeps one of the indices it passes ends with one of them. -/
theorem foldl_range_lt (accepts : ℕ → Prop) [DecidablePred accepts] (n : ℕ) :
    (List.range (n + 1)).foldl (fun best i => if accepts i then i else best) 0 < n + 1 := by
  induction n with
  | zero => simp
  | succ n ih =>
      rw [List.range_succ, List.foldl_append, List.foldl_cons, List.foldl_nil]
      split_ifs
      · exact Nat.lt_succ_self _
      · exact ih.trans (Nat.lt_succ_self _)

/-- What is returned is one of the squares. -/
theorem findLargestSquare_mem (cv : ContourFunctions) {squares : List (List (Point ℤ))}
    (hne : squares ≠ []) : findLargestSquare cv squares ∈ squares := by
  obtain ⟨n, hn⟩ : ∃ n, squares.length = n + 1 :=
    Nat.exists_eq_succ_of_ne_zero (List.length_pos_of_ne_nil hne).ne'
  have hlt := foldl_range_lt (fun i => cv.contourArea (squares.getD i []) > ((0 : ℤ) : ℚ)) n
  rw [← hn] at hlt
  unfold findLargestSquare
  rw [if_neg (by omega), List.getD_eq_getElem?_getD, List.getElem?_eq_getElem hlt,
    Option.getD_some]
  exact List.getElem_mem hlt

/-- **When the largest square is found.**  Among squares of positive area the
one returned is a largest one exactly when the last one is: the greatest area
so far is never stored, so every later square replaces the one before. -/
theorem findLargestSquare_largest_iff (cv : ContourFunctions)
    {squares : List (List (Point ℤ))} (hne : squares ≠ [])
    (hpos : ∀ s ∈ squares, 0 < cv.contourArea s) :
    (findLargestSquare cv squares ∈ squares ∧
        ∀ s ∈ squares, cv.contourArea s ≤ cv.contourArea (findLargestSquare cv squares)) ↔
      ∀ s ∈ squares, cv.contourArea s ≤ cv.contourArea (squares.getLast hne) := by
  have hmem := List.getLast_mem hne
  rw [findLargestSquare_eq_getLast cv hne (hpos _ hmem)]
  exact ⟨fun h => h.2, fun h => ⟨hmem, h⟩⟩

/-! The contour functions, computed: Green's formula for the area, and the turns
at the four corners. -/

/-- The sum of Green's formula over a closed contour, entered from `prev`. -/
def greenSum (prev : Point ℤ) : List (Point ℤ) → ℤ
  | [] => 0
  | p :: rest => prev.x * p.y - prev.y * p.x + greenSum p rest

def greenArea (c : List (Point ℤ)) : ℚ :=
  match c.getLast? with
  | none => 0
  | some prev => |(greenSum prev c : ℚ)| / 2

instance (a b c d : Point ℤ) : Decidable (Turns a b c d) :=
  decidable_of_iff (0 < cross a b c ∧ 0 < cross b c d ∧ 0 < cross c d a ∧ 0 < cross d a b)
    ⟨fun ⟨h1, h2, h3, h4⟩ => ⟨h1, h2, h3, h4⟩, fun h => ⟨h.abc, h.bcd, h.cda, h.dab⟩⟩

instance (a b c d : Point ℤ) : Decidable (Convex a b c d) :=
  inferInstanceAs (Decidable (Turns a b c d ∨ Turns d c b a))

def computedContours : ContourFunctions where
  contourArea := greenArea
  isContourConvex
    | [a, b, c, d] => Convex a b c d
    | _ => false
  convex := fun _ _ _ _ h => of_decide_eq_true h

/-- A square with its upper left corner at the origin. -/
def squareOf (side : ℤ) : List (Point ℤ) := [⟨0, 0⟩, ⟨side, 0⟩, ⟨side, side⟩, ⟨0, side⟩]

/-- A small and a large square, in this order. -/
theorem findLargestSquare_largest_iff_two :
    (findLargestSquare computedContours [squareOf 40, squareOf 90] ∈ [squareOf 40, squareOf 90] ∧
        ∀ s ∈ [squareOf 40, squareOf 90], computedContours.contourArea s ≤
          computedContours.contourArea
            (findLargestSquare computedContours [squareOf 40, squareOf 90])) ↔
      ∀ s ∈ [squareOf 40, squareOf 90],
        computedContours.contourArea s ≤ computedContours.contourArea (squareOf 90) :=
  findLargestSquare_largest_iff computedContours (List.cons_ne_nil _ _) (by decide +kernel)

/-- The large one first: the small one is returned. -/
theorem not_findLargestSquare_largest : ¬ ∀ (cv : ContourFunctions)
    (squares : List (List (Point ℤ))), squares ≠ [] → (∀ s ∈ squares, 0 < cv.contourArea s) →
    findLargestSquare cv squares ∈ squares ∧
      ∀ s ∈ squares, cv.contourArea s ≤ cv.contourArea (findLargestSquare cv squares) := by
  intro h
  obtain ⟨_, hlargest⟩ := h computedContours [squareOf 90, squareOf 40] (List.cons_ne_nil _ _)
    (by decide +kernel)
  have hsmaller : ¬ computedContours.contourArea (squareOf 90) ≤
      computedContours.contourArea
        (findLargestSquare computedContours [squareOf 90, squareOf 40]) := by
    decide +kernel
  exact hsmaller (hlargest _ List.mem_cons_self)

end CardScanner
