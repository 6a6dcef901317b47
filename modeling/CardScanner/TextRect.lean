import Mathlib.Data.Int.Order.Lemmas
import Mathlib.Order.Lattice
import Mathlib.Tactic.Ext

/-!
# Text rectangles of `detectLetters`

The rectangles the native code passes around (`cv::Rect`: an origin and a
size), the padding and filtering that `detectLetters` applies to a contour's
bounding box, and the three tests its merge loop makes on a pair.

Containment orders the rectangles and the loop's field-by-field union is the
join of that order (`SemilatticeSup Rect`).  All three branches of the merge
loop are therefore the same abstract operation: two rectangles are replaced by
their join.
-/

namespace CardScanner

/-- `cv::Rect`: origin, width and height in pixels. -/
@[ext] structure Rect where
  x : Int
  y : Int
  width : Int
  height : Int
  deriving DecidableEq, Repr

namespace Rect

/-- The nesting test of the merge loop: `inner` lies inside `outer`. -/
def Nested (inner outer : Rect) : Prop :=
  outer.y ≤ inner.y ∧ inner.y + inner.height ≤ outer.height + outer.y ∧
  outer.x ≤ inner.x ∧ inner.x + inner.width ≤ outer.width + outer.x

/-- The proximity test of the merge loop: the rectangles overlap vertically
and their horizontal gap is at most 15. -/
def Near (rect1 rect2 : Rect) : Prop :=
  rect1.y ≤ rect2.y + rect2.height ∧ rect2.y ≤ rect1.y + rect1.height ∧
  rect1.x - 15 ≤ rect2.x + rect2.width ∧ rect2.x ≤ rect1.x + rect1.width + 15

instance (inner outer : Rect) : Decidable (Nested inner outer) := by
  unfold Nested; infer_instance

instance (rect1 rect2 : Rect) : Decidable (Near rect1 rect2) := by
  unfold Near; infer_instance

/-- What the merge loop writes over `boundRect[index1]`. -/
def union (rect1 rect2 : Rect) : Rect where
  width := max (rect1.x + rect1.width) (rect2.x + rect2.width) - min rect2.x rect1.x
  height := max (rect1.y + rect1.height) (rect2.y + rect2.height) - min rect2.y rect1.y
  x := min rect1.x rect2.x
  y := min rect1.y rect2.y

instance : PartialOrder Rect where
  le := Nested
  le_refl r := by unfold Nested; omega
  le_trans a b c hab hbc := by unfold Nested at *; omega
  le_antisymm a b hab hba := by
    unfold Nested at *
    ext <;> omega

/-- Containment is a join semilattice whose join is the loop's union. -/
instance : SemilatticeSup Rect where
  sup := union
  le_sup_left a b := by change Nested a (union a b); unfold Nested union; simp only; omega
  le_sup_right a b := by change Nested b (union a b); unfold Nested union; simp only; omega
  sup_le a b c hac hbc := by
    change Nested a c at hac
    change Nested b c at hbc
    change Nested (union a b) c
    unfold Nested at *
    unfold union
    simp only
    omega

theorem le_iff_nested {a b : Rect} : a ≤ b ↔ Nested a b := Iff.rfl

/-- The whole image as a rectangle. -/
def image (width height : Int) : Rect := ⟨0, 0, width, height⟩

/-- Lying in the image is lying below its rectangle. -/
theorem le_image_iff {r : Rect} {W H : Int} :
    r ≤ image W H ↔ 0 ≤ r.x ∧ 0 ≤ r.y ∧ r.x + r.width ≤ W ∧ r.y + r.height ≤ H := by
  rw [le_iff_nested]
  unfold Nested image
  simp only
  omega

end Rect

/-! ## From contour boxes to candidate rectangles -/

/-- The box of a contour, moved up and left and enlarged, each side with its
own clamp against the `W` by `H` image. -/
def padRect (W H : Int) (appRect : Rect) : Rect :=
  let x := if appRect.x ≥ 15 then appRect.x - 15 else 0
  let y := if appRect.y ≥ 10 then appRect.y - 10 else 0
  let width := if x + appRect.width ≤ W - 30 then appRect.width + 30 else W - x
  let height := if y + appRect.height ≤ H - 20 then appRect.height + 20 else H - y
  ⟨x, y, width, height⟩

/-- The size filter: wider than high, at least 30 by 20. -/
def keepsRect (appRect : Rect) : Bool :=
  appRect.width > appRect.height && appRect.width ≥ 30 && appRect.height ≥ 20

/-- The rectangles `detectLetters` has collected before it sorts them. -/
def candidateRects (W H : Int) (boxes : List Rect) : List Rect :=
  (boxes.map (padRect W H)).filter keepsRect

/-- `struct byArea`, the order handed to `sort`. -/
def byArea (a b : Rect) : Bool := a.width * a.height > b.width * b.height

/-- What `sort` promises: a rearrangement in which no later element has to
come before an earlier one.  Rectangles of one area may stand in any order. -/
def SortedByArea (rects sorted : List Rect) : Prop :=
  sorted.Perm rects ∧ sorted.Pairwise fun a b => byArea b a = false

/-- Padding keeps a box in the image whichever clamps apply. -/
theorem padRect_le_image (W H : Int) (appRect : Rect) :
    padRect W H appRect ≤ Rect.image W H := by
  rw [Rect.le_image_iff]
  unfold padRect
  simp only
  split_ifs <;> omega

/-- Every candidate lies in the image and has positive size. -/
theorem mem_candidateRects {W H : Int} {boxes : List Rect} {r : Rect}
    (hr : r ∈ candidateRects W H boxes) :
    r ≤ Rect.image W H ∧ 30 ≤ r.width ∧ 20 ≤ r.height := by
  obtain ⟨hmem, hkeep⟩ := List.mem_filter.mp hr
  obtain ⟨box, _, rfl⟩ := List.mem_map.mp hmem
  simp only [keepsRect, Bool.and_eq_true, decide_eq_true_eq] at hkeep
  exact ⟨padRect_le_image W H box, hkeep.1.2, hkeep.2⟩

end CardScanner
