import CardScanner.Plane
import Mathlib.Algebra.Field.Defs
import Mathlib.Algebra.Order.Group.MinMax
import Mathlib.Tactic.Ring
import Mathlib.Tactic.LinearCombination

/-!
# Affine maps of the plane

The six numbers of an affine map, with the operations that put another map behind it.
What a rectangle is mapped to is bounded by the images of its corners; a translation
put behind the map moves these bounds (`mapRect_postTranslate`).
-/

open Plane

/-- An affine map. -/
@[ext] structure ViewMatrix (K : Type*) where
  scaleX : K
  skewX : K
  transX : K
  skewY : K
  scaleY : K
  transY : K
  deriving DecidableEq, Repr

namespace ViewMatrix

/-- A rectangle, by its edges. -/
@[ext] structure Bounds (K : Type*) where
  left : K
  top : K
  right : K
  bottom : K
  deriving DecidableEq, Repr

variable {K : Type*} [CommRing K]

def identity : ViewMatrix K := ⟨1, 0, 0, 0, 1, 0⟩

/-- The image of a point. -/
def mapPoint (m : ViewMatrix K) (p : Point K) : Point K :=
  ⟨m.scaleX * p.x + m.skewX * p.y + m.transX, m.skewY * p.x + m.scaleY * p.y + m.transY⟩

/-- The map `n` after `m`. -/
def postConcat (m n : ViewMatrix K) : ViewMatrix K where
  scaleX := n.scaleX * m.scaleX + n.skewX * m.skewY
  skewX := n.scaleX * m.skewX + n.skewX * m.scaleY
  transX := n.scaleX * m.transX + n.skewX * m.transY + n.transX
  skewY := n.skewY * m.scaleX + n.scaleY * m.skewY
  scaleY := n.skewY * m.skewX + n.scaleY * m.scaleY
  transY := n.skewY * m.transX + n.scaleY * m.transY + n.transY

/-- The matrix that moves by a vector. -/
def translation (dx dy : K) : ViewMatrix K := ⟨1, 0, dx, 0, 1, dy⟩

/-- The scaling that leaves the point `(px, py)` where it is. -/
def scaling (sx sy px py : K) : ViewMatrix K := ⟨sx, 0, px - sx * px, 0, sy, py - sy * py⟩

/-- `postTranslate`: the map, and then a translation. -/
def postTranslate (m : ViewMatrix K) (dx dy : K) : ViewMatrix K :=
  m.postConcat (translation dx dy)

/-- `postScale`: the map, and then a scaling about a point. -/
def postScale (m : ViewMatrix K) (sx sy px py : K) : ViewMatrix K :=
  m.postConcat (scaling sx sy px py)

/-- The inverse map, if there is one. -/
def invert {K : Type*} [Field K] [DecidableEq K] (m : ViewMatrix K) : Option (ViewMatrix K) :=
  let det := m.scaleX * m.scaleY - m.skewX * m.skewY
  if det = 0 then none
  else
    some
      { scaleX := m.scaleY / det
        skewX := -m.skewX / det
        transX := (m.skewX * m.transY - m.scaleY * m.transX) / det
        skewY := -m.skewY / det
        scaleY := m.scaleX / det
        transY := (m.skewY * m.transX - m.scaleX * m.transY) / det }

variable (a b c m : ViewMatrix K)

theorem mapPoint_postConcat (n : ViewMatrix K) (p : Point K) :
    (m.postConcat n).mapPoint p = n.mapPoint (m.mapPoint p) := by
  ext
  · simp only [mapPoint, postConcat]
    ring
  · simp only [mapPoint, postConcat]
    ring

/-- How they are bracketed does not matter. -/
theorem postConcat_assoc : (a.postConcat b).postConcat c = a.postConcat (b.postConcat c) := by
  ext <;> simp only [postConcat] <;> ring

/-- So a translation of the second map is one of both. -/
theorem postConcat_postTranslate (dx dy : K) :
    a.postConcat (b.postTranslate dx dy) = (a.postConcat b).postTranslate dx dy :=
  (postConcat_assoc a b _).symm

theorem mapPoint_postTranslate (dx dy : K) (p : Point K) :
    (m.postTranslate dx dy).mapPoint p = ⟨(m.mapPoint p).x + dx, (m.mapPoint p).y + dy⟩ := by
  unfold postTranslate
  rw [mapPoint_postConcat]
  ext
  · simp only [mapPoint, translation]
    ring
  · simp only [mapPoint, translation]
    ring

section Rectangles

variable [LinearOrder K]

/-- The bounds of the image of a rectangle. -/
def mapRect (r : Bounds K) : Bounds K :=
  let p := m.mapPoint ⟨r.left, r.top⟩
  let q := m.mapPoint ⟨r.right, r.top⟩
  let u := m.mapPoint ⟨r.right, r.bottom⟩
  let v := m.mapPoint ⟨r.left, r.bottom⟩
  { left := min (min p.x q.x) (min u.x v.x)
    top := min (min p.y q.y) (min u.y v.y)
    right := max (max p.x q.x) (max u.x v.x)
    bottom := max (max p.y q.y) (max u.y v.y) }

variable [IsOrderedRing K]

/-- A translation moves the bounds. -/
theorem mapRect_postTranslate (dx dy : K) (r : Bounds K) :
    (m.postTranslate dx dy).mapRect r =
      ⟨(m.mapRect r).left + dx, (m.mapRect r).top + dy, (m.mapRect r).right + dx,
        (m.mapRect r).bottom + dy⟩ := by
  simp only [mapRect, mapPoint_postTranslate, min_add_add_right, max_add_add_right]

end Rectangles

end ViewMatrix
