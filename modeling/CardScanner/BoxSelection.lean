import CardScanner.Toggling
import Mathlib.Data.Int.Order.Basic
import Mathlib.Order.Lattice

/-!
# Selecting boxes by tapping

`OCRImageView` shows the boxes of the images and of the text columns.  A tap
toggles every box it hits, in two further lists of the same objects, and the
getters look these up in the lists of boxes by equality.

The two kinds do not touch each other, and each is an instance of toggling:
boxes are hit by the taps they contain.
-/

namespace CardScanner

open Toggling

/-- `android.graphics.RectF`; any linear order serves as coordinates. -/
structure RectF (α : Type*) where
  left : α
  top : α
  right : α
  bottom : α
  deriving DecidableEq

variable {α : Type*} [LinearOrder α]

/-- `RectF.contains`. -/
def RectF.contains (r : RectF α) (x y : α) : Bool :=
  r.left < r.right && r.top < r.bottom &&
    x ≥ r.left && x < r.right && y ≥ r.top && y < r.bottom

/-- `ArrayList.indexOf`: the first place of the rectangle, or -1. -/
def indexOfRect (rects : List (RectF α)) (r : RectF α) : ℤ :=
  match rects.idxOf? r with
  | some i => i
  | none => -1

/-- The boxes of `OCRImageView` and those touched; a list that has not been set
is empty. -/
structure OCRImageView (α : Type*) where
  mImageRects : List (RectF α)
  mTextRects : List (RectF α)
  mTouchedImageRects : List (RectF α)
  mTouchedTextRects : List (RectF α)

/-- The body of the loop of `updateTouchedBoxesByPoint`. -/
def touchBox (x y : α) (touchedBoxes : List (RectF α)) (r : RectF α) : List (RectF α) :=
  if r.contains x y then
    if touchedBoxes.contains r then touchedBoxes.erase r else touchedBoxes ++ [r]
  else touchedBoxes

/-- `updateTouchedBoxesByPoint`: every box that contains the point is removed
from the touched ones, or added behind them. -/
def updateTouchedBoxesByPoint (x y : α) (boxes touchedBoxes : List (RectF α)) :
    List (RectF α) :=
  boxes.foldl (touchBox x y) touchedBoxes

namespace OCRImageView

/-- The view when its boxes have been set. -/
def start (imageRects textRects : List (RectF α)) : OCRImageView α :=
  ⟨imageRects, textRects, [], []⟩

/-- `onTouchEvent` of an `ACTION_DOWN`, at a point of the image. -/
def onTouchEvent (view : OCRImageView α) (pts : α × α) : OCRImageView α :=
  { view with
    mTouchedImageRects :=
      updateTouchedBoxesByPoint pts.1 pts.2 view.mImageRects view.mTouchedImageRects
    mTouchedTextRects :=
      updateTouchedBoxesByPoint pts.1 pts.2 view.mTextRects view.mTouchedTextRects }

/-- `getSelectedImageIndexes`: the places of the touched boxes in the list of
all, in the order they were touched in. -/
def getSelectedImageIndexes (view : OCRImageView α) : List ℤ :=
  view.mTouchedImageRects.map (indexOfRect view.mImageRects)

/-- `getSelectedTextIndexes`, which does the same with the other two lists. -/
def getSelectedTextIndexes (view : OCRImageView α) : List ℤ :=
  view.mTouchedTextRects.map (indexOfRect view.mTextRects)

end OCRImageView

/-! ## Taps toggle -/

/-- A tap hits a box that contains it. -/
def tapHits (tap : α × α) (r : RectF α) : Bool := r.contains tap.1 tap.2

/-- The loop over the boxes toggles those that are hit. -/
theorem updateTouchedBoxesByPoint_eq (tap : α × α) (boxes touchedBoxes : List (RectF α)) :
    updateTouchedBoxesByPoint tap.1 tap.2 boxes touchedBoxes =
      step tapHits boxes touchedBoxes tap := by
  unfold updateTouchedBoxesByPoint step toggleAll
  rw [List.foldl_filter]
  congr 1
  funext touched r
  unfold touchBox tapHits toggle
  by_cases htouched : r ∈ touched
  · simp [htouched]
  · simp [htouched]

/-- A run of taps is a run of toggles for either kind of boxes. -/
theorem foldl_onTouchEvent (taps : List (α × α)) (view : OCRImageView α) :
    taps.foldl OCRImageView.onTouchEvent view =
      { view with
        mTouchedImageRects := taps.foldl (step tapHits view.mImageRects) view.mTouchedImageRects
        mTouchedTextRects := taps.foldl (step tapHits view.mTextRects) view.mTouchedTextRects
      } := by
  induction taps generalizing view with
  | nil => rfl
  | cons tap taps ih =>
      rw [List.foldl_cons, ih]
      simp only [OCRImageView.onTouchEvent, updateTouchedBoxesByPoint_eq, List.foldl_cons]

/-! ## Indices -/

/-- How many of the taps hit the box with an index. -/
def tapsOn (boxes : List (RectF α)) (taps : List (α × α)) (i : ℕ) : ℕ :=
  taps.countP fun tap => boxes[i]?.any (tapHits tap)

/-- The tap at time `t` hits the box with an index, and the box is selected
then. -/
def TapSelects (boxes : List (RectF α)) (taps : List (α × α)) (i t : ℕ) : Prop :=
  (∃ tap, taps[t]? = some tap ∧ boxes[i]?.any (tapHits tap) = true) ∧
    Odd (tapsOn boxes (taps.take (t + 1)) i)

/-- The last tap that selected the box with an index. -/
def LatestTap (boxes : List (RectF α)) (taps : List (α × α)) (i t : ℕ) : Prop :=
  TapSelects boxes taps i t ∧ ∀ u, TapSelects boxes taps i u → u ≤ t

/-- The indices are those of the boxes that are hit an odd number of times,
each once, in the order of their latest selection and then of the list. -/
structure SelectedBy (boxes : List (RectF α)) (taps : List (α × α)) (indexes : List ℕ) :
    Prop where
  mem : ∀ i, i ∈ indexes ↔ i < boxes.length ∧ Odd (tapsOn boxes taps i)
  nodup : indexes.Nodup
  order : indexes.Pairwise fun i j => ∃ t u, LatestTap boxes taps i t ∧ LatestTap boxes taps j u ∧
    (t < u ∨ t = u ∧ i < j)

section Indices

variable {boxes : List (RectF α)} {taps : List (α × α)} {r : RectF α}

/-- A box of the list is found at its place. -/
theorem indexOfRect_of_mem (hr : r ∈ boxes) : indexOfRect boxes r = boxes.idxOf r := by
  obtain ⟨i, hi⟩ := Option.isSome_iff_exists.mp (List.isSome_idxOf?.mpr hr)
  rw [indexOfRect, List.idxOf_eq_getD_idxOf?, hi]
  rfl

/-- The taps on a box are those that hit the place where it stands in the
list. -/
theorem tapsOn_idxOf (hr : r ∈ boxes) :
    tapsOn boxes taps (boxes.idxOf r) = hits tapHits taps r := by
  unfold tapsOn hits
  simp [List.getElem?_idxOf hr]

theorem latestTap_idxOf (hr : r ∈ boxes) {t : ℕ} :
    LatestTap boxes taps (boxes.idxOf r) t ↔ Latest tapHits taps r t := by
  have hselects : ∀ u, TapSelects boxes taps (boxes.idxOf r) u ↔ SelectsAt tapHits taps r u := by
    intro u
    unfold TapSelects SelectsAt
    rw [tapsOn_idxOf hr, List.getElem?_idxOf hr]
    rfl
  unfold LatestTap Latest
  simp only [hselects]

end Indices

/-- The indices of what is selected by toggling, where no rectangle is in the
list twice. -/
theorem selectedBy_of_toggled {boxes : List (RectF α)} {taps : List (α × α)}
    {touched : List (RectF α)} (hboxes : boxes.Nodup) (h : Toggled tapHits boxes taps touched) :
    ∃ indexes : List ℕ, touched.map (indexOfRect boxes) = indexes.map (↑) ∧
      SelectedBy boxes taps indexes := by
  have hmem : ∀ r ∈ touched, r ∈ boxes := fun r hr => ((h.mem r).mp hr).1
  refine ⟨touched.map boxes.idxOf, ?_, ?_, ?_, ?_⟩
  · rw [List.map_map]
    exact List.map_congr_left fun r hr => indexOfRect_of_mem (hmem r hr)
  · intro i
    rw [List.mem_map]
    constructor
    · intro ⟨r, hr, hi⟩
      rw [← hi, tapsOn_idxOf (hmem r hr)]
      exact ⟨List.idxOf_lt_length_iff.mpr (hmem r hr), ((h.mem r).mp hr).2⟩
    · intro ⟨hi, hodd⟩
      have hplace : boxes.idxOf boxes[i] = i := hboxes.idxOf_getElem i hi
      refine ⟨boxes[i], (h.mem _).mpr ⟨List.getElem_mem hi, ?_⟩, hplace⟩
      rwa [← hplace, tapsOn_idxOf (List.getElem_mem hi)] at hodd
  · refine List.Nodup.map_on ?_ h.nodup
    intro r hr r' hr' heq
    exact (List.idxOf_inj (hmem r hr)).mp heq
  · rw [List.pairwise_map]
    refine List.Pairwise.imp_of_mem ?_ h.order
    intro r r' hr hr' ⟨t, u, ht, hu, hlt⟩
    exact ⟨t, u, (latestTap_idxOf (hmem r hr)).mpr ht, (latestTap_idxOf (hmem r' hr')).mpr hu, hlt⟩

/-- **The selected indices.**  After any taps the getters return what the taps
select, for either kind of boxes as long as those are different: the boxes hit
an odd number of times, each once, in the order of the tap since which they
have been selected. -/
theorem getSelectedIndexes_selectedBy (imageRects textRects : List (RectF α))
    (taps : List (α × α)) :
    (textRects.Nodup → ∃ indexes : List ℕ,
      (taps.foldl OCRImageView.onTouchEvent (.start imageRects textRects)).getSelectedTextIndexes =
        indexes.map (↑) ∧ SelectedBy textRects taps indexes) ∧
    (imageRects.Nodup → ∃ indexes : List ℕ,
      (taps.foldl OCRImageView.onTouchEvent (.start imageRects textRects)).getSelectedImageIndexes =
        indexes.map (↑) ∧ SelectedBy imageRects taps indexes) := by
  rw [foldl_onTouchEvent]
  exact ⟨fun h => selectedBy_of_toggled h (toggled_run h taps),
    fun h => selectedBy_of_toggled h (toggled_run h taps)⟩

/-- Two text columns that overlap. -/
def overlappingRects : List (RectF ℤ) := [⟨0, 0, 10, 10⟩, ⟨5, 5, 15, 15⟩]

/-- A tap on both and one on the first. -/
theorem getSelectedIndexes_selectedBy_overlapping :
    ∃ indexes : List ℕ,
      ([(7, 7), (2, 2)].foldl OCRImageView.onTouchEvent
        (.start [] overlappingRects)).getSelectedTextIndexes = indexes.map (↑) ∧
      SelectedBy overlappingRects [(7, 7), (2, 2)] indexes :=
  (getSelectedIndexes_selectedBy [] overlappingRects [(7, 7), (2, 2)]).1 (by decide)

end CardScanner
