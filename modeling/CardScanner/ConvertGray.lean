import CardScanner.ContourTree
import CardScanner.PixelMedians
import Mathlib.Data.Rat.Cast.Order

/-!
# Black and white characters

`convertGray` finds the contours of characters and paints the box of each in
black and white.  Whether a pixel is part of the character is decided by its
intensity, and which of the two becomes black by the median of twelve samples
around the box.

Every access to a pixel is checked here, and has no value outside the image.
`pix_intensity` answers itself for what lies beyond the right and lower edges.
It does not for what lies beyond the other two, where the samples of a box that
touches them are (`staysInImage_iff`).

Intensities, their mean over a contour and their median are floats in the source
and exact numbers here, so a pixel whose intensity comes within a rounding error
of the mean may be painted otherwise.  Where the accesses go does not depend on the
intensities.
-/

namespace CardScanner

open Machine Plane

/-! ## Pixels -/

/-- A pixel of four bytes. -/
structure Vec4b where
  byte0 : UInt8
  byte1 : UInt8
  byte2 : UInt8
  byte3 : UInt8
  deriving DecidableEq, Repr

/-- An image of such pixels, by row and column. -/
abbrev ColorMat (width height : ℕ) := Fin height → Fin width → Vec4b

variable {width height : ℕ}

/-- `at<Vec4b>(y, x)`, read. -/
def ColorMat.read (image : ColorMat width height) (y x : ℤ) : Option Vec4b := do
  let row ← placeOf height y
  let column ← placeOf width x
  pure (image row column)

/-- `at<Vec4b>(y, x) = color` -/
def ColorMat.write (image : ColorMat width height) (y x : ℤ) (color : Vec4b) :
    Option (ColorMat width height) := do
  let row ← placeOf height y
  let column ← placeOf width x
  pure (Function.update image row (Function.update (image row) column color))

/-- `pix_intensity`, without the rounding of the result to a float. -/
def pixIntensity (oriImage : ColorMat width height) (x y : ℤ) : Option ℚ :=
  if x ≥ width ∨ y ≥ height then some 0
  else do
    let pix ← oriImage.read y x
    pure (30 / 100 * pix.byte2.toNat + 59 / 100 * pix.byte1.toNat + 11 / 100 * pix.byte0.toNat)

/-! ## One character -/

/-- The mean intensity of the points of a contour: the exact one, where the
source adds up floats. -/
def foregroundIntensity (oriImage : ColorMat width height) (contour : List (Point ℤ)) :
    Option ℚ := do
  let intensities ← contour.mapM fun p => pixIntensity oriImage p.x p.y
  pure (intensities.sum / contour.length)

/-- Where the samples around a box are taken. -/
def backgroundSamples (rect : Rect) : List (ℤ × ℤ) :=
  [(rect.x - 1, rect.y - 1), (rect.x - 1, rect.y), (rect.x, rect.y - 1),
    (rect.x + rect.width + 1, rect.y - 1), (rect.x + rect.width, rect.y - 1),
    (rect.x + rect.width + 1, rect.y), (rect.x - 1, rect.y + rect.height + 1),
    (rect.x - 1, rect.y + rect.height), (rect.x, rect.y + rect.height + 1),
    (rect.x + rect.width + 1, rect.y + rect.height + 1),
    (rect.x + rect.width, rect.y + rect.height + 1),
    (rect.x + rect.width + 1, rect.y + rect.height)]

/-- Their median. -/
def backgroundIntensity (oriImage : ColorMat width height) (rect : Rect) : Option ℚ := do
  let bgArray ← (backgroundSamples rect).mapM fun p => pixIntensity oriImage p.1 p.2
  let (median, _) ← calMedian bgArray 12
  pure median

/-- The body of the loops over the box. -/
def paintPixel (oriImage : ColorMat width height) (fgInt : ℚ) (fg bg : UInt8)
    (copy : ColorMat width height) (x y : ℤ) : Option (ColorMat width height) :=
  if y ≥ height ∨ x ≥ width then some copy
  else do
    let _color ← copy.read y x
    let intensity ← pixIntensity oriImage x y
    copy.write y x (if intensity > fgInt then ⟨bg, bg, bg, bg⟩ else ⟨fg, fg, fg, fg⟩)

/-- The body of the loop over the contours that are kept; `copy` is
`imv_copy`.  The colours come from comparing exact intensities, where the
source compares floats. -/
def convertContour (cv : PointBoxes) (oriImage copy : ColorMat width height)
    (contour : List (Point ℤ)) : Option (ColorMat width height) := do
  let rect := cv.boundingRect contour
  let fgInt ← foregroundIntensity oriImage contour
  let bgInt ← backgroundIntensity oriImage rect
  let (fg, bg) : UInt8 × UInt8 := if fgInt ≥ bgInt then (255, 0) else (0, 255)
  (List.range rect.width.toNat).foldlM (fun copy (i : ℕ) =>
    (List.range rect.height.toNat).foldlM (fun copy (j : ℕ) =>
      paintPixel oriImage fgInt fg bg copy (rect.x + i) (rect.y + j)) copy) copy

/-! ## The image -/

/-- The functions of the image library that `convertGray` calls, `boundingRect`
among them; contours and hierarchy are of one size. -/
structure ImageFunctions (width height : ℕ) extends PointBoxes where
  cvtColor : ColorMat width height → GrayMat
  canny : GrayMat → ℤ → ℤ → GrayMat
  findContours : GrayMat → Σ n : ℕ, (Fin n → List (Point ℤ)) × (Fin n → Vec4i)
  blur : ColorMat width height → ColorMat width height

/-- The contours of an image.  `sigma` is the float next to 0.33; the
thresholds are computed from it without rounding, in the source as well. -/
def contoursOf (cv : ImageFunctions width height) (oriImage : ColorMat width height) :
    Σ n : ℕ, ContourTree n :=
  let gray := cv.cvtColor oriImage
  let sigma : ℚ := 11072963 / 2 ^ 25
  let v := medianMat gray
  let lower := max 0 (toInt ((1 - sigma) * v))
  let upper := min 255 (toInt ((1 + sigma) * v))
  let ⟨n, contours, hierarchy⟩ := cv.findContours (cv.canny gray lower upper)
  ⟨n, cv.toPointBoxes, width, height, contours, hierarchy⟩

/-- The loop that collects the contours. -/
def ContourTree.keepContour {n : ℕ} (t : ContourTree n) (fuel : ℕ)
    (keeperContour : List (List (Point ℤ))) (i : Fin n) : Option (List (List (Point ℤ))) := do
  let kept ← if t.keeps i then t.includeBox fuel i.val else some false
  pure (if kept then keeperContour ++ [t.contours i] else keeperContour)

/-- A contour that the loop collects. -/
def ContourTree.isKept {n : ℕ} (t : ContourTree n) (fuel : ℕ) (i : Fin n) : Bool :=
  t.keeps i && t.includeBox fuel i.val == some true

/-- `convertGray`, with at most `fuel` rounds of each loop over siblings. -/
def convertGray (cv : ImageFunctions width height) (fuel : ℕ)
    (oriImage : ColorMat width height) : Option (ColorMat width height) := do
  let ⟨n, t⟩ := contoursOf cv oriImage
  let keeperContour ← (List.finRange n).foldlM (t.keepContour fuel) []
  let white : ColorMat width height := fun _ _ => ⟨255, 255, 255, 255⟩
  let copy ← keeperContour.foldlM (convertContour cv.toPointBoxes oriImage) white
  pure (cv.blur copy)

/-! ## Accesses -/

section Accesses

variable {cv : PointBoxes}

/-- A pixel of the image, or one beyond its right or lower edge, for which
`pix_intensity` has an answer. -/
def HasIntensity (width height : ℕ) (x y : ℤ) : Prop := width ≤ x ∨ height ≤ y ∨ 0 ≤ x ∧ 0 ≤ y

/-- The pixel is in the image. -/
def HasPixel (width height : ℕ) (x y : ℤ) : Prop := (0 ≤ y ∧ y < height) ∧ 0 ≤ x ∧ x < width

/-- Reading or writing a pixel has a result exactly if its row and its column
are in the image. -/
theorem isSome_access {α : Type*} (f : Fin height → Fin width → α) {x y : ℤ} :
    ((placeOf height y).bind fun row =>
      (placeOf width x).bind fun column => some (f row column)).isSome = true ↔
        HasPixel width height x y := by
  unfold HasPixel
  rw [← isSome_placeOf, ← isSome_placeOf]
  apply isSome_bind_iff
  intro row
  cases placeOf width x <;> simp

theorem isSome_read {image : ColorMat width height} {x y : ℤ} :
    (image.read y x).isSome = true ↔ HasPixel width height x y := isSome_access _

theorem isSome_write {image : ColorMat width height} {x y : ℤ} {color : Vec4b} :
    (image.write y x color).isSome = true ↔ HasPixel width height x y := isSome_access _

/-- `pix_intensity` has an answer for a pixel of the image and for one beyond
the right or lower edge. -/
theorem isSome_pixIntensity {oriImage : ColorMat width height} {x y : ℤ} :
    (pixIntensity oriImage x y).isSome = true ↔ HasIntensity width height x y := by
  unfold pixIntensity
  split_ifs with hbeyond
  · refine iff_of_true rfl ?_
    unfold HasIntensity
    omega
  · rw [Option.bind_eq_bind, isSome_bind_iff (P := True) (fun _ => by simp), isSome_read, and_true]
    unfold HasIntensity HasPixel
    omega

/-- A pixel that is painted is read and written in the image; where the loop
goes on without painting, `pix_intensity` would have had an answer. -/
theorem isSome_paintPixel {oriImage copy : ColorMat width height} {fgInt : ℚ} {fg bg : UInt8}
    {x y : ℤ} : (paintPixel oriImage fgInt fg bg copy x y).isSome = true ↔
      HasIntensity width height x y := by
  unfold paintPixel
  split_ifs with hbeyond
  · refine iff_of_true rfl ?_
    unfold HasIntensity
    omega
  · rw [Option.bind_eq_bind, isSome_bind_iff (P := HasIntensity width height x y ∧
      HasPixel width height x y), isSome_read]
    · unfold HasIntensity HasPixel
      omega
    · intro _
      have hintensity : (pixIntensity oriImage x y).isSome = true ↔ HasIntensity width height x y :=
        isSome_pixIntensity
      rw [← hintensity]
      exact isSome_bind_iff (fun _ => isSome_write) _

/-- The mean over a contour can be had if each of its points has an intensity. -/
theorem isSome_foregroundIntensity {oriImage : ColorMat width height}
    {contour : List (Point ℤ)} :
    (foregroundIntensity oriImage contour).isSome = true ↔
      ∀ p ∈ contour, HasIntensity width height p.x p.y := by
  unfold foregroundIntensity
  rw [Option.bind_eq_bind, isSome_bind_iff (P := True) (fun _ => by simp), isSome_mapM_iff]
  simp only [isSome_pixIntensity, and_true]

/-- The twelve samples have a median exactly if each of them can be read. -/
theorem isSome_backgroundIntensity {oriImage : ColorMat width height} {rect : Rect} :
    (backgroundIntensity oriImage rect).isSome = true ↔
      ∀ p ∈ backgroundSamples rect, HasIntensity width height p.1 p.2 := by
  have hsamples : ((backgroundSamples rect).mapM fun p =>
      pixIntensity oriImage p.1 p.2).isSome = true ↔
        ∀ p ∈ backgroundSamples rect, HasIntensity width height p.1 p.2 := by
    rw [isSome_mapM_iff]
    simp only [isSome_pixIntensity]
  rw [← hsamples]
  unfold backgroundIntensity
  cases hread : (backgroundSamples rect).mapM fun p => pixIntensity oriImage p.1 p.2 with
  | none => simp
  | some bgArray =>
      have hlength : bgArray.length = 12 := by
        have hsize := congrArg List.length (mapM_eq_some_iff.mp hread)
        rw [List.length_map, List.length_map] at hsize
        exact hsize.symm
      obtain ⟨m, hm, _⟩ := exists_calMedian (K := ℚ) (List.ne_nil_of_length_eq_add_one hlength)
      rw [hlength] at hm
      simp [hm]

/-- The loops over the box. -/
theorem isSome_paintPixels {oriImage copy : ColorMat width height} {fgInt : ℚ} {fg bg : UInt8}
    {x y : ℤ} {columns rows : List ℕ} :
    (columns.foldlM (fun copy (i : ℕ) => rows.foldlM (fun copy (j : ℕ) =>
        paintPixel oriImage fgInt fg bg copy (x + i) (y + j)) copy) copy).isSome = true ↔
      ∀ i ∈ columns, ∀ j ∈ rows, HasIntensity width height (x + i) (y + j) := by
  apply isSome_foldlM_iff
  intro copy i
  apply isSome_foldlM_iff
  intro copy j
  exact isSome_paintPixel

/-- When one contour can be converted, whatever has been painted before. -/
theorem isSome_convertContour {oriImage copy : ColorMat width height}
    {contour : List (Point ℤ)} :
    (convertContour cv oriImage copy contour).isSome = true ↔
      (∀ p ∈ contour, HasIntensity width height p.x p.y) ∧
      (∀ p ∈ backgroundSamples (cv.boundingRect contour), HasIntensity width height p.1 p.2) ∧
      ∀ i ∈ List.range (cv.boundingRect contour).width.toNat,
        ∀ j ∈ List.range (cv.boundingRect contour).height.toNat,
          HasIntensity width height ((cv.boundingRect contour).x + i)
            ((cv.boundingRect contour).y + j) := by
  have hfg : (foregroundIntensity oriImage contour).isSome = true ↔
      ∀ p ∈ contour, HasIntensity width height p.x p.y := isSome_foregroundIntensity
  have hbg : (backgroundIntensity oriImage (cv.boundingRect contour)).isSome = true ↔
      ∀ p ∈ backgroundSamples (cv.boundingRect contour), HasIntensity width height p.1 p.2 :=
    isSome_backgroundIntensity
  unfold convertContour
  rw [← hfg, ← hbg]
  refine isSome_bind_iff (fun fgInt => ?_) _
  refine isSome_bind_iff (fun bgInt => ?_) _
  generalize (if fgInt ≥ bgInt then ((255, 0) : UInt8 × UInt8) else (0, 255)) = colours
  exact isSome_paintPixels

/-! ## The borders of the image -/

/-- Every pixel that is read or written for a contour is in the image, or
`pix_intensity` has an answer for it. -/
def StaysInImage (cv : PointBoxes) (oriImage copy : ColorMat width height)
    (contour : List (Point ℤ)) : Prop :=
  (convertContour cv oriImage copy contour).isSome = true

/-- The first sample is off by one in both directions. -/
theorem pos_of_staysInImage {oriImage copy : ColorMat width height} {contour : List (Point ℤ)}
    (hinside : cv.boundingRect contour ≤ Rect.image width height)
    (h : StaysInImage cv oriImage copy contour) :
    0 < (cv.boundingRect contour).x ∧ 0 < (cv.boundingRect contour).y := by
  rw [Rect.le_image_iff] at hinside
  have hsize := cv.nonneg contour
  have hsample := (isSome_convertContour.mp h).2.1
    ((cv.boundingRect contour).x - 1, (cv.boundingRect contour).y - 1) List.mem_cons_self
  unfold HasIntensity at hsample
  simp only at hsample
  omega

/-- No sample is further off. -/
theorem le_of_mem_backgroundSamples {rect : Rect} (hsize : 0 ≤ rect.width ∧ 0 ≤ rect.height)
    {p : ℤ × ℤ} (hp : p ∈ backgroundSamples rect) : rect.x - 1 ≤ p.1 ∧ rect.y - 1 ≤ p.2 := by
  obtain ⟨x, y⟩ := p
  simp only [backgroundSamples, List.mem_cons, Prod.mk.injEq, List.not_mem_nil, or_false] at hp
  omega

/-- Nothing that is accessed has a negative coordinate then, as samples are
one pixel to the left of the box or above it at most. -/
theorem staysInImage_of_pos {oriImage copy : ColorMat width height} {contour : List (Point ℤ)}
    (hx : 0 < (cv.boundingRect contour).x) (hy : 0 < (cv.boundingRect contour).y) :
    StaysInImage cv oriImage copy contour := by
  have hsize := cv.nonneg contour
  apply isSome_convertContour.mpr
  refine ⟨fun p hp => ?_, fun p hp => ?_, fun i _ j _ => ?_⟩
  · have hpixel := cv.pixelRect_le contour p hp
    rw [Rect.le_iff_nested] at hpixel
    unfold Rect.Nested pixelRect at hpixel
    simp only at hpixel
    exact Or.inr (Or.inr (by omega))
  · have hsample := le_of_mem_backgroundSamples hsize hp
    exact Or.inr (Or.inr (by omega))
  · exact Or.inr (Or.inr (by omega))

/-- **When a contour is converted without leaving the image.**  Its box
touches neither the left nor the upper edge.  If it does, the first sample has
a negative coordinate, which `pix_intensity` does not look at; if it does not,
no access has one. -/
theorem staysInImage_iff {oriImage copy : ColorMat width height} {contour : List (Point ℤ)}
    (hinside : cv.boundingRect contour ≤ Rect.image width height) :
    StaysInImage cv oriImage copy contour ↔
      0 < (cv.boundingRect contour).x ∧ 0 < (cv.boundingRect contour).y := by
  constructor
  · exact pos_of_staysInImage hinside
  · intro ⟨hx, hy⟩
    exact staysInImage_of_pos hx hy

/-- A letter off the edges. -/
theorem staysInImage_iff_letter :
    StaysInImage leastBoxes (fun _ _ => ⟨255, 255, 255, 255⟩ : ColorMat 40 40)
        (fun _ _ => ⟨0, 0, 0, 0⟩) (ContourTree.squareOutline 12 5 4) ↔
      0 < (leastBoxes.boundingRect (ContourTree.squareOutline 12 5 4)).x ∧
        0 < (leastBoxes.boundingRect (ContourTree.squareOutline 12 5 4)).y :=
  staysInImage_iff (by rw [Rect.le_image_iff]; decide +kernel)

/-- A letter at the left edge: its outline, and inside that the outline of its
hole. -/
def letterAtEdge : ContourTree 2 where
  boxes := leastBoxes
  imgX := 40
  imgY := 40
  contours := ![ContourTree.squareOutline 0 5 4,
    [⟨0, 6⟩, ⟨0, 7⟩, ⟨0, 8⟩, ⟨1, 9⟩, ⟨2, 9⟩, ⟨3, 9⟩, ⟨4, 8⟩, ⟨4, 7⟩, ⟨4, 6⟩, ⟨3, 5⟩, ⟨2, 5⟩,
      ⟨1, 5⟩]]
  hierarchy := ![⟨-1, -1, 1, -1⟩, ⟨-1, -1, -1, 0⟩]

/-- The outline is kept and lies in the image, but not all that is read for
it. -/
theorem not_staysInImage :
    letterAtEdge.WellFormed ∧ letterAtEdge.isKept 3 0 = true ∧
      leastBoxes.boundingRect (letterAtEdge.contours 0) ≤ Rect.image 40 40 ∧
      ∀ oriImage copy : ColorMat 40 40,
        ¬ StaysInImage leastBoxes oriImage copy (letterAtEdge.contours 0) := by
  have hinside : leastBoxes.boundingRect (letterAtEdge.contours 0) ≤ Rect.image 40 40 := by
    rw [Rect.le_image_iff]
    decide +kernel
  refine ⟨ContourTree.wellFormed_frameOfOne.of_hierarchy_eq rfl, by decide +kernel, hinside, ?_⟩
  intro oriImage copy hstays
  have hpos := (pos_of_staysInImage hinside hstays).1
  have hedge : (leastBoxes.boundingRect (letterAtEdge.contours 0)).x = 0 := by decide +kernel
  omega

end Accesses

/-! ## The whole image -/

namespace ContourTree

variable {n : ℕ} {t : ContourTree n} {fuel : ℕ}

/-- A contour that is not rejected is collected. -/
theorem keepContour_eq (hwf : t.WellFormed) (hfuel : n < fuel)
    (keeperContour : List (List (Point ℤ))) (i : Fin n) :
    t.keepContour fuel keeperContour i =
      some (keeperContour ++ if t.isKept fuel i then [t.contours i] else []) := by
  obtain ⟨b, hb, _⟩ := includeBox_eq hwf i hfuel
  unfold keepContour isKept
  rw [hb]
  cases t.keeps i <;> cases b <;> simp

/-- What the loop collects. -/
theorem foldlM_keepContour (hwf : t.WellFormed) (hfuel : n < fuel) (indices : List (Fin n))
    (keeperContour : List (List (Point ℤ))) :
    indices.foldlM (t.keepContour fuel) keeperContour =
      some (keeperContour ++ (indices.filter (t.isKept fuel)).map t.contours) := by
  induction indices generalizing keeperContour with
  | nil => simp
  | cons i indices ih =>
      rw [List.foldlM_cons, keepContour_eq hwf hfuel, List.filter_cons]
      refine (ih _).trans (congrArg some ?_)
      split_ifs <;> simp

end ContourTree

/-- **When an image is converted without leaving it.**  No kept contour
touches its left or its upper edge.  Whether a contour can be converted does
not depend on what has been painted before it, so the loop comes down to its
turns. -/
theorem isSome_convertGray_iff {cv : ImageFunctions width height} {fuel n : ℕ}
    {oriImage : ColorMat width height} {t : ContourTree n} (ht : contoursOf cv oriImage = ⟨n, t⟩)
    (hwf : t.WellFormed) (hfuel : n < fuel)
    (hinside : ∀ i, t.isKept fuel i = true →
      cv.boundingRect (t.contours i) ≤ Rect.image width height) :
    (convertGray cv fuel oriImage).isSome = true ↔ ∀ i, t.isKept fuel i = true →
      0 < (cv.boundingRect (t.contours i)).x ∧ 0 < (cv.boundingRect (t.contours i)).y := by
  have hpaint : ∀ copy : ColorMat width height,
      ((((List.finRange n).filter (t.isKept fuel)).map t.contours).foldlM
        (convertContour cv.toPointBoxes oriImage) copy).isSome = true ↔
          ∀ i, t.isKept fuel i = true →
            (convertContour cv.toPointBoxes oriImage copy (t.contours i)).isSome = true := by
    intro copy
    rw [isSome_foldlM_iff (P := fun contour =>
      (convertContour cv.toPointBoxes oriImage copy contour).isSome = true)]
    · simp
    · intro copy' contour
      rw [isSome_convertContour, isSome_convertContour]
  unfold convertGray
  rw [ht]
  simp only [ContourTree.foldlM_keepContour hwf hfuel, List.nil_append, Option.bind_eq_bind,
    Option.bind_some]
  rw [isSome_bind_iff (P := True) (fun _ => by simp), and_true, hpaint]
  constructor
  · intro hstays i hi
    exact pos_of_staysInImage (hinside i hi) (hstays i hi)
  · intro hpos i hi
    exact staysInImage_of_pos (hpos i hi).1 (hpos i hi).2

end CardScanner
