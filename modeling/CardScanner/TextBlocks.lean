import CardScanner.JavaCast
import CardScanner.MergeLoop
import Mathlib.Algebra.Order.Field.Basic
import Mathlib.Tactic.Linarith

/-!
# From the merge loop to the OCR regions

`detectTextBlock` flattens the merged rectangles into an `int[]`,
`CropImageActivity` scales the array component by component from the scaled
bitmap back to the full picture, and the OCR thread reads it four components
at a time.  Containment in the image is carried through all of it: the merged
rectangles are joins of rectangles below the image's, and truncation after
scaling can only move an edge inward.
-/

namespace CardScanner

open Machine Clustering

/-- `detectTextBlock`: the rectangles as one `jint` array. -/
def detectTextBlock (rects : List Rect) : List Int :=
  rects.flatMap fun r => [r.x, r.y, r.width, r.height]

/-- The scaling loop of `ImageProcessing`: even components by `ratioX`, odd
ones by `ratioY`, truncated. -/
def scalePoints (ratioX ratioY : ℚ) (listPointsTextBlock : List Int) : List Int :=
  listPointsTextBlock.mapIdx fun i (v : Int) =>
    if i % 2 = 0 then toInt ((v : ℚ) * ratioX) else toInt ((v : ℚ) * ratioY)

/-- The regions the OCR loop sets, `i += 4`. -/
def textRegions : List Int → List Rect
  | x :: y :: width :: height :: rest => ⟨x, y, width, height⟩ :: textRegions rest
  | _ => []

/-- One rectangle scaled and truncated. -/
def scaleRect (ratioX ratioY : ℚ) (r : Rect) : Rect where
  x := toInt (r.x * ratioX)
  y := toInt (r.y * ratioY)
  width := toInt (r.width * ratioX)
  height := toInt (r.height * ratioY)

/-- Scaling the flat array is scaling each rectangle: four components keep
the parity of the index. -/
theorem textRegions_scalePoints (ratioX ratioY : ℚ) (rects : List Rect) :
    textRegions (scalePoints ratioX ratioY (detectTextBlock rects)) =
      rects.map (scaleRect ratioX ratioY) := by
  induction rects with
  | nil => rfl
  | cons r rest ih =>
      have hparity : ∀ i : Nat, (i + 1 + 1 + 1 + 1) % 2 = i % 2 := by omega
      have hshift : (scalePoints ratioX ratioY (detectTextBlock (r :: rest))) =
          toInt (r.x * ratioX) :: toInt (r.y * ratioY) :: toInt (r.width * ratioX) ::
            toInt (r.height * ratioY) :: scalePoints ratioX ratioY (detectTextBlock rest) := by
        simp [scalePoints, detectTextBlock, List.mapIdx_cons, hparity]
      rw [hshift, textRegions, ih]
      rfl

/-- One axis of a scaled rectangle: an interval inside `[0, size]` scaled by
`full / scaled`, where `size ≤ scaled`, lies inside `[0, full]`. -/
theorem scaled_interval {start length size scaled full : Int}
    (hstart : 0 ≤ start) (hlength : 0 ≤ length) (hend : start + length ≤ size)
    (hsize : size ≤ scaled) (hscaled : 0 < scaled) (hfull : 0 < full) :
    0 ≤ toInt (start * ((full : ℚ) / scaled)) ∧
    toInt (start * ((full : ℚ) / scaled)) + toInt (length * ((full : ℚ) / scaled)) ≤ full := by
  have hscaledQ : (0 : ℚ) < scaled := by exact_mod_cast hscaled
  have hratio : (0 : ℚ) ≤ (full : ℚ) / scaled :=
    div_nonneg (by exact_mod_cast hfull.le) hscaledQ.le
  have hs : (0 : ℚ) ≤ start * ((full : ℚ) / scaled) :=
    mul_nonneg (by exact_mod_cast hstart) hratio
  have hl : (0 : ℚ) ≤ length * ((full : ℚ) / scaled) :=
    mul_nonneg (by exact_mod_cast hlength) hratio
  refine ⟨toInt_nonneg hs, ?_⟩
  have hedge : ((start : ℚ) + length) ≤ scaled := by exact_mod_cast hend.trans hsize
  have hsum : (toInt (start * ((full : ℚ) / scaled)) +
      toInt (length * ((full : ℚ) / scaled)) : ℚ) ≤ full := by
    calc (toInt (start * ((full : ℚ) / scaled)) + toInt (length * ((full : ℚ) / scaled)) : ℚ)
        ≤ start * ((full : ℚ) / scaled) + length * ((full : ℚ) / scaled) :=
          add_le_add (toInt_le hs) (toInt_le hl)
      _ = (start + length) * ((full : ℚ) / scaled) := by ring
      _ ≤ scaled * ((full : ℚ) / scaled) := mul_le_mul_of_nonneg_right hedge hratio
      _ = full := mul_div_cancel₀ _ hscaledQ.ne'
  exact_mod_cast hsum

/-- A merged rectangle lies in the image and has nonnegative size, because a
candidate lies in it. -/
theorem merged_rect_in_image {W H : Int} {boxes rects out : List Rect}
    (hsort : SortedByArea (candidateRects W H boxes) rects)
    (hclus : IsClustering rects out) {r : Rect} (hr : r ∈ out) :
    r ≤ Rect.image W H ∧ 0 ≤ r.width ∧ 0 ≤ r.height := by
  have hcand : ∀ c ∈ rects, c ≤ Rect.image W H ∧ 30 ≤ c.width ∧ 20 ≤ c.height :=
    fun c hc => mem_candidateRects (hsort.1.mem_iff.mp hc)
  refine ⟨hclus.bounded (fun c hc => (hcand c hc).1) r hr, ?_⟩
  obtain ⟨c, hc, hle⟩ := hclus.above hr
  have hsize := (hcand c hc).2
  rw [Rect.le_iff_nested] at hle
  unfold Rect.Nested at hle
  omega

/-- **Text regions lie in the picture, end to end.**  From any contour boxes,
if a candidate is kept, the merge loop returns; its rectangles lie in the `W`
by `H` bitmap, and the regions handed to OCR lie in the full picture. -/
theorem text_regions_in_image (W H : Int) (boxes : List Rect) {rects : List Rect}
    {mWidth mHeight pixWidth pixHeight : Int}
    (hsort : SortedByArea (candidateRects W H boxes) rects) (hkept : rects ≠ [])
    (hmWidth : 0 < mWidth) (hmHeight : 0 < mHeight)
    (hpixWidth : 0 < pixWidth) (hpixHeight : 0 < pixHeight)
    (hfitW : W ≤ mWidth) (hfitH : H ≤ mHeight) :
    ∃ out, Returns mergeStep (startMerge rects) out ∧
      (∀ r ∈ out, 0 ≤ r.x ∧ 0 ≤ r.y ∧ r.x + r.width ≤ W ∧ r.y + r.height ≤ H) ∧
      ∀ r ∈ textRegions (scalePoints ((pixWidth : ℚ) / mWidth) ((pixHeight : ℚ) / mHeight)
          (detectTextBlock out)),
        0 ≤ r.x ∧ 0 ≤ r.y ∧ r.x + r.width ≤ pixWidth ∧ r.y + r.height ≤ pixHeight := by
  obtain ⟨out, hout⟩ := mergeLoop_returns hkept
  have hclus := isClustering_of_returns hkept hout
  refine ⟨out, hout, ?_, ?_⟩
  · intro r hr
    exact Rect.le_image_iff.mp (merged_rect_in_image hsort hclus hr).1
  · intro r hr
    rw [textRegions_scalePoints] at hr
    obtain ⟨c, hc, rfl⟩ := List.mem_map.mp hr
    obtain ⟨hin, hwidth, hheight⟩ := merged_rect_in_image hsort hclus hc
    obtain ⟨hx, hy, hright, hbottom⟩ := Rect.le_image_iff.mp hin
    have hX := scaled_interval hx hwidth hright hfitW hmWidth hpixWidth
    have hY := scaled_interval hy hheight hbottom hfitH hmHeight hpixHeight
    exact ⟨hX.1, hY.1, hX.2, hY.2⟩

/-- A 400 by 240 bitmap of a 1000 by 600 picture with two contour boxes, one
of them at the left border. -/
theorem text_regions_in_image_card :
    ∃ out, Returns mergeStep (startMerge [⟨85, 30, 150, 50⟩, ⟨0, 50, 90, 48⟩]) out ∧
      (∀ r ∈ out, 0 ≤ r.x ∧ 0 ≤ r.y ∧ r.x + r.width ≤ 400 ∧ r.y + r.height ≤ 240) ∧
      ∀ r ∈ textRegions (scalePoints (((1000 : Int) : ℚ) / (400 : Int))
          (((600 : Int) : ℚ) / (240 : Int)) (detectTextBlock out)),
        0 ≤ r.x ∧ 0 ≤ r.y ∧ r.x + r.width ≤ 1000 ∧ r.y + r.height ≤ 600 :=
  text_regions_in_image 400 240 [⟨6, 60, 60, 28⟩, ⟨100, 40, 120, 30⟩]
    ⟨by decide, by decide⟩ (by decide) (by decide) (by decide) (by decide) (by decide)
    (by decide) (by decide)

end CardScanner
