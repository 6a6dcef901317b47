import CardScanner.CropPerspective
import CardScanner.JavaCast

/-!
# Fitting a bitmap into a frame

`Util.adjustBitmapSize` draws a bitmap, scaled to fit, into a target of the
given size, with a frame of two pixels around it.  The size is found first, by
the target's width or, where the image would be too high, by its height; the
rectangle of the frame is then centred and narrowed to that of the image.

Neither product needs a bound of its own.  The second is only computed when the
first gave too high an image, and is then the smaller of the two.
-/

namespace CardScanner

/-! ## The two rectangles -/

namespace GraphicsRect

/-- `Rect.width`. -/
def width (r : GraphicsRect) : ℤ := r.right - r.left

/-- `Rect.height`. -/
def height (r : GraphicsRect) : ℤ := r.bottom - r.top

end GraphicsRect

def border : ℤ := 2

/-- The product of two `int`s. -/
def mulInt (a b : ℤ) : ℤ := intOfLong (a * b)

/-- The width and height `adjustBitmapSize` gives the image. -/
def adjustedSize (r : GraphicsRect) (orgWidth orgHeight : ℤ) : ℤ × ℤ :=
  let imageWidth := r.width - border * 2
  let imageHeight := (mulInt imageWidth orgHeight).tdiv orgWidth
  if imageHeight > r.height - border * 2 then
    let imageHeight := r.height - border * 2
    ((mulInt imageHeight orgWidth).tdiv orgHeight, imageHeight)
  else (imageWidth, imageHeight)

/-- The rectangles `adjustBitmapSize` draws: the frame's and the image's. -/
structure AdjustedBitmap where
  frame : GraphicsRect
  image : GraphicsRect
  deriving DecidableEq, Repr

/-- `adjustBitmapSize`; `r` is updated one edge after the other. -/
def adjustBitmapSize (width height orgWidth orgHeight : ℤ) : AdjustedBitmap :=
  let r : GraphicsRect := ⟨0, 0, width, height⟩
  let (imageWidth, imageHeight) := adjustedSize r orgWidth orgHeight
  let r := { r with left := r.left + ((r.width - imageWidth).tdiv 2 - border) }
  let r := { r with right := r.left + imageWidth + border + border }
  let r := { r with top := r.top + ((r.height - imageHeight).tdiv 2 - border) }
  let r := { r with bottom := r.top + imageHeight + border + border }
  let frame := r
  let r := { r with left := r.left + border }
  let r := { r with right := r.right - border }
  let r := { r with top := r.top + border }
  let r := { r with bottom := r.bottom - border }
  ⟨frame, r⟩

/-! ## The size -/

/-- A size fits when the borders leave room for it. -/
def FitsAxis (size image : ℤ) : Prop := 0 ≤ image ∧ image ≤ size - border * 2

theorem mulInt_of_lt {a b : ℤ} (ha : 0 ≤ a) (hb : 0 ≤ b) (h : a * b < 2 ^ 31) :
    mulInt a b = a * b := by
  have hnonneg : 0 ≤ a * b := mul_nonneg ha hb
  exact intOfLong_of_lt (by omega) h

/-- An image that is too high at full width fits when its height is cut to what
there is, and the product that gives its width is smaller than the first. -/
theorem product_lt_of_too_high {w h orgWidth orgHeight : ℤ} (hwidth : 0 < orgWidth)
    (hhigh : h < w * orgHeight / orgWidth) : h * orgWidth < w * orgHeight := by
  have hnext : (h + 1) * orgWidth ≤ w * orgHeight :=
    (Int.le_ediv_iff_mul_le hwidth).mp hhigh
  have hsplit : (h + 1) * orgWidth = h * orgWidth + orgWidth := by ring
  omega

/-- **The size fits on both axes.**  The room on an axis is what the frame
leaves of it, two pixels less on either side. -/
theorem adjustedSize_fits {width height orgWidth orgHeight : ℤ} (hw : 4 ≤ width)
    (hh : 4 ≤ height) (horgW : 0 < orgWidth) (horgH : 0 < orgHeight)
    (hproduct : (width - 4) * orgHeight < 2 ^ 31) :
    FitsAxis width (adjustedSize ⟨0, 0, width, height⟩ orgWidth orgHeight).1 ∧
    FitsAxis height (adjustedSize ⟨0, 0, width, height⟩ orgWidth orgHeight).2 := by
  have hroomW : 0 ≤ width - 4 := by omega
  have hroomH : 0 ≤ height - 4 := by omega
  have hfirst : (mulInt (width - 4) orgHeight).tdiv orgWidth =
      (width - 4) * orgHeight / orgWidth := by
    rw [mulInt_of_lt hroomW horgH.le hproduct]
    exact Int.tdiv_eq_ediv_of_nonneg (mul_nonneg hroomW horgH.le)
  have hfit : ∀ size, 4 ≤ size → FitsAxis size (size - 4) := by
    intro size hsize
    unfold FitsAxis border
    omega
  simp only [adjustedSize, GraphicsRect.width, GraphicsRect.height, sub_zero, border,
    show (2 : ℤ) * 2 = 4 from rfl, hfirst]
  split_ifs with hhigh
  · have hless := product_lt_of_too_high horgW hhigh
    have hsecond : (mulInt (height - 4) orgWidth).tdiv orgHeight =
        (height - 4) * orgWidth / orgHeight := by
      rw [mulInt_of_lt hroomH horgW.le (by omega)]
      exact Int.tdiv_eq_ediv_of_nonneg (mul_nonneg hroomH horgW.le)
    refine ⟨⟨?_, ?_⟩, hfit height hh⟩
    · rw [hsecond]
      exact Int.ediv_nonneg (mul_nonneg hroomH horgW.le) horgH.le
    · rw [hsecond]
      exact Int.ediv_le_of_le_mul horgH hless.le
  · refine ⟨hfit width hw, Int.ediv_nonneg (mul_nonneg hroomW horgH.le) horgW.le, ?_⟩
    unfold border
    omega

/-! ## The place -/

/-- Where the two rectangles lie on one axis of the target: from `start` to
`stop` the frame, two pixels in from either end the image. -/
structure CentredAxis (size image start stop imageStart imageStop : ℤ) : Prop where
  inside : 0 ≤ start ∧ stop ≤ size
  border : imageStart = start + 2 ∧ imageStop = stop - 2
  extent : imageStop - imageStart = image ∧ 0 ≤ image ∧ image ≤ size - 4
  centred : |start - (size - stop)| ≤ 1 ∧ |imageStart - (size - imageStop)| ≤ 1

/-- A size that fits is centred by halving what is left; an odd rest makes the
margins differ by one. -/
theorem centredAxis_of_fits {size image : ℤ} (h : FitsAxis size image) :
    let start := (size - image).tdiv 2 - border
    let stop := start + image + border + border
    CentredAxis size image start stop (start + border) (stop - border) := by
  unfold FitsAxis border at h
  have hhalf : (size - image).tdiv 2 = (size - image) / 2 :=
    Int.tdiv_eq_ediv_of_nonneg (by omega)
  simp only [hhalf, border]
  constructor
  · omega
  · omega
  · omega
  · constructor <;> rw [abs_le] <;> omega

/-- What `adjustBitmapSize` promises of its two rectangles. -/
structure WellPlaced (width height : ℤ) (drawn : AdjustedBitmap) : Prop where
  /-- the frame lies inside the target -/
  inside : GraphicsRect.Contains ⟨0, 0, width, height⟩ drawn.frame
  /-- the image lies in the frame, two pixels from every edge of it -/
  border : drawn.image = ⟨drawn.frame.left + 2, drawn.frame.top + 2, drawn.frame.right - 2,
    drawn.frame.bottom - 2⟩
  /-- neither side is negative or exceeds what the borders leave -/
  size : (0 ≤ drawn.image.width ∧ drawn.image.width ≤ width - 4) ∧
    0 ≤ drawn.image.height ∧ drawn.image.height ≤ height - 4
  /-- the margins on opposite sides differ by a pixel at most -/
  frameCentred : |drawn.frame.left - (width - drawn.frame.right)| ≤ 1 ∧
    |drawn.frame.top - (height - drawn.frame.bottom)| ≤ 1
  imageCentred : |drawn.image.left - (width - drawn.image.right)| ≤ 1 ∧
    |drawn.image.top - (height - drawn.image.bottom)| ≤ 1

/-- **The bitmap is framed and centred.**  The first product, of the room
between the sides of the frame with the height, is assumed to fit into an int;
no bound on the second product is needed. -/
theorem adjustBitmapSize_wellPlaced {width height orgWidth orgHeight : ℤ} (hw : 4 ≤ width)
    (hh : 4 ≤ height) (horgW : 0 < orgWidth) (horgH : 0 < orgHeight)
    (hproduct : (width - 4) * orgHeight < 2 ^ 31) :
    WellPlaced width height (adjustBitmapSize width height orgWidth orgHeight) := by
  obtain ⟨hfitW, hfitH⟩ := adjustedSize_fits hw hh horgW horgH hproduct
  have hx := centredAxis_of_fits hfitW
  have hy := centredAxis_of_fits hfitH
  simp only [adjustBitmapSize, GraphicsRect.width, GraphicsRect.height, sub_zero, zero_add]
  constructor
  · exact ⟨hx.inside.1, hy.inside.1, hx.inside.2, hy.inside.2⟩
  · rfl
  · simp only [GraphicsRect.width, GraphicsRect.height, hx.extent.1, hy.extent.1]
    exact ⟨hx.extent.2, hy.extent.2⟩
  · exact ⟨hx.centred.1, hy.centred.1⟩
  · exact ⟨hx.centred.2, hy.centred.2⟩

/-- A wide picture, fitted by its width, and a high one, fitted by its height. -/
theorem adjustBitmapSize_wellPlaced_examples :
    WellPlaced 100 75 (adjustBitmapSize 100 75 640 311) ∧
      WellPlaced 100 75 (adjustBitmapSize 100 75 311 640) :=
  ⟨adjustBitmapSize_wellPlaced (by decide) (by decide) (by decide) (by decide) (by decide),
    adjustBitmapSize_wellPlaced (by decide) (by decide) (by decide) (by decide) (by decide)⟩

end CardScanner
