import CardScanner.CropHit
import CardScanner.ViewMatrix

/-!
# The crop screen

`ImageViewTouchBase` shows a picture through two maps: the base matrix fits it into the
view, and the supplementary one holds the zoom and the panning.  `CropImageView` draws the
frame of the selection over it, through a matrix of the frame's own, which it changes
along: it translates it wherever the view is panned, and sets it anew wherever the view
is zoomed or laid out.

In the middle of a zoom the frame's matrix is stale when `center` translates it.  At
the end of each event it is again the matrix of the picture, so the frame lies over what
it selects, and the picture is never shown smaller than it was at first
(`cropView_inStep`).  Screen coordinates and zooms are exact rationals here, and no
animation is stepped at a time before its start.
-/

namespace CardScanner

open Plane ViewMatrix

/-- `RotateBitmap`: the extent of the bitmap, and the degrees by which it is
turned. -/
structure RotateBitmap where
  bitmapWidth : ℤ
  bitmapHeight : ℤ
  mRotation : ℤ
  deriving DecidableEq, Repr

namespace RotateBitmap

/-- Whether a quarter turn has exchanged width and height. -/
def isOrientationChanged (b : RotateBitmap) : Bool := (b.mRotation / 90) % 2 != 0

/-- The width as it is shown. -/
def getWidth (b : RotateBitmap) : ℤ :=
  if b.isOrientationChanged then b.bitmapHeight else b.bitmapWidth

/-- The height as it is shown. -/
def getHeight (b : RotateBitmap) : ℤ :=
  if b.isOrientationChanged then b.bitmapWidth else b.bitmapHeight

/-- The rotation by a multiple of 90 degrees, clockwise on the screen. -/
def rotationMatrix (degrees : ℤ) : ViewMatrix ℚ :=
  if degrees = 90 then ⟨0, -1, 0, 1, 0, 0⟩
  else if degrees = 180 then ⟨-1, 0, 0, 0, -1, 0⟩
  else if degrees = 270 then ⟨0, 1, 0, -1, 0, 0⟩
  else identity

/-- `getRotateMatrix`: the bitmap is turned about its centre, and its upper
left corner is brought back to zero. -/
def getRotateMatrix (b : RotateBitmap) : ViewMatrix ℚ :=
  if b.mRotation = 0 then identity
  else
    let cx := b.bitmapWidth / 2
    let cy := b.bitmapHeight / 2
    ((translation (-cx : ℚ) (-cy : ℚ)).postConcat (rotationMatrix b.mRotation)).postTranslate
      ((b.getWidth / 2 : ℤ) : ℚ) ((b.getHeight / 2 : ℤ) : ℚ)

/-- The bitmap after another quarter turn. -/
def turned (b : RotateBitmap) : RotateBitmap := { b with mRotation := (b.mRotation + 90) % 360 }

end RotateBitmap

/-- The frame: its matrix, the window in the picture, and where it was last
laid out. -/
structure Highlight where
  mMatrix : ViewMatrix ℚ
  trapezoid : CropWindow
  mDrawRect : GraphicsRect
  deriving DecidableEq, Repr

/-- `computeLayout`: the frame's bounding rectangle as the matrix maps it, cut
to whole numbers. -/
def Highlight.computeLayout (hv : Highlight) : GraphicsRect :=
  let r := getBoundingRect hv.trapezoid.mPoints
  let p := hv.mMatrix.mapPoint ⟨r.left, r.top⟩
  let q := hv.mMatrix.mapPoint ⟨r.right, r.bottom⟩
  { left := toInt (min p.x q.x)
    top := toInt (min p.y q.y)
    right := toInt (max p.x q.x)
    bottom := toInt (max p.y q.y) }

/-- A running animation. -/
structure Zoom where
  incrementPerMs : ℚ
  oldScale : ℚ
  centerX : ℚ
  centerY : ℚ
  durationMs : ℚ
  deriving DecidableEq, Repr

/-- The view, while a frame is shown: the fields that its events read or
write. -/
structure CropView where
  mLeft : ℤ
  mTop : ℤ
  mRight : ℤ
  mBottom : ℤ
  mBitmapDisplayed : RotateBitmap
  mBaseMatrix : ViewMatrix ℚ
  mSuppMatrix : ViewMatrix ℚ
  /-- what `setImageMatrix` was last called with -/
  imageMatrix : ViewMatrix ℚ
  mMaxZoom : ℚ
  highlight : Highlight
  /-- the posted steps of animations -/
  posted : List Zoom
  mIsMoving : Bool
  mMotionEdge : ℕ
  mLastX : ℚ
  mLastY : ℚ
  deriving DecidableEq, Repr

namespace CropView

/-- The width of the view. -/
def getWidth (v : CropView) : ℤ := v.mRight - v.mLeft

/-- The height of the view. -/
def getHeight (v : CropView) : ℤ := v.mBottom - v.mTop

/-- `getImageViewMatrix`: first the base matrix, then zoom and panning. -/
def getImageViewMatrix (v : CropView) : ViewMatrix ℚ := v.mBaseMatrix.postConcat v.mSuppMatrix

/-- `getScale`: the zoom alone, without the scale that fits the picture into
the view. -/
def getScale (v : CropView) : ℚ := v.mSuppMatrix.scaleX

/-- `setImageMatrix(getImageViewMatrix())`, which every change of a matrix has
to end with. -/
def setImageMatrix (v : CropView) : CropView := { v with imageMatrix := v.getImageViewMatrix }

/-- The frame takes over the matrix of the picture. -/
def setHighlightMatrix (v : CropView) : CropView :=
  { v with highlight := { v.highlight with mMatrix := v.imageMatrix } }

/-- `getProperBaseMatrix`: the picture is scaled to fit into the view, by a
factor of two at most, and centred. -/
def getProperBaseMatrix (b : RotateBitmap) (viewWidth viewHeight : ℚ) : ViewMatrix ℚ :=
  let w : ℚ := b.getWidth
  let h : ℚ := b.getHeight
  let scale := min (min (viewWidth / w) 2) (min (viewHeight / h) 2)
  (b.getRotateMatrix.postScale scale scale 0 0).postTranslate ((viewWidth - w * scale) / 2)
    ((viewHeight - h * scale) / 2)

/-- `maxZoom`: twice the larger one of the quotients of the picture's sides by
the view's. -/
def maxZoom (v : CropView) : ℚ :=
  max ((v.mBitmapDisplayed.getWidth : ℚ) / v.getWidth)
    ((v.mBitmapDisplayed.getHeight : ℚ) / v.getHeight) * 2

/-- `postTranslate` of `CropImageView`, which moves the frame along with the
picture. -/
def postTranslate (v : CropView) (dx dy : ℚ) : CropView :=
  { v with
    mSuppMatrix := v.mSuppMatrix.postTranslate dx dy
    highlight := { v.highlight with mMatrix := v.highlight.mMatrix.postTranslate dx dy } }

/-- How far `center` moves the picture along one axis. -/
def centerDelta (low high viewSize : ℚ) : ℚ :=
  if high - low < viewSize then (viewSize - (high - low)) / 2 - low
  else if low > 0 then -low
  else if high < viewSize then viewSize - high
  else 0

/-- The bounds of the picture on the screen, under the matrix `m`. -/
def pictureBounds (v : CropView) (m : ViewMatrix ℚ) : Bounds ℚ :=
  m.mapRect ⟨0, 0, v.mBitmapDisplayed.bitmapWidth, v.mBitmapDisplayed.bitmapHeight⟩

/-- `center(true, true)`: on each axis the picture is centred if it is smaller
than the view, and moved up to the view's border if it leaves a gap. -/
def center (v : CropView) : CropView :=
  let rect := v.pictureBounds v.getImageViewMatrix
  (v.postTranslate (centerDelta rect.left rect.right v.getWidth)
    (centerDelta rect.top rect.bottom v.getHeight)).setImageMatrix

/-- `zoomTo` of `CropImageView`: the zoom is capped, the picture centred, and
the frame's matrix set anew. -/
def zoomTo (v : CropView) (scale centerX centerY : ℚ) : CropView :=
  let scale := if scale > v.mMaxZoom then v.mMaxZoom else scale
  let deltaScale := scale / v.getScale
  let v := { v with
    mSuppMatrix := v.mSuppMatrix.postScale deltaScale deltaScale centerX centerY }
  v.setImageMatrix.center.setHighlightMatrix

/-- `zoomTo` with a duration: it posts the first step. -/
def startZoom (v : CropView) (scale centerX centerY durationMs : ℚ) : CropView :=
  { v with posted := v.posted ++
    [⟨(scale - v.getScale) / durationMs, v.getScale, centerX, centerY, durationMs⟩] }

/-- `panBy`, which looks at no border: the picture may be moved out of the
view. -/
def panBy (v : CropView) (dx dy : ℚ) : CropView := (v.postTranslate dx dy).setImageMatrix

/-- `ensureVisible`: if the frame is cut off at a side of the view, the
picture is moved by as much. -/
def ensureVisible (v : CropView) : CropView :=
  let r := v.highlight.mDrawRect
  let panDeltaX1 := max 0 (v.mLeft - r.left)
  let panDeltaX2 := min 0 (v.mRight - r.right)
  let panDeltaY1 := max 0 (v.mTop - r.top)
  let panDeltaY2 := min 0 (v.mBottom - r.bottom)
  let panDeltaX := if panDeltaX1 ≠ 0 then panDeltaX1 else panDeltaX2
  let panDeltaY := if panDeltaY1 ≠ 0 then panDeltaY1 else panDeltaY2
  if panDeltaX ≠ 0 ∨ panDeltaY ≠ 0 then v.panBy panDeltaX panDeltaY else v

/-- The zoom at which a side of the frame takes up six tenths of the view; a
frame without extent asks for an infinite one. -/
def zoomFor (viewSize frameSize : ℤ) : WithTop ℚ :=
  if frameSize = 0 then ⊤ else ((viewSize : ℚ) / frameSize * (6 / 10) : ℚ)

/-- `centerBasedOnHighlightView`: a zoom to the frame is started if the scale
would change by more than a tenth. -/
def centerBasedOnHighlightView (v : CropView) : CropView :=
  let drawRect := v.highlight.mDrawRect
  let zoom := min (zoomFor v.getWidth (drawRect.right - drawRect.left))
    (zoomFor v.getHeight (drawRect.bottom - drawRect.top))
  let v :=
    match zoom with
    -- an infinite zoom: the quotient of the differences is no number
    | ⊤ => v
    | (zoom : ℚ) =>
      let zoom := max 1 (zoom * v.getScale)
      if |zoom - v.getScale| / zoom > 1 / 10 then
        let cropRect := getBoundingRect v.highlight.trapezoid.mPoints
        let centre := v.imageMatrix.mapPoint
          ⟨((cropRect.left + cropRect.right) / 2 : ℤ), ((cropRect.top + cropRect.bottom) / 2 : ℤ)⟩
        v.startZoom zoom centre.x centre.y 300
      else v
  v.ensureVisible

/-- `mapPointToImageSpace`: a point of the view, through the inverse of the
matrix, which is the identity if there is none. -/
def mapPointToImageSpace (v : CropView) (x y : ℚ) : Point ℚ :=
  (v.getImageViewMatrix.invert.getD identity).mapPoint ⟨x, y⟩

/-- `onTouchEvent`, for `ACTION_DOWN`. -/
def touchDown (mHysteresis : ℚ) (v : CropView) (x y : ℚ) : CropView :=
  let p := v.mapPointToImageSpace x y
  let edge := getHit v.highlight.trapezoid.mPoints p.x p.y (mHysteresis / v.getScale)
  if edge ≠ growNone then
    { v with mMotionEdge := edge, mIsMoving := true, mLastX := p.x, mLastY := p.y }
  else v

/-- The end of a motion. -/
def stopMoving (v : CropView) : CropView := { v with mIsMoving := false }

/-- `onTouchEvent`, for `ACTION_UP`. -/
def touchUp (v : CropView) : CropView :=
  (if v.mIsMoving then v.centerBasedOnHighlightView else v).stopMoving.center

/-- `handleMotion` of the frame, which lays it out again. -/
def moveHighlight (v : CropView) (dx dy : ℚ) : CropView :=
  let hv := { v.highlight with
    trapezoid := handleMotion v.highlight.trapezoid v.mMotionEdge dx dy }
  { v with highlight :=
    { hv with mDrawRect := if v.mMotionEdge = growNone then hv.mDrawRect else hv.computeLayout } }

/-- A motion to the point `p` of the picture. -/
def drag (v : CropView) (p : Point ℚ) : CropView :=
  { v.moveHighlight (p.x - v.mLastX) (p.y - v.mLastY) with mLastX := p.x, mLastY := p.y }

/-- `onTouchEvent`, for `ACTION_MOVE`. -/
def touchMove (v : CropView) (x y : ℚ) : CropView :=
  let v := if v.mIsMoving then (v.drag (v.mapPointToImageSpace x y)).ensureVisible else v
  if v.getScale = 1 then v.center else v

/-- `onKeyDown`, for the key that goes back. -/
def keyBack (v : CropView) : CropView :=
  if v.getScale > 1 then v.zoomTo 1 (v.getWidth / 2) (v.getHeight / 2) else v

/-- The first posted step of an animation, so many milliseconds after its
start.  Two things are idealised.  The zoom is an exact rational where the
source has a float, which may end a rounding error below 1; and the time is a
natural number, where the source subtracts two readings of a clock that could
be set back between them. -/
def zoomStep (v : CropView) (elapsed : ℕ) : CropView :=
  match v.posted with
  | [] => v
  | zoom :: rest =>
    let currentMs := min zoom.durationMs elapsed
    let target := zoom.oldScale + zoom.incrementPerMs * currentMs
    let v := { v with posted := rest }.zoomTo target zoom.centerX zoom.centerY
    if currentMs < zoom.durationMs then { v with posted := v.posted ++ [zoom] }
    else v.ensureVisible

/-- `onLayout`: the picture is fitted into the new size of the view, and the
frame with it. -/
def layout (v : CropView) (left top right bottom : ℤ) : CropView :=
  let v := { v with mLeft := left, mTop := top, mRight := right, mBottom := bottom }
  let v := { v with
    mBaseMatrix := getProperBaseMatrix v.mBitmapDisplayed v.getWidth v.getHeight }
  v.setImageMatrix.setHighlightMatrix.centerBasedOnHighlightView

/-- A new frame, as `showDefaultCroppingRectangle` adds it. -/
def addHighlight (v : CropView) (window : CropWindow) : CropView :=
  let hv : Highlight := ⟨v.imageMatrix, window, ⟨0, 0, 0, 0⟩⟩
  { v with
    mMaxZoom := v.maxZoom
    highlight := { hv with mDrawRect := hv.computeLayout } }

/-- `setImageBitmapResetBase`, which leaves the zoom as it is. -/
def setImageBitmapResetBase (v : CropView) (bitmap : RotateBitmap) : CropView :=
  let v := { v with
    mBaseMatrix := getProperBaseMatrix bitmap v.getWidth v.getHeight
    mBitmapDisplayed := bitmap }
  { v.setImageMatrix with mMaxZoom := v.maxZoom }

/-- `onRotatePressed`: a quarter turn, and a new frame. -/
def rotate (v : CropView) (window : CropWindow) : CropView :=
  (v.setImageBitmapResetBase v.mBitmapDisplayed.turned).addHighlight window

/-- `draw` lays the frame out again. -/
def draw (v : CropView) : CropView :=
  { v with highlight := { v.highlight with mDrawRect := v.highlight.computeLayout } }

end CropView

/-- What the view is told. -/
inductive CropEvent where
  | down (x y : ℚ)
  | up
  | move (x y : ℚ)
  | back
  | zoomStep (elapsed : ℕ)
  | layout (left top right bottom : ℤ)
  | rotate (window : CropWindow)
  | draw

/-- One event. -/
def CropView.step (mHysteresis : ℚ) (v : CropView) : CropEvent → CropView
  | .down x y => v.touchDown mHysteresis x y
  | .up => v.touchUp
  | .move x y => v.touchMove x y
  | .back => v.keyBack
  | .zoomStep elapsed => v.zoomStep elapsed
  | .layout left top right bottom => v.layout left top right bottom
  | .rotate window => v.rotate window
  | .draw => v.draw

/-- The view when the picture and the first frame are shown: nothing is zoomed
or moved, and no animation is on its way. -/
def openCropView (left top right bottom : ℤ) (bitmap : RotateBitmap) (window : CropWindow) :
    CropView :=
  let v : CropView :=
    { mLeft := left
      mTop := top
      mRight := right
      mBottom := bottom
      mBitmapDisplayed := bitmap
      mBaseMatrix := identity
      mSuppMatrix := identity
      imageMatrix := identity
      mMaxZoom := 0
      highlight := ⟨identity, window, ⟨0, 0, 0, 0⟩⟩
      posted := []
      mIsMoving := false
      mMotionEdge := 0
      mLastX := 0
      mLastY := 0 }
  (v.setImageBitmapResetBase bitmap).addHighlight window

/-! ## What an event keeps -/

/-- Turned either way, the picture takes up half the view along an axis. -/
structure FillsHalf (bitmapWidth bitmapHeight width height : ℤ) : Prop where
  width_pos : 0 < width
  height_pos : 0 < height
  upright : width ≤ 2 * bitmapWidth ∨ height ≤ 2 * bitmapHeight
  turned : width ≤ 2 * bitmapHeight ∨ height ≤ 2 * bitmapWidth

/-- The animation is between two zooms that do not make the picture smaller. -/
structure Zoom.Proper (zoom : Zoom) : Prop where
  duration : 0 < zoom.durationMs
  start : 1 ≤ zoom.oldScale
  finish : 1 ≤ zoom.oldScale + zoom.incrementPerMs * zoom.durationMs

/-- The zooms of the view, for a bitmap of this extent. -/
structure Zoomed (bitmapWidth bitmapHeight : ℤ) (v : CropView) : Prop where
  width : v.mBitmapDisplayed.bitmapWidth = bitmapWidth
  height : v.mBitmapDisplayed.bitmapHeight = bitmapHeight
  fills : FillsHalf bitmapWidth bitmapHeight v.getWidth v.getHeight
  scale : 1 ≤ v.getScale
  maxZoom : 1 ≤ v.mMaxZoom
  posted : ∀ zoom ∈ v.posted, zoom.Proper

/-- What holds after each event. -/
structure InStep (bitmapWidth bitmapHeight : ℤ) (v : CropView) : Prop
    extends Zoomed bitmapWidth bitmapHeight v where
  shown : v.imageMatrix = v.getImageViewMatrix
  framed : v.highlight.mMatrix = v.imageMatrix

/-- Of two quotients by two the larger one is at least 1. -/
theorem one_le_max_mul_two {a b c d : ℤ} (hb : 0 < b) (hd : 0 < d)
    (h : b ≤ 2 * a ∨ d ≤ 2 * c) : 1 ≤ max ((a : ℚ) / b) ((c : ℚ) / d) * 2 := by
  have hhalf : ∀ {x y : ℤ}, 0 < y → y ≤ 2 * x → (1 : ℚ) / 2 ≤ x / y := by
    intro x y hy hxy
    have hcast : (y : ℚ) ≤ 2 * x := by exact_mod_cast hxy
    rw [div_le_div_iff₀ two_pos (by exact_mod_cast hy)]
    linarith only [hcast]
  rcases h with h | h
  · linarith only [le_max_left ((a : ℚ) / b) (c / d), hhalf hb h]
  · linarith only [le_max_right ((a : ℚ) / b) (c / d), hhalf hd h]

/-- A picture that fills half of the view may be zoomed in on: the greatest
zoom is 1 or more. -/
theorem FillsHalf.one_le_maxZoom {v : CropView}
    (h : FillsHalf v.mBitmapDisplayed.bitmapWidth v.mBitmapDisplayed.bitmapHeight v.getWidth
      v.getHeight) : 1 ≤ v.maxZoom := by
  unfold CropView.maxZoom RotateBitmap.getWidth RotateBitmap.getHeight
  split_ifs
  · exact one_le_max_mul_two h.width_pos h.height_pos h.turned
  · exact one_le_max_mul_two h.width_pos h.height_pos h.upright

section Steps

variable {bitmapWidth bitmapHeight : ℤ} {v : CropView}

/-- Panning does not change the zoom. -/
theorem getScale_postTranslate (v : CropView) (dx dy : ℚ) :
    (v.postTranslate dx dy).getScale = v.getScale := by
  simp [CropView.getScale, CropView.postTranslate, ViewMatrix.postTranslate, postConcat,
    translation]

theorem Zoomed.postTranslate (h : Zoomed bitmapWidth bitmapHeight v) (dx dy : ℚ) :
    Zoomed bitmapWidth bitmapHeight (v.postTranslate dx dy) :=
  ⟨h.width, h.height, h.fills, (getScale_postTranslate v dx dy).symm ▸ h.scale, h.maxZoom,
    h.posted⟩

/-- Handing the matrix to the screen changes neither zoom nor animation. -/
theorem Zoomed.setImageMatrix (h : Zoomed bitmapWidth bitmapHeight v) :
    Zoomed bitmapWidth bitmapHeight v.setImageMatrix :=
  ⟨h.width, h.height, h.fills, h.scale, h.maxZoom, h.posted⟩

/-- Panning moves the frame with the picture. -/
theorem InStep.panBy (h : InStep bitmapWidth bitmapHeight v) (dx dy : ℚ) :
    InStep bitmapWidth bitmapHeight (v.panBy dx dy) where
  toZoomed := (h.toZoomed.postTranslate dx dy).setImageMatrix
  shown := rfl
  framed := by
    change v.highlight.mMatrix.postTranslate dx dy =
      v.mBaseMatrix.postConcat (v.mSuppMatrix.postTranslate dx dy)
    rw [postConcat_postTranslate, h.framed, h.shown]
    rfl

/-- Centring pans the picture and the frame's matrix by the same. -/
theorem InStep.center (h : InStep bitmapWidth bitmapHeight v) :
    InStep bitmapWidth bitmapHeight v.center := h.panBy _ _

/-- `ensureVisible` pans to the frame, and picture and frame go together. -/
theorem InStep.ensureVisible (h : InStep bitmapWidth bitmapHeight v) :
    InStep bitmapWidth bitmapHeight v.ensureVisible := by
  unfold CropView.ensureVisible
  simp only
  split_ifs <;> first | exact h.panBy _ _ | exact h

/-- A zoom sets the matrix of the frame, however stale it is.  The scale is
capped by the largest zoom, which is at least 1. -/
theorem Zoomed.zoomTo (h : Zoomed bitmapWidth bitmapHeight v) {scale : ℚ} (hscale : 1 ≤ scale)
    (centerX centerY : ℚ) :
    InStep bitmapWidth bitmapHeight (v.zoomTo scale centerX centerY) := by
  let capped := if scale > v.mMaxZoom then v.mMaxZoom else scale
  have hcapped : 1 ≤ capped := by
    unfold capped
    split_ifs
    · exact h.maxZoom
    · exact hscale
  have hne : v.getScale ≠ 0 := (one_pos.trans_le h.scale).ne'
  let scaled : CropView := { v with
    mSuppMatrix := v.mSuppMatrix.postScale (capped / v.getScale) (capped / v.getScale)
      centerX centerY }
  have hnew : scaled.getScale = capped := by
    have hvalue : scaled.getScale = capped / v.getScale * v.getScale := by
      simp [scaled, CropView.getScale, ViewMatrix.postScale, postConcat, scaling]
    rw [hvalue, div_mul_cancel₀ _ hne]
  have hscaled : Zoomed bitmapWidth bitmapHeight scaled :=
    ⟨h.width, h.height, h.fills, hnew.symm ▸ hcapped, h.maxZoom, h.posted⟩
  have hcentred : Zoomed bitmapWidth bitmapHeight scaled.setImageMatrix.center :=
    (hscaled.setImageMatrix.postTranslate _ _).setImageMatrix
  exact ⟨⟨hcentred.width, hcentred.height, hcentred.fills, hcentred.scale, hcentred.maxZoom,
    hcentred.posted⟩, rfl, rfl⟩

/-- An animation is only posted: the picture stays in step until its first
step, and it will end at a zoom of 1 or more. -/
theorem InStep.startZoom (h : InStep bitmapWidth bitmapHeight v) {scale : ℚ}
    (hscale : 1 ≤ scale) (centerX centerY : ℚ) {durationMs : ℚ} (hduration : 0 < durationMs) :
    InStep bitmapWidth bitmapHeight (v.startZoom scale centerX centerY durationMs) := by
  refine ⟨⟨h.width, h.height, h.fills, h.scale, h.maxZoom, ?_⟩, h.shown, h.framed⟩
  intro zoom hzoom
  rcases List.mem_append.mp hzoom with hold | hnew
  · exact h.posted zoom hold
  · rw [List.mem_singleton.mp hnew]
    refine ⟨hduration, h.scale, ?_⟩
    rw [div_mul_cancel₀ _ hduration.ne']
    linarith only [hscale]

/-- Looking for a zoom that suits the frame may start an animation; then the
view is panned to the frame. -/
theorem InStep.centerBasedOnHighlightView (h : InStep bitmapWidth bitmapHeight v) :
    InStep bitmapWidth bitmapHeight v.centerBasedOnHighlightView := by
  unfold CropView.centerBasedOnHighlightView
  apply InStep.ensureVisible
  split
  · exact h
  · simp only
    split_ifs
    · exact h.startZoom (le_max_left _ _) _ _ (by norm_num)
    · exact h

/-- What is stored for the next motion does not matter: a view with the same
matrices, frame and animations is in step too. -/
theorem InStep.ofTouch (h : InStep bitmapWidth bitmapHeight v) {w : CropView}
    (hbounds : w.mLeft = v.mLeft ∧ w.mTop = v.mTop ∧ w.mRight = v.mRight ∧ w.mBottom = v.mBottom)
    (hbitmap : w.mBitmapDisplayed = v.mBitmapDisplayed) (hbase : w.mBaseMatrix = v.mBaseMatrix)
    (hsupp : w.mSuppMatrix = v.mSuppMatrix) (himage : w.imageMatrix = v.imageMatrix)
    (hmax : w.mMaxZoom = v.mMaxZoom) (hframe : w.highlight.mMatrix = v.highlight.mMatrix)
    (hposted : w.posted = v.posted) : InStep bitmapWidth bitmapHeight w := by
  obtain ⟨⟨hwidth, hheight, hfills, hscale, hmaxZoom, hproper⟩, hshown, hframed⟩ := h
  obtain ⟨hleft, htop, hright, hbottom⟩ := hbounds
  refine ⟨⟨hbitmap ▸ hwidth, hbitmap ▸ hheight, ?_, ?_, hmax ▸ hmaxZoom, hposted ▸ hproper⟩,
    ?_, ?_⟩
  · unfold CropView.getWidth CropView.getHeight
    rw [hleft, htop, hright, hbottom]
    exact hfills
  · unfold CropView.getScale
    rw [hsupp]
    exact hscale
  · unfold CropView.getImageViewMatrix
    rw [himage, hbase, hsupp]
    exact hshown
  · rw [hframe, himage]
    exact hframed

/-- A finger put down chooses an edge and moves nothing. -/
theorem InStep.touchDown (h : InStep bitmapWidth bitmapHeight v) (mHysteresis x y : ℚ) :
    InStep bitmapWidth bitmapHeight (v.touchDown mHysteresis x y) := by
  unfold CropView.touchDown
  simp only
  split_ifs
  · exact h.ofTouch ⟨rfl, rfl, rfl, rfl⟩ rfl rfl rfl rfl rfl rfl rfl
  · exact h

/-- Lifting it may start an animation, and centres the picture. -/
theorem InStep.touchUp (h : InStep bitmapWidth bitmapHeight v) :
    InStep bitmapWidth bitmapHeight v.touchUp := by
  have hstop : ∀ {w : CropView}, InStep bitmapWidth bitmapHeight w →
      InStep bitmapWidth bitmapHeight w.stopMoving :=
    fun hw => hw.ofTouch ⟨rfl, rfl, rfl, rfl⟩ rfl rfl rfl rfl rfl rfl rfl
  unfold CropView.touchUp
  split_ifs
  · exact (hstop h.centerBasedOnHighlightView).center
  · exact (hstop h).center

/-- Dragging changes the selection; at a zoom of 1 the picture is centred
again. -/
theorem InStep.touchMove (h : InStep bitmapWidth bitmapHeight v) (x y : ℚ) :
    InStep bitmapWidth bitmapHeight (v.touchMove x y) := by
  have hcentre : ∀ {w : CropView}, InStep bitmapWidth bitmapHeight w →
      InStep bitmapWidth bitmapHeight (if w.getScale = 1 then w.center else w) := by
    intro w hw
    split_ifs
    · exact hw.center
    · exact hw
  apply hcentre
  split_ifs
  · have hdrag : InStep bitmapWidth bitmapHeight (v.drag (v.mapPointToImageSpace x y)) :=
      h.ofTouch ⟨rfl, rfl, rfl, rfl⟩ rfl rfl rfl rfl rfl rfl rfl
    exact hdrag.ensureVisible
  · exact h

/-- The back key zooms out to 1 at once. -/
theorem InStep.keyBack (h : InStep bitmapWidth bitmapHeight v) :
    InStep bitmapWidth bitmapHeight v.keyBack := by
  unfold CropView.keyBack
  split_ifs
  · exact h.toZoomed.zoomTo le_rfl _ _
  · exact h

/-- Between two zooms that are at least 1 all are. -/
theorem Zoom.Proper.target {zoom : Zoom} (h : zoom.Proper) {ms : ℚ} (hstart : 0 ≤ ms)
    (hend : ms ≤ zoom.durationMs) : 1 ≤ zoom.oldScale + zoom.incrementPerMs * ms := by
  have hfirst := mul_nonneg (sub_nonneg.mpr hend) (sub_nonneg.mpr h.start)
  have hlast := mul_nonneg hstart (sub_nonneg.mpr h.finish)
  have hmul : 0 ≤ zoom.durationMs * (zoom.oldScale + zoom.incrementPerMs * ms - 1) := by
    linarith only [hfirst, hlast]
  linarith only [nonneg_of_mul_nonneg_right hmul h.duration]

/-- A step of an animation zooms to what lies between its first and its last
zoom. -/
theorem InStep.zoomStep (h : InStep bitmapWidth bitmapHeight v) (elapsed : ℕ) :
    InStep bitmapWidth bitmapHeight (v.zoomStep elapsed) := by
  unfold CropView.zoomStep
  split
  · exact h
  · rename_i zoom rest hposted
    have hmem : zoom ∈ v.posted := hposted ▸ List.mem_cons_self
    have hproper := h.posted zoom hmem
    have hrest : Zoomed bitmapWidth bitmapHeight { v with posted := rest } :=
      ⟨h.width, h.height, h.fills, h.scale, h.maxZoom, fun other hother =>
        h.posted other (hposted ▸ List.mem_cons_of_mem zoom hother)⟩
    have htarget := hproper.target (le_min hproper.duration.le (Nat.cast_nonneg elapsed))
      (min_le_left _ _)
    have hzoomed := hrest.zoomTo htarget zoom.centerX zoom.centerY
    simp only
    split_ifs
    · obtain ⟨⟨hwidth, hheight, hfills, hscale, hmaxZoom, hpending⟩, hshown, hframed⟩ := hzoomed
      refine ⟨⟨hwidth, hheight, hfills, hscale, hmaxZoom, fun other hother => ?_⟩, hshown,
        hframed⟩
      rcases List.mem_append.mp hother with hold | hnew
      · exact hpending other hold
      · exact List.mem_singleton.mp hnew ▸ hproper
    · exact hzoomed.ensureVisible

/-- A new layout makes a new base matrix, and the frame's matrix anew with it. -/
theorem InStep.layout (h : InStep bitmapWidth bitmapHeight v) {left top right bottom : ℤ}
    (hfills : FillsHalf bitmapWidth bitmapHeight (right - left) (bottom - top)) :
    InStep bitmapWidth bitmapHeight (v.layout left top right bottom) :=
  InStep.centerBasedOnHighlightView
    ⟨⟨h.width, h.height, hfills, h.scale, h.maxZoom, h.posted⟩, rfl, rfl⟩

/-- Drawing lays the frame out by the matrix it has. -/
theorem InStep.draw (h : InStep bitmapWidth bitmapHeight v) :
    InStep bitmapWidth bitmapHeight v.draw :=
  h.ofTouch ⟨rfl, rfl, rfl, rfl⟩ rfl rfl rfl rfl rfl rfl rfl

/-- A picture and a frame are shown. -/
theorem inStep_shown {bitmap : RotateBitmap} (hwidth : bitmap.bitmapWidth = bitmapWidth)
    (hheight : bitmap.bitmapHeight = bitmapHeight)
    (hfills : FillsHalf bitmapWidth bitmapHeight v.getWidth v.getHeight)
    (hscale : 1 ≤ v.getScale) (hposted : ∀ zoom ∈ v.posted, zoom.Proper) (window : CropWindow) :
    InStep bitmapWidth bitmapHeight
      ((v.setImageBitmapResetBase bitmap).addHighlight window) := by
  refine ⟨⟨hwidth, hheight, hfills, hscale, ?_, hposted⟩, rfl, rfl⟩
  refine FillsHalf.one_le_maxZoom (v := v.setImageBitmapResetBase bitmap) ?_
  change FillsHalf bitmap.bitmapWidth bitmap.bitmapHeight v.getWidth v.getHeight
  rw [hwidth, hheight]
  exact hfills

/-- A quarter turn makes both matrices anew, for the turned picture and a new
frame. -/
theorem InStep.rotate (h : InStep bitmapWidth bitmapHeight v) (window : CropWindow) :
    InStep bitmapWidth bitmapHeight (v.rotate window) := by
  have hwidth : v.mBitmapDisplayed.turned.bitmapWidth = bitmapWidth := h.width
  have hheight : v.mBitmapDisplayed.turned.bitmapHeight = bitmapHeight := h.height
  exact inStep_shown hwidth hheight h.fills h.scale h.posted window

/-- The layouts among the events leave the picture half the view. -/
def CropEvent.Fills (bitmapWidth bitmapHeight : ℤ) : CropEvent → Prop
  | .layout left top right bottom =>
    FillsHalf bitmapWidth bitmapHeight (right - left) (bottom - top)
  | _ => True

/-- No event takes picture and frame out of step. -/
theorem InStep.step (h : InStep bitmapWidth bitmapHeight v) (mHysteresis : ℚ) {event : CropEvent}
    (hevent : event.Fills bitmapWidth bitmapHeight) :
    InStep bitmapWidth bitmapHeight (v.step mHysteresis event) := by
  cases event with
  | down x y => exact h.touchDown mHysteresis x y
  | up => exact h.touchUp
  | move x y => exact h.touchMove x y
  | back => exact h.keyBack
  | zoomStep elapsed => exact h.zoomStep elapsed
  | layout left top right bottom => exact h.layout hevent
  | rotate window => exact h.rotate window
  | draw => exact h.draw

/-- No run does, by induction on its events. -/
theorem InStep.run (h : InStep bitmapWidth bitmapHeight v) (mHysteresis : ℚ)
    {events : List CropEvent} (hevents : ∀ e ∈ events, e.Fills bitmapWidth bitmapHeight) :
    InStep bitmapWidth bitmapHeight (events.foldl (CropView.step mHysteresis) v) := by
  induction events generalizing v with
  | nil => exact h
  | cons event events ih =>
      obtain ⟨hfirst, hrest⟩ := List.forall_mem_cons.mp hevents
      exact ih (h.step mHysteresis hfirst) hrest

end Steps

/-! ## Where the picture is -/

/-- Along an axis, the picture is in the middle or reaches beyond both edges. -/
def PlacedOn (low high viewSize : ℚ) : Prop :=
  if high - low < viewSize then low = viewSize - high else low ≤ 0 ∧ viewSize ≤ high

/-- After the shift that `center` computes, a side that is shorter than the
view is centred, and a longer one covers it. -/
theorem placedOn_centerDelta {low high viewSize : ℚ} :
    PlacedOn (low + CropView.centerDelta low high viewSize)
      (high + CropView.centerDelta low high viewSize) viewSize := by
  have hsize : ∀ d : ℚ, high + d - (low + d) = high - low := by
    intro d
    ring
  unfold PlacedOn CropView.centerDelta
  rw [hsize]
  split_ifs with hsmall hlow hhigh
  · ring
  · constructor <;> linarith only [hsmall]
  · constructor <;> linarith only [hsmall, hhigh]
  · constructor <;> linarith only [hlow, hhigh]

/-- The picture is placed along both axes. -/
def CropView.Placed (v : CropView) : Prop :=
  let r := v.pictureBounds v.imageMatrix
  PlacedOn r.left r.right v.getWidth ∧ PlacedOn r.top r.bottom v.getHeight

/-- So after `center` the picture is placed along both axes, whatever it was
before. -/
theorem placed_center (v : CropView) : v.center.Placed := by
  have hbounds : ∀ dx dy : ℚ, v.pictureBounds
      (v.mBaseMatrix.postConcat (v.mSuppMatrix.postTranslate dx dy)) =
        ⟨(v.pictureBounds v.getImageViewMatrix).left + dx,
          (v.pictureBounds v.getImageViewMatrix).top + dy,
          (v.pictureBounds v.getImageViewMatrix).right + dx,
          (v.pictureBounds v.getImageViewMatrix).bottom + dy⟩ := by
    intro dx dy
    rw [postConcat_postTranslate]
    exact mapRect_postTranslate _ _ _ _
  unfold CropView.Placed
  change PlacedOn
      (v.pictureBounds (v.mBaseMatrix.postConcat (v.mSuppMatrix.postTranslate _ _))).left
      (v.pictureBounds (v.mBaseMatrix.postConcat (v.mSuppMatrix.postTranslate _ _))).right
      v.getWidth ∧
    PlacedOn (v.pictureBounds (v.mBaseMatrix.postConcat (v.mSuppMatrix.postTranslate _ _))).top
      (v.pictureBounds (v.mBaseMatrix.postConcat (v.mSuppMatrix.postTranslate _ _))).bottom
      v.getHeight
  rw [hbounds]
  exact ⟨placedOn_centerDelta, placedOn_centerDelta⟩

theorem placed_touchUp (v : CropView) : v.touchUp.Placed := placed_center _

/-- **The frame lies over what it selects.**  In every run of touches, keys,
animation steps, layouts, redraws and quarter turns, the picture is shown
through its two matrices, the frame is drawn through the same map, and the
picture is not smaller than at first; and when the finger is lifted, the
picture is in the middle of the view or reaches beyond its edges. -/
theorem cropView_inStep {left top right bottom : ℤ} {bitmap : RotateBitmap}
    (hfills : FillsHalf bitmap.bitmapWidth bitmap.bitmapHeight (right - left) (bottom - top))
    (window : CropWindow) (mHysteresis : ℚ) {events : List CropEvent}
    (hevents : ∀ e ∈ events, e.Fills bitmap.bitmapWidth bitmap.bitmapHeight) {v : CropView}
    (hrun : events.foldl (CropView.step mHysteresis)
      (openCropView left top right bottom bitmap window) = v) :
    v.imageMatrix = v.mBaseMatrix.postConcat v.mSuppMatrix ∧
      v.highlight.mMatrix = v.imageMatrix ∧ 1 ≤ v.getScale ∧
      (v.step mHysteresis .up).Placed := by
  have hopen : InStep bitmap.bitmapWidth bitmap.bitmapHeight
      (openCropView left top right bottom bitmap window) :=
    inStep_shown rfl rfl hfills le_rfl (fun _ hzoom => absurd hzoom List.not_mem_nil) window
  have hend : InStep bitmap.bitmapWidth bitmap.bitmapHeight v :=
    hrun ▸ hopen.run mHysteresis hevents
  exact ⟨hend.shown, hend.framed, hend.scale, placed_touchUp v⟩

/-- A picture in a view of its size; a corner is dragged, and the picture is
turned. -/
theorem cropView_inStep_drag :
    ∃ v, [CropEvent.down 100 100, .move 120 130, .up, .zoomStep 100, .rotate squareWindow,
          .layout 0 0 400 600].foldl (CropView.step 30)
        (openCropView 0 0 400 400 ⟨400, 400, 0⟩ squareWindow) = v ∧
      v.imageMatrix = v.mBaseMatrix.postConcat v.mSuppMatrix ∧
      v.highlight.mMatrix = v.imageMatrix ∧ 1 ≤ v.getScale ∧ (v.step 30 .up).Placed := by
  refine ⟨_, rfl, cropView_inStep ⟨by decide, by decide, by decide, by decide⟩ squareWindow 30
    ?_ rfl⟩
  simp only [List.forall_mem_cons, List.not_mem_nil, false_implies, implies_true, and_true]
  exact ⟨trivial, trivial, trivial, trivial, trivial, by decide, by decide, by decide, by decide⟩

end CardScanner
